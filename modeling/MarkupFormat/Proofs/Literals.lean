import MarkupFormat.Expression.Normal
import MarkupFormat.Proofs.Reindentation

namespace MarkupFormat.Expression

open Bytes

def literalsFrom (m : Mode) (opened : Bytes) : Bytes → List Bytes
  | [] => []
  | c :: t =>
      if m.next c ≠ .code then literalsFrom (m.next c) (opened ++ [c]) t
      else if m = .code then literalsFrom .code [] t
      else (opened ++ [c]) :: literalsFrom .code [] t

def literals (t : Bytes) : List Bytes :=
  literalsFrom .code [] t

inductive HasLiterals : Bytes → List Bytes → Prop
  | nil : HasLiterals [] []
  | code {c : UInt8} {t : Bytes} {ls : List Bytes} :
      c ≠ Byte.quote → HasLiterals t ls → HasLiterals (c :: t) ls
  | string {s t : Bytes} {ls : List Bytes} :
      closesString .quoted s = true → HasLiterals t ls →
      HasLiterals (Byte.quote :: s ++ t) ((Byte.quote :: s) :: ls)

theorem Mode.next_code_of_ne {c : UInt8} (h : c ≠ Byte.quote) : Mode.next .code c = .code := by
  simp [Mode.next, h]

theorem getLast?_of_closesString {s : Bytes} : ∀ {m : Mode}, m ≠ .code →
    closesString m s = true → s.getLast? = some Byte.quote := by
  induction s with
  | nil =>
      intro m _ h
      simp [closesString] at h
  | cons c s ih =>
      intro m hm h
      simp only [closesString] at h
      split at h
      · next hc =>
          have hs : s = [] := by simpa using h
          subst hs
          cases m with
          | code => exact absurd rfl hm
          | escaped => simp [Mode.next] at hc
          | quoted =>
              simp only [Mode.next] at hc
              split at hc
              · cases hc
              · split at hc
                · next hq => simp [hq]
                · cases hc
      · next hc =>
          have := ih hc h
          cases s with
          | nil => simp at this
          | cons d s => rwa [List.getLast?_cons_cons]

theorem endsInLine_of_closesString {s : Bytes} (h : closesString .quoted s = true) :
    EndsInLine (Byte.quote :: s) := by
  have := getLast?_of_closesString (by decide) h
  cases s with
  | nil => simp at this
  | cons c s =>
      simp only [EndsInLine, List.getLast?_cons_cons, this]
      decide

theorem literalsFrom_string {s t : Bytes} : ∀ {m : Mode} {opened : Bytes}, m ≠ .code →
    closesString m s = true →
    literalsFrom m opened (s ++ t) = (opened ++ s) :: literals t := by
  induction s with
  | nil =>
      intro m opened _ h
      simp [closesString] at h
  | cons c s ih =>
      intro m opened hm h
      simp only [closesString] at h
      rw [List.cons_append, literalsFrom]
      split at h
      · next hc =>
          have hs : s = [] := by simpa using h
          rw [if_neg (fun h => h hc), if_neg hm, hs]
          rfl
      · next hc =>
          rw [if_pos hc, ih hc h]
          simp

theorem HasLiterals.literals_eq {t : Bytes} {ls : List Bytes} (h : HasLiterals t ls) :
    literals t = ls := by
  induction h with
  | nil => rfl
  | code hc _ ih => simpa [literals, literalsFrom, Mode.next_code_of_ne hc] using ih
  | @string s t ls hs _ ih =>
      have hstep : literals (Byte.quote :: s ++ t) = literalsFrom .quoted [Byte.quote] (s ++ t) := by
        simp [literals, literalsFrom, Mode.next]
      rw [hstep, literalsFrom_string (by decide) hs, ih]
      rfl

theorem HasLiterals.append {a b : Bytes} {ls ms : List Bytes} (ha : HasLiterals a ls)
    (hb : HasLiterals b ms) : HasLiterals (a ++ b) (ls ++ ms) := by
  induction ha with
  | nil => exact hb
  | code hc _ ih => exact .code hc ih
  | string hs _ ih =>
      rw [List.append_assoc]
      exact .string hs ih

theorem hasLiterals_blank {w : Bytes} (h : allBlank w = true) : HasLiterals w [] := by
  induction w with
  | nil => exact .nil
  | cons c w ih =>
      simp only [allBlank_cons, Bool.and_eq_true] at h
      refine .code ?_ (ih h.2)
      rintro rfl
      exact absurd h.1 (by decide)

theorem literalsFrom_staysOpen {t : Bytes} : ∀ {m : Mode} {opened : Bytes}, staysOpen m t = true →
    literalsFrom m opened t = [] := by
  induction t with
  | nil => exact fun _ => rfl
  | cons c t ih =>
      intro m opened h
      simp only [staysOpen, Bool.and_eq_true, decide_eq_true_eq] at h
      rw [literalsFrom, if_pos h.1]
      exact ih h.2

theorem exists_hasLiterals (t : Bytes) : ∃ a b, t = a ++ b ∧ HasLiterals a (literals t) ∧
    (b = [] ∨ ∃ s, b = Byte.quote :: s ∧ staysOpen .quoted s = true) := by
  induction hn : t.length using Nat.strongRecOn generalizing t with
  | ind n ih =>
      cases t with
      | nil => exact ⟨[], [], rfl, .nil, .inl rfl⟩
      | cons c t =>
          rw [List.length_cons] at hn
          by_cases hc : c = Byte.quote
          · subst hc
            have hstep : literals (Byte.quote :: t) = literalsFrom .quoted [Byte.quote] t := by
              simp [literals, literalsFrom, Mode.next]
            rcases closes_or_staysOpen t .quoted with ⟨s, u, rfl, hs⟩ | hopen
            · have hlen : u.length < n := by
                rw [List.length_append] at hn
                omega
              obtain ⟨a, b, rfl, ha, hb⟩ := ih u.length hlen u rfl
              refine ⟨Byte.quote :: s ++ a, b, by simp, ?_, hb⟩
              rw [hstep, literalsFrom_string (by decide) hs]
              exact .string hs ha
            · refine ⟨[], Byte.quote :: t, rfl, ?_, .inr ⟨t, rfl, hopen⟩⟩
              rw [hstep, literalsFrom_staysOpen hopen]
              exact .nil
          · obtain ⟨a, b, rfl, ha, hb⟩ := ih t.length (by omega) t rfl
            have hstep : literals (c :: (a ++ b)) = literals (a ++ b) := by
              simp [literals, literalsFrom, Mode.next_code_of_ne hc]
            refine ⟨c :: a, b, rfl, ?_, hb⟩
            rw [hstep]
            exact .code hc ha

section Relay

variable {newline pad : Bytes} (hne : newline ≠ []) (hnb : allBlank newline = true)
  (hpb : allBlank pad = true)
include hne hnb hpb

theorem HasLiterals.relay {t : Bytes} {ls : List Bytes} (h : HasLiterals t ls) :
    HasLiterals (relay newline pad t) (ls.map (Bytes.relay newline pad)) := by
  induction h with
  | nil => exact .nil
  | @code c t ls hc _ ih =>
      rcases relay_cases c t with rfl | ⟨rfl, hr⟩ | ⟨hlf, hr⟩
      · rw [relay_lf]
        exact (hasLiterals_blank (allBlank_lead hnb hpb t)).append ih
      · rwa [relay_cr hr]
      · rw [relay_keep hlf hr]
        exact .code hc ih
  | @string s t ls hs _ ih =>
      have hlast := endsInLine_of_closesString hs
      have hq : Bytes.relay newline pad (Byte.quote :: s) =
          Byte.quote :: Bytes.relay newline pad s := relay_cons (by decide) (by decide)
      rw [relay_append hlast, List.map_cons, hq]
      refine .string ?_ ih
      rw [closesString_relay hne hnb hpb s ?_ _ (by decide)]
      · exact hs
      · rw [getLast?_of_closesString (by decide) hs]
        decide

end Relay

end MarkupFormat.Expression
