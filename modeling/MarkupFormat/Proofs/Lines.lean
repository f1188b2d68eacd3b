import MarkupFormat.Document.Piece
import MarkupFormat.Written.Attribute

namespace MarkupFormat

open Bytes
open Written (startsSolid)

theorem isBlank_space : isBlank Byte.space = true := by decide

theorem isBlank_lf : isBlank Byte.lf = true := by decide

theorem isBlank_cr : isBlank Byte.cr = true := by decide

theorem allBlank_cons {c : UInt8} {t : Bytes} :
    allBlank (c :: t) = (isBlank c && allBlank t) := rfl

theorem allBlank_append (a b : Bytes) : allBlank (a ++ b) = (allBlank a && allBlank b) :=
  List.all_append

theorem startsSolid_append {a b : Bytes} (h : a ≠ []) : startsSolid (a ++ b) = startsSolid a := by
  cases a with
  | nil => exact absurd rfl h
  | cons c a => rfl

theorem blank_induction {P : Bytes → Prop} (nil : P [])
    (solid : ∀ c t, isBlank c = false → P t → P (c :: t))
    (blank : ∀ m t, m ≠ [] → allBlank m = true → startsSolid t = true → P t → P (m ++ t)) :
    ∀ t, P t := by
  have key : ∀ t, P t ∧ ∀ m, m ≠ [] → allBlank m = true → P (m ++ t) := by
    intro t
    induction t with
    | nil => exact ⟨nil, fun m hm hb => blank m [] hm hb rfl nil⟩
    | cons c t ih =>
        cases hc : isBlank c with
        | false =>
            have ht : P (c :: t) := solid c t hc ih.1
            exact ⟨ht, fun m hm hb => blank m (c :: t) hm hb (by simp [startsSolid, hc]) ht⟩
        | true =>
            refine ⟨ih.2 [c] (by simp) (by simp [allBlank, hc]), ?_⟩
            intro m _ hb
            have := ih.2 (m ++ [c]) (by simp) (by rw [allBlank_append, hb]; simp [allBlank, hc])
            simpa using this
  exact fun t => (key t).1

namespace Bytes

theorem runs_cons (c : UInt8) (t : Bytes) : ∃ r rs, runs (c :: t) = (c :: r) :: rs := by
  change ∃ r rs, consRun c (runs t) = (c :: r) :: rs
  unfold consRun
  split
  · split
    · exact ⟨_, _, rfl⟩
    · exact ⟨_, _, rfl⟩
  · exact ⟨_, _, rfl⟩

theorem runs_eq_nil {t : Bytes} : runs t = [] ↔ t = [] := by
  cases t with
  | nil => simp [runs]
  | cons c t =>
      obtain ⟨r, rs, h⟩ := runs_cons c t
      simp [h]

theorem runs_blank {m t : Bytes} (hm : m ≠ []) (hb : allBlank m = true)
    (ht : startsSolid t = true) : runs (m ++ t) = m :: runs t := by
  induction m with
  | nil => exact absurd rfl hm
  | cons c m ih =>
      simp only [allBlank_cons, Bool.and_eq_true] at hb
      change consRun c (runs (m ++ t)) = _
      cases m with
      | nil =>
          cases t with
          | nil => rfl
          | cons d t =>
              obtain ⟨r, rs, h⟩ := runs_cons d t
              have hd : isBlank d = false := by simpa [startsSolid] using ht
              simp [h, consRun, hb.1, hd]
      | cons d m =>
          have hd : isBlank d = true := by
            simpa [allBlank] using (And.left (by simpa [allBlank] using hb.2))
          rw [ih (by simp) hb.2]
          simp [consRun, hb.1, hd]

end Bytes

namespace Document

theorem linePieces_solid {c : UInt8} (hc : isBlank c = false) (line t : Bytes) :
    linePieces line (runs (c :: t)) = linePieces (line ++ [c]) (runs t) := by
  have hrun : ∀ r rs, linePieces line ((c :: r) :: rs) = linePieces (line ++ c :: r) rs := by
    intro r rs
    simp [linePieces, allBlank, hc]
  change linePieces line (consRun c (runs t)) = _
  cases t with
  | nil => simpa [runs, consRun] using hrun [] []
  | cons d t =>
      obtain ⟨r, rs, h⟩ := runs_cons d t
      rw [h]
      cases hd : isBlank d with
      | true => simpa [consRun, hc, hd] using hrun [] ((d :: r) :: rs)
      | false =>
          simp only [consRun, hc, hd, if_true]
          rw [hrun]
          simp [linePieces, allBlank, hd]

theorem linePieces_blank {m t : Bytes} (hm : m ≠ []) (hb : allBlank m = true)
    (ht : startsSolid t = true) (line : Bytes) :
    linePieces line (runs (m ++ t)) =
      if line = [] ∨ t = [] ∨ Byte.lf ∈ m then
        textPieces line ++ spacePieces m ++ linePieces [] (runs t)
      else linePieces (line ++ [Byte.space]) (runs t) := by
  rw [runs_blank hm hb ht]
  simp [linePieces, hb, runs_eq_nil, or_assoc]

inductive IsLine : Bytes → Prop
  | single {c : UInt8} : isBlank c = false → IsLine [c]
  | solid {c : UInt8} {t : Bytes} : isBlank c = false → IsLine t → IsLine (c :: t)
  | space {c : UInt8} {t : Bytes} : isBlank c = false → IsLine t → IsLine (c :: Byte.space :: t)

namespace IsLine

variable {a b t : Bytes}

theorem ne_nil (h : IsLine t) : t ≠ [] := by
  cases h <;> simp

theorem starts_solid (h : IsLine t) : startsSolid t = true := by
  cases h with
  | single hc => simp [startsSolid, hc]
  | solid hc _ => simp [startsSolid, hc]
  | space hc _ => simp [startsSolid, hc]

theorem append (ha : IsLine a) (hb : IsLine b) : IsLine (a ++ b) := by
  induction ha with
  | single hc => exact .solid hc hb
  | solid hc _ ih => exact .solid hc ih
  | space hc _ ih => exact .space hc ih

theorem append_space (ha : IsLine a) (hb : IsLine b) : IsLine (a ++ Byte.space :: b) := by
  induction ha with
  | single hc => exact .space hc hb
  | solid hc _ ih => exact .solid hc ih
  | space hc _ ih => exact .space hc ih

theorem ends_solid (h : IsLine t) : ∃ c, t.getLast? = some c ∧ isBlank c = false := by
  induction h with
  | @single c hc => exact ⟨c, rfl, hc⟩
  | solid _ ht ih =>
      obtain ⟨d, hd, hb⟩ := ih
      exact ⟨d, by rw [List.getLast?_cons, hd]; rfl, hb⟩
  | space _ ht ih =>
      obtain ⟨d, hd, hb⟩ := ih
      exact ⟨d, by rw [List.getLast?_cons, List.getLast?_cons, hd]; rfl, hb⟩

theorem blank_eq_space (h : IsLine t) : ∀ c ∈ t, isBlank c = true → c = Byte.space := by
  induction h with
  | single hc =>
      intro d hd hb
      simp only [List.mem_singleton] at hd
      simp [hd, hc] at hb
  | solid hc _ ih =>
      intro d hd hb
      rcases List.mem_cons.1 hd with rfl | hd
      · simp [hc] at hb
      · exact ih d hd hb
  | space hc _ ih =>
      intro d hd hb
      rcases List.mem_cons.1 hd with rfl | hd
      · simp [hc] at hb
      · rcases List.mem_cons.1 hd with rfl | hd
        · rfl
        · exact ih d hd hb

theorem spaces_lone (h : IsLine t) : ¬[Byte.space, Byte.space] <:+: t := by
  have hfirst : ∀ {u : Bytes} {l : Bytes}, startsSolid u = true → ¬Byte.space :: l <+: u := by
    rintro u l hu ⟨r, rfl⟩
    simp [startsSolid, isBlank_space] at hu
  induction h with
  | single hc =>
      intro hi
      simpa using hi.length_le
  | solid hc ht ih =>
      intro hi
      rcases List.infix_cons_iff.1 hi with hp | hi
      · exact hfirst (by simp [startsSolid, hc]) hp
      · exact ih hi
  | space hc ht ih =>
      intro hi
      rcases List.infix_cons_iff.1 hi with hp | hi
      · exact hfirst (by simp [startsSolid, hc]) hp
      · rcases List.infix_cons_iff.1 hi with hp | hi
        · exact hfirst ht.starts_solid (List.cons_prefix_cons.1 hp).2
        · exact ih hi

end IsLine

def Unfinished (line t : Bytes) : Prop :=
  line = [] ∨ IsLine line ∨
    ∃ l, line = l ++ [Byte.space] ∧ IsLine l ∧ t ≠ [] ∧ startsSolid t = true

theorem Unfinished.solid {line t : Bytes} {c : UInt8} (h : Unfinished line (c :: t))
    (hc : isBlank c = false) : IsLine (line ++ [c]) := by
  rcases h with rfl | hl | ⟨l, rfl, hl, -, -⟩
  · exact .single hc
  · exact hl.append (.single hc)
  · simpa using hl.append_space (.single hc)

theorem Unfinished.blank {line m t : Bytes} (h : Unfinished line (m ++ t)) (hm : m ≠ [])
    (hb : allBlank m = true) : line = [] ∨ IsLine line := by
  rcases h with h | h | ⟨l, -, -, -, hs⟩
  · exact .inl h
  · exact .inr h
  · cases m with
    | nil => exact absurd rfl hm
    | cons c m =>
        simp only [allBlank_cons, Bool.and_eq_true] at hb
        simp [startsSolid, hb.1] at hs

theorem isLine_of_mem_textPieces {line x : Bytes} (hl : line = [] ∨ IsLine line)
    (h : Piece.content (.text x) ∈ textPieces line) : IsLine x := by
  rcases hl with rfl | hl
  · simp [textPieces] at h
  · simp only [textPieces, hl.ne_nil, if_false, List.mem_singleton, Piece.content.injEq,
      Node.text.injEq] at h
    exact h ▸ hl

theorem isLine_of_mem_linePieces (t : Bytes) : ∀ line x, Unfinished line t →
    Piece.content (.text x) ∈ linePieces line (runs t) → IsLine x := by
  induction t using blank_induction with
  | nil =>
      intro line x hl h
      refine isLine_of_mem_textPieces ?_ h
      rcases hl with h | h | ⟨_, _, _, h, _⟩
      · exact .inl h
      · exact .inr h
      · exact absurd rfl h
  | solid c t hc ih =>
      intro line x hl h
      rw [linePieces_solid hc] at h
      exact ih _ x (.inr (.inl (hl.solid hc))) h
  | blank m t hm hb ht ih =>
      intro line x hl h
      have hline := hl.blank hm hb
      rw [linePieces_blank hm hb ht] at h
      split at h
      · simp only [List.mem_append] at h
        rcases h with (h | h) | h
        · exact isLine_of_mem_textPieces hline h
        · simp [spacePieces, hm] at h
        · exact ih [] x (.inl rfl) h
      · next hcond =>
          simp only [not_or] at hcond
          have hne : IsLine line := hline.resolve_left hcond.1
          exact ih _ x (.inr (.inr ⟨line, rfl, hne, hcond.2.1, ht⟩)) h

theorem linePieces_line {w : Bytes} (hw : IsLine w) (line u : Bytes) :
    linePieces line (runs (w ++ u)) = linePieces (line ++ w) (runs u) := by
  induction hw generalizing line with
  | single hc => exact linePieces_solid hc line u
  | solid hc _ ih => simp [linePieces_solid hc, ih]
  | @space c t hc ht ih =>
      have hu : startsSolid (t ++ u) = true := by
        rw [startsSolid_append ht.ne_nil]
        exact ht.starts_solid
      have hsp := linePieces_blank (m := [Byte.space]) (by simp) (by decide) hu (line ++ [c])
      have hlf : Byte.lf ∉ [Byte.space] := by decide
      simp only [List.append_eq_nil_iff, ht.ne_nil, hlf] at hsp
      simp only [List.cons_append, List.nil_append] at hsp
      simp [linePieces_solid hc, hsp, ih]

theorem spacePieces_eq_nil {t : Bytes} : spacePieces t = [] ↔ t = [] := by
  unfold spacePieces
  split <;> simp_all

theorem linePieces_eq_nil (t : Bytes) : ∀ line, linePieces line (runs t) = [] → line = [] ∧ t = [] := by
  induction t using blank_induction with
  | nil =>
      intro line h
      simp only [runs, List.foldr_nil, linePieces, textPieces] at h
      split at h
      · next hl => exact ⟨hl, rfl⟩
      · cases h
  | solid c t hc ih =>
      intro line h
      rw [linePieces_solid hc] at h
      simpa using (ih _ h).1
  | blank m t hm hb ht ih =>
      intro line h
      rw [linePieces_blank hm hb ht] at h
      split at h
      · simp [spacePieces_eq_nil, hm] at h
      · simpa using (ih _ h).1

theorem content_of_mem_textPieces {n : Node} {t : Bytes} (h : Piece.content n ∈ textPieces t) :
    n = .text t := by
  unfold textPieces at h
  split at h
  · simp at h
  · simpa using h

theorem content_mem_spacePieces {n : Node} {t : Bytes} : Piece.content n ∉ spacePieces t := by
  unfold spacePieces
  split <;> simp

theorem content_of_mem_linePieces {n : Node} (rs : List Bytes) : ∀ line,
    Piece.content n ∈ linePieces line rs → ∃ t, n = .text t := by
  induction rs with
  | nil => exact fun line h => ⟨line, content_of_mem_textPieces h⟩
  | cons r rs ih =>
      intro line h
      simp only [linePieces] at h
      split at h
      · exact ih _ h
      · split at h
        · simp only [List.mem_append, content_mem_spacePieces, or_false] at h
          rcases h with h | h
          · exact ⟨line, content_of_mem_textPieces h⟩
          · exact ih _ h
        · exact ih _ h

end Document

end MarkupFormat
