import MarkupFormat.Proofs.Values

namespace MarkupFormat.Layout

open Bytes Expression

theorem count_space_relay (newline pad : Bytes) (t : Bytes) :
    t.count Byte.space ≤ (relay newline pad t).count Byte.space := by
  induction t with
  | nil => exact Nat.le_refl _
  | cons c t ih =>
      have hlf : Byte.lf ≠ Byte.space := by decide
      have hcr : Byte.cr ≠ Byte.space := by decide
      rcases relay_cases c t with rfl | ⟨rfl, hr⟩ | ⟨hc, hr⟩
      · rw [relay_lf, List.count_append, List.count_cons_of_ne hlf]
        omega
      · rw [relay_cr hr, List.count_cons_of_ne hcr]
        exact ih
      · rw [relay_keep hc hr, List.count_cons, List.count_cons]
        omega

theorem count_space_relay_lt (newline : Bytes) {pad t : Bytes} (hpad : Byte.space ∈ pad) (hlf : Byte.lf ∈ t)
    (hend : ∀ c ∈ t.getLast?, c ≠ Byte.lf ∧ c ≠ Byte.cr) :
    t.count Byte.space < (relay newline pad t).count Byte.space := by
  have hls : Byte.lf ≠ Byte.space := by decide
  have hcs : Byte.cr ≠ Byte.space := by decide
  -- new indentation takes no space away, and the last line, which is not empty, gets `pad`
  induction t with
  | nil => cases hlf
  | cons c t ih =>
      have hrest : ∀ d ∈ t.getLast?, d ≠ Byte.lf ∧ d ≠ Byte.cr := by
        intro d hd
        cases t with
        | nil => cases hd
        | cons e t => exact hend d (by rwa [List.getLast?_cons_cons])
      rcases relay_cases c t with rfl | ⟨rfl, hr⟩ | ⟨hc, hr⟩
      · rw [relay_lf, List.count_append, List.count_append, List.count_cons_of_ne hls]
        by_cases ht : Byte.lf ∈ t
        · have := ih ht hrest
          omega
        · have hline : startsEmptyLine t = false := by
            cases t with
            | nil => exact absurd rfl (hend _ rfl).1
            | cons d t =>
                have hd : d ≠ Byte.lf := fun h => ht (by simp [h])
                cases t with
                | nil => simp [startsEmptyLine, hd, (hrest d rfl).2]
                | cons e t =>
                    have he : e ≠ Byte.lf := fun h => ht (by simp [h])
                    simp [startsEmptyLine, hd, he]
          have hmono := count_space_relay newline pad t
          have hpos : 0 < pad.count Byte.space := List.count_pos_iff.2 hpad
          simp only [hline, Bool.false_eq_true, if_false]
          omega
      · have ht : Byte.lf ∈ t := (List.mem_cons.1 hlf).resolve_left (by decide)
        rw [relay_cr hr, List.count_cons_of_ne hcs]
        exact ih ht hrest
      · have ht : Byte.lf ∈ t := by simpa [Ne.symm hc] using hlf
        have := ih ht hrest
        rw [relay_keep hc hr, List.count_cons, List.count_cons]
        omega

def BreaksAs (newline : Newline) (t : Bytes) : Prop :=
  ∀ x y, t = x ++ Byte.lf :: y → (x.getLast? = some Byte.cr ↔ newline = .crlf)

theorem getLast?_cons_cr {c : UInt8} (hc : c ≠ Byte.cr) (x : Bytes) :
    (c :: x).getLast? = some Byte.cr ↔ x.getLast? = some Byte.cr := by
  cases x with
  | nil => simp [hc]
  | cons d x => rw [List.getLast?_cons_cons]

theorem breaksAs_cons {newline : Newline} {c : UInt8} {t : Bytes} (hc : c ≠ Byte.lf)
    (hr : ¬(c = Byte.cr ∧ t.head? = some Byte.lf)) :
    BreaksAs newline (c :: t) ↔ BreaksAs newline t := by
  have hlast : ∀ x y, t = x ++ Byte.lf :: y →
      ((c :: x).getLast? = some Byte.cr ↔ x.getLast? = some Byte.cr) := by
    rintro x y rfl
    cases x with
    | nil => exact getLast?_cons_cr (fun h => hr ⟨h, rfl⟩) []
    | cons d x => rw [List.getLast?_cons_cons]
  constructor
  · intro h x y ht
    rw [← hlast x y ht]
    exact h (c :: x) y (by rw [ht]; rfl)
  · intro h x y ht
    cases x with
    | nil => exact absurd (List.cons.inj ht).1 hc
    | cons d x =>
        obtain ⟨rfl, hx⟩ : c = d ∧ t = x ++ Byte.lf :: y := by simpa using ht
        rw [hlast x y hx]
        exact h x y hx

theorem breaksAs_lf {newline : Newline} {t : Bytes} :
    BreaksAs newline (Byte.lf :: t) ↔ newline ≠ .crlf ∧ BreaksAs newline t := by
  constructor
  · intro h
    refine ⟨fun hn => by simpa using (h [] t rfl).2 hn, fun x y ht => ?_⟩
    rw [← getLast?_cons_cr (c := Byte.lf) (by decide)]
    exact h (Byte.lf :: x) y (by rw [ht]; rfl)
  · rintro ⟨hn, h⟩ x y ht
    cases x with
    | nil => simp [hn]
    | cons d x =>
        obtain ⟨rfl, hx⟩ : Byte.lf = d ∧ t = x ++ Byte.lf :: y := by simpa using ht
        rw [getLast?_cons_cr (by decide)]
        exact h x y hx

theorem breaksAs_crlf {newline : Newline} {t : Bytes} :
    BreaksAs newline (Byte.cr :: Byte.lf :: t) ↔ newline = .crlf ∧ BreaksAs newline t := by
  have hlast : ∀ x : Bytes, (Byte.cr :: Byte.lf :: x).getLast? = some Byte.cr ↔
      x.getLast? = some Byte.cr := by
    intro x
    rw [List.getLast?_cons_cons]
    exact getLast?_cons_cr (by decide) x
  constructor
  · intro h
    refine ⟨(h [Byte.cr] t rfl).1 rfl, fun x y ht => ?_⟩
    rw [← hlast]
    exact h (Byte.cr :: Byte.lf :: x) y (by rw [ht]; rfl)
  · rintro ⟨hn, h⟩ x y ht
    cases x with
    | nil => exact absurd (List.cons.inj ht).1 (by decide)
    | cons d x =>
        obtain ⟨rfl, hx⟩ : Byte.cr = d ∧ Byte.lf :: t = x ++ Byte.lf :: y := by simpa using ht
        cases x with
        | nil => simp [hn]
        | cons e x =>
            obtain ⟨rfl, hy⟩ : Byte.lf = e ∧ t = x ++ Byte.lf :: y := by simpa using hx
            rw [hlast]
            exact h x y hy

theorem relay_margin_iff {newline : Newline} : ∀ {t : Bytes}, t.getLast? ≠ some Byte.cr →
    (relay newline.text [] t = t ↔ BreaksAs newline t)
  | [], _ => ⟨fun _ x y h => by simp at h, fun _ => rfl⟩
  | c :: t, hend => by
      have hrest : t.getLast? ≠ some Byte.cr := by
        intro h
        cases t with
        | nil => cases h
        | cons d t => exact hend (by rwa [List.getLast?_cons_cons])
      rcases relay_cases c t with rfl | ⟨rfl, hr⟩ | ⟨hc, hr⟩
      · rw [relay_lf, breaksAs_lf, ← relay_margin_iff hrest]
        have hcl : Byte.cr ≠ Byte.lf := by decide
        cases newline with
        | lf => simp [Newline.text]
        | crlf => simp [Newline.text, hcl]
      · cases t with
        | nil => exact absurd rfl hend
        | cons d t =>
            have hd : d = Byte.lf := by simpa [endsLine] using hr
            subst hd
            have hrest : t.getLast? ≠ some Byte.cr := by
              intro h
              cases t with
              | nil => cases h
              | cons e t => exact hrest (by rwa [List.getLast?_cons_cons])
            rw [relay_cr hr, relay_lf, breaksAs_crlf, ← relay_margin_iff hrest]
            have hlc : Byte.lf ≠ Byte.cr := by decide
            cases newline with
            | lf => simp [Newline.text, hlc]
            | crlf => simp [Newline.text]
      · rw [relay_keep hc hr, List.cons_inj_right, relay_margin_iff hrest, breaksAs_cons hc]
        rintro ⟨rfl, hh⟩
        refine hr ⟨rfl, ?_⟩
        cases t with
        | nil => rfl
        | cons d t => simpa [endsLine] using hh

def Undisturbed (ctx : Context) (d : Option Nat) (t : Bytes) : Prop :=
  d = none ∨ Byte.lf ∉ t ∨ d = some 0 ∧ BreaksAs ctx.options.newline t

theorem lay_eq_self_iff (ctx : Context) (d : Option Nat) {t : Bytes} (h : IsQuoted t) :
    ctx.lay d t = t ↔ Undisturbed ctx d t := by
  obtain ⟨s, rfl, hs⟩ := h
  have hlast : (Byte.quote :: s).getLast? = some Byte.quote := by
    have := getLast?_of_closesString (by decide) hs
    cases s with
    | nil => cases this
    | cons c s => rwa [List.getLast?_cons_cons]
  have hcr : (Byte.quote :: s).getLast? ≠ some Byte.cr := by
    rw [hlast]
    decide
  cases d with
  | none => simp [Undisturbed, Context.lay]
  | some depth =>
      by_cases hlf : Byte.lf ∈ Byte.quote :: s
      · rw [Context.lay, Context.reindent, reindent_eq_relay]
        cases depth with
        | zero =>
            rw [show indent 0 = [] from rfl, Context.newline, relay_margin_iff hcr]
            simp [Undisturbed, hlf]
        | succ depth =>
            have hspace : Byte.space ∈ indent (depth + 1) := by
              simp [indent, indentWidth, spaces]
            have hend : ∀ c ∈ (Byte.quote :: s).getLast?, c ≠ Byte.lf ∧ c ≠ Byte.cr := by
              rw [hlast]
              rintro c hc
              rw [← Option.some.inj hc]
              decide
            have hlt := count_space_relay_lt ctx.newline hspace hlf hend
            constructor
            · intro h
              rw [h] at hlt
              exact absurd hlt (Nat.lt_irrefl _)
            · rintro (h | h | ⟨h, -⟩)
              · cases h
              · exact absurd hlf h
              · cases h
      · simp [lay_of_no_break ctx (some depth) hlf hcr, Undisturbed, hlf]

end MarkupFormat.Layout
