import MarkupFormat.Proofs.Values
import MarkupFormat.Render

namespace MarkupFormat.Expression

open Bytes Layout

structure Faithful (f : Formatter) : Prop where
  blind : ∀ r s k, normalize r = .ok k → normalize s = .ok k → f r = f s
  sound : ∀ r v, f r = .ok v → ∃ k, normalize r = .ok k ∧ normalize v = .ok k

theorem normalizing_ok {r v : Bytes} : normalizing r = .ok v ↔ normalize r = .ok v :=
  Written.mapError_ok

theorem faithful_normalizing : Faithful normalizing where
  blind := by
    intro r s k hr hs
    rw [normalizing_ok.2 hr, normalizing_ok.2 hs]
  sound := by
    intro r v h
    have hv := normalizing_ok.1 h
    exact ⟨v, hv, normalize_normalize hv⟩

theorem mem_of_lookup {table : List (Bytes × Bytes)} {k v : Bytes} (h : table.lookup k = some v) :
    (k, v) ∈ table := by
  obtain ⟨before, after, rfl, -⟩ := List.lookup_eq_some_iff.1 h
  simp

theorem faithful_tabulated {table : List (Bytes × Bytes)}
    (h : ∀ k v, table.lookup k = some v → normalize v = .ok k) : Faithful (tabulated table) where
  blind := by
    intro r s k hr hs
    rw [tabulated, tabulated, normalizing_ok.2 hr, normalizing_ok.2 hs]
  sound := by
    intro r v hv
    unfold tabulated at hv
    cases hn : normalizing r with
    | error e =>
        rw [hn] at hv
        cases hv
    | ok k =>
        rw [hn] at hv
        have hk := normalizing_ok.1 hn
        refine ⟨k, hk, ?_⟩
        cases hl : table.lookup k with
        | none =>
            have hvk : k = v := by simpa [Except.map, hl] using hv
            exact hvk ▸ normalize_normalize hk
        | some w =>
            have hvw : w = v := by simpa [Except.map, hl] using hv
            exact hvw ▸ h k w hl

inductive Keyed : Formatter → Prop
  | normalizing : Keyed normalizing
  | tabulated {table : List (Bytes × Bytes)} :
      (∀ e ∈ table, normalize e.2 = .ok e.1) → Keyed (tabulated table)

theorem Keyed.faithful {f : Formatter} (h : Keyed f) : Faithful f := by
  cases h with
  | normalizing => exact faithful_normalizing
  | tabulated h => exact faithful_tabulated fun k v hv => h (k, v) (mem_of_lookup hv)

theorem HasLiterals.subset {t : Bytes} {ls : List Bytes} (h : HasLiterals t ls) :
    ∀ l ∈ ls, ∀ c ∈ l, c ∈ t := by
  induction h with
  | nil => simp
  | code _ _ ih => exact fun l hl c hc => List.mem_cons_of_mem _ (ih l hl c hc)
  | string _ _ ih =>
      intro l hl c hc
      rcases List.mem_cons.1 hl with rfl | hl
      · exact List.mem_append_left _ hc
      · exact List.mem_append_right _ (ih l hl c hc)

theorem literals_of_isQuoted {v : Bytes} (h : IsQuoted v) : literals v = [v] := by
  obtain ⟨s, rfl, hs⟩ := h
  have := HasLiterals.string hs .nil
  rw [List.append_nil] at this
  exact this.literals_eq

theorem no_lf_of_normalize {t k : Bytes} (h : normalize t = .ok k) (hk : Byte.lf ∉ k) :
    ∀ l ∈ literals t, Byte.lf ∉ l := by
  obtain ⟨ls, ht, hls⟩ := hasLiterals_normalize h
  rw [ht.literals_eq]
  exact fun l hl hc => hk (hls.subset l hl _ hc)

theorem presentable_of_normalize {v k : Bytes} (h : normalize v = .ok k) : Presentable (trim v) := by
  have ht := normalize_trim h
  obtain ⟨ls, hls, -⟩ := hasLiterals_normalize ht
  exact ⟨⟨ls, hls⟩, enclosed_of_normalize ht, endsInLine_trim v⟩

section Faithful

variable {f : Formatter} (hf : Faithful f)
include hf

theorem Faithful.shown {r v : Bytes} (h : f r = .ok v) :
    ∃ k, normalize r = .ok k ∧ normalize (shown f r) = .ok k ∧ Presentable (shown f r) := by
  obtain ⟨k, hr, hv⟩ := hf.sound r v h
  have hs : MarkupFormat.shown f r = trim v := by simp [MarkupFormat.shown, h]
  rw [hs]
  exact ⟨k, hr, normalize_trim hv, presentable_of_normalize hv⟩

theorem Faithful.shown_eq {r s k : Bytes} (hr : normalize r = .ok k) (hs : normalize s = .ok k) :
    MarkupFormat.shown f r = MarkupFormat.shown f s := by
  rw [MarkupFormat.shown, MarkupFormat.shown, hf.blind r s k hr hs]

theorem Faithful.answer_eq {r s v : Bytes} (h : f r = .ok v) (hs : normalize s = normalize v) :
    f s = .ok v := by
  obtain ⟨k, hr, hv⟩ := hf.sound r v h
  rw [hf.blind s r k (hs.trans hv) hr, h]

end Faithful

theorem isIntegerWord_of_isInteger {t : Bytes} (h : Literal.isInteger t = true) :
    Written.Value.isIntegerWord t = true := by
  cases t with
  | nil => cases h
  | cons c t =>
      simp only [Literal.isInteger, Bool.and_eq_true] at h
      simp [Written.Value.isIntegerWord, Literal.isDigitOrUnderscore, h.1.1, h.1.2]

theorem isBoolean_of_kind? {t : Bytes} (h : Literal.kind? t ≠ some .boolean) :
    Literal.isBoolean t = false := by
  unfold Literal.kind? at h
  cases hb : Literal.isBoolean t with
  | false => rfl
  | true => simp [hb] at h

theorem kind_booleanValue {v : Bytes} (h : Literal.isBoolean v = true) :
    (if v = Literal.trueText then Written.Value.absent else .word v).kind = .boolean ∧
      (if v = Literal.trueText then Written.Value.absent else .word v).text = v := by
  split
  · next hv => exact ⟨rfl, hv.symm⟩
  · simp [Written.Value.kind, Written.Value.text, h]

theorem normalize_space {t k : Bytes} (h : normalize t = .ok k) :
    normalize (Byte.space :: t ++ [Byte.space]) = .ok k := by
  have hfront : normalize (Byte.space :: t) = .ok k := by
    have := normalize_blanks_append (w := [Byte.space]) (by decide) t
    exact this.trans h
  rwa [normalize_append_blanks (by decide)]

theorem expressionValue_cases (ctx : Context) (d : Option Nat) {t k : Bytes}
    (h : normalize t = .ok k) (hk : Byte.lf ∉ k) :
    (Literal.kind? t = some .boolean ∧ (expressionValue (ctx.lay d) t).kind = .boolean ∧
        (expressionValue (ctx.lay d) t).text = t) ∨
    (Literal.kind? t = some .integer ∧ (expressionValue (ctx.lay d) t).kind = .integer ∧
        (expressionValue (ctx.lay d) t).text = t) ∨
    (Literal.kind? t = some .string ∧ (expressionValue (ctx.lay d) t).kind = .string ∧
        (expressionValue (ctx.lay d) t).text = t) ∨
    (Literal.kind? t = none ∧ (expressionValue (ctx.lay d) t).kind = .expression ∧
        normalize (expressionValue (ctx.lay d) t).text = .ok k) := by
  unfold expressionValue
  rcases kind?_cases t with ⟨hkind, hb⟩ | ⟨hkind, hi⟩ | ⟨hkind, hs⟩ | hkind
  · rw [hkind]
    exact .inl ⟨rfl, kind_booleanValue hb⟩
  · rw [hkind]
    have hb : Literal.isBoolean t = false := isBoolean_of_kind? (by simp [hkind])
    have hw := isIntegerWord_of_isInteger hi
    exact .inr (.inl ⟨rfl, by simp [Written.Value.kind, hb, hw], by simp [Written.Value.text, hw]⟩)
  · rw [hkind]
    have hq := isQuoted_of_isString hs
    have hlf : Byte.lf ∉ t := no_lf_of_normalize h hk t (by simp [literals_of_isQuoted hq])
    have hlast : t.getLast? ≠ some Byte.cr := by
      obtain ⟨s, rfl, hclose⟩ := hq
      exact (endsInLine_of_closesString hclose).2
    have hlay := lay_of_no_break ctx d hlf hlast
    refine .inr (.inr (.inl ⟨rfl, rfl, ?_⟩))
    simp only [Written.Value.text, hlay]
    exact (quoted_inside hq).1
  · rw [hkind]
    refine .inr (.inr (.inr ⟨rfl, ?_⟩))
    simp only
    split
    · next h0 => exact ⟨rfl, h0 ▸ h⟩
    · split
      · exact ⟨rfl, normalize_lay ctx d h (no_lf_of_normalize h hk)⟩
      · exact ⟨rfl, normalize_space h⟩

end MarkupFormat.Expression
