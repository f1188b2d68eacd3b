import MarkupFormat.Proofs.Formatters

namespace MarkupFormat.Expression

open Bytes Layout

theorem head?_normalizeFrom (r : Bytes) : ∀ st t, st.mode = .code → st.pending = false →
    st.last = none → normalizeFrom st r = .ok t → ∀ c ∈ t.head?, isBlank c = false := by
  induction r with
  | nil =>
      intro st t _ _ _ h
      obtain ⟨-, -, rfl⟩ := normalizeFrom_nil h
      simp
  | cons c r ih =>
      intro st t hm hp hl h
      obtain ⟨out, st', t', hs, hr, rfl⟩ := normalizeFrom_cons h
      cases hc : isBlank c with
      | true =>
          rw [NormalState.step_blank hm hc] at hs
          cases hs
          exact ih st.rest t' hm (by simp [NormalState.rest, hl]) hl hr
      | false =>
          obtain ⟨opened, -, rfl, rfl⟩ := NormalState.step_code hm hc hs
          simp [NormalState.gap, hp, hc]

theorem getLast?_normalizeFrom (r : Bytes) : ∀ st t, normalizeFrom st r = .ok t →
    (t = [] → st.mode = .code) ∧ ∀ c ∈ t.getLast?, isBlank c = false := by
  induction r with
  | nil =>
      intro st t h
      obtain ⟨hm, -, rfl⟩ := normalizeFrom_nil h
      exact ⟨fun _ => hm, by simp⟩
  | cons c r ih =>
      intro st t h
      obtain ⟨out, st', t', hs, hr, rfl⟩ := normalizeFrom_cons h
      obtain ⟨hnil, hlast⟩ := ih st' t' hr
      have hkeep : ∀ u : Bytes, (t' = [] → ∀ d ∈ u.getLast?, isBlank d = false) →
          ∀ d ∈ (u ++ t').getLast?, isBlank d = false := by
        intro u hu d hd
        by_cases ht : t' = []
        · exact hu ht d (by simpa [ht] using hd)
        · rw [List.getLast?_append] at hd
          cases hl : t'.getLast? with
          | none => exact absurd (List.getLast?_eq_none_iff.1 hl) ht
          | some e =>
              rw [hl] at hd
              exact hlast d (hl ▸ hd)
      by_cases hm : st.mode = .code
      · refine ⟨fun _ => hm, hkeep out fun _ d hd => ?_⟩
        cases hc : isBlank c with
        | true =>
            rw [NormalState.step_blank hm hc] at hs
            cases hs
            cases hd
        | false =>
            obtain ⟨opened, -, rfl, rfl⟩ := NormalState.step_code hm hc hs
            rw [List.getLast?_concat, Option.mem_some_iff] at hd
            exact hd ▸ hc
      · rw [NormalState.step_quoted hm] at hs
        cases hs
        refine ⟨by simp, hkeep [c] fun ht d hd => ?_⟩
        have hd' : c = d := by simpa using hd
        -- a string that ends here ends with its quote
        rw [← hd', Bool.eq_false_iff]
        intro hb
        exact absurd (hnil ht) (by simp [Mode.next_blank hm hb])

theorem trim_eq_self {t : Bytes} (hf : ∀ c ∈ t.head?, isBlank c = false)
    (hl : ∀ c ∈ t.getLast?, isBlank c = false) : trim t = t := by
  have hedge : ∀ {c}, isBlank c = false → isEdge c = false := by
    intro c hc
    rw [Bool.eq_false_iff]
    intro he
    rw [isBlank_of_isEdge he] at hc
    cases hc
  exact trim_of_edges (fun c hc => hedge (hf c hc)) fun c hc => hedge (hl c hc)

theorem trim_of_normalize {r k : Bytes} (h : normalize r = .ok k) : trim k = k :=
  trim_eq_self (head?_normalizeFrom r .start k rfl rfl rfl h) (getLast?_normalizeFrom r .start k h).2

theorem shown_normalizing {r k : Bytes} (h : normalize r = .ok k) : shown normalizing r = k := by
  rw [shown, normalizing_ok.2 h]
  exact trim_of_normalize h

theorem normalizeFrom_digits {t : Bytes} (h : ∀ c ∈ t, Literal.isDigitOrUnderscore c = true) :
    ∀ st : NormalState, st.mode = .code → st.opened = [] → st.pending = false →
      normalizeFrom st t = .ok t := by
  have hdigit : ∀ c, Literal.isDigitOrUnderscore c = true → isBlank c = false ∧ opener? c = none ∧
      isOpener c = false ∧ c ≠ Byte.quote ∧ c ≠ Byte.comma :=
    Byte.forall_iff.2 (by decide +kernel)
  induction t with
  | nil => exact fun st hm ho _ => normalizeFrom_nil_of hm ho
  | cons c t ih =>
      intro st hm ho hp
      obtain ⟨hb, hno, hopen, hq, hcomma⟩ := hdigit c (h c (by simp))
      have hbr : st.brackets c = .ok [] := by simp [NormalState.brackets, hno, hopen, ho]
      have hgap : st.gap c = [] := by simp [NormalState.gap, hp]
      have hstep := NormalState.step_of_brackets hm hb hbr
      rw [hgap] at hstep
      refine normalizeFrom_of_step hstep (ih (fun d hd => h d (by simp [hd])) _ ?_ rfl ?_)
      · exact Mode.next_code_of_ne hq
      · exact decide_eq_false hcomma

theorem normalizeFrom_closed {s : Bytes} : ∀ st : NormalState, st.mode ≠ .code → st.opened = [] →
    closesString st.mode s = true → normalizeFrom st s = .ok s := by
  induction s with
  | nil => simp [closesString]
  | cons c s ih =>
      intro st hm ho h
      refine normalizeFrom_of_step (NormalState.step_quoted hm) ?_
      simp only [closesString] at h
      split at h
      · next hc =>
          have hs : s = [] := by simpa using h
          rw [hs]
          exact normalizeFrom_nil_of hc ho
      · next hc => exact ih ⟨st.opened, some c, st.pending, st.mode.next c⟩ hc ho h

theorem normalize_isQuoted {v : Bytes} (h : IsQuoted v) : normalize v = .ok v := by
  obtain ⟨s, rfl, hs⟩ := h
  refine normalizeFrom_of_step (NormalState.step_of_brackets rfl (by decide) rfl) ?_
  exact normalizeFrom_closed _ (by decide) rfl hs

theorem normalize_literal {t : Bytes} (h : Literal.kind? t ≠ none) : normalize t = .ok t := by
  rcases kind?_cases t with ⟨-, hb⟩ | ⟨-, hi⟩ | ⟨-, hs⟩ | hk
  · simp only [Literal.isBoolean, Bool.or_eq_true, decide_eq_true_eq] at hb
    rcases hb with rfl | rfl <;> rfl
  · refine normalizeFrom_digits ?_ .start rfl rfl rfl
    have := isIntegerWord_of_isInteger hi
    simp only [Written.Value.isIntegerWord, Bool.and_eq_true] at this
    exact List.all_eq_true.1 this.2
  · exact normalize_isQuoted (isQuoted_of_isString hs)
  · exact absurd hk h

theorem count_normalizeFrom {b : UInt8} (hb : isBlank b = false) (r : Bytes) :
    ∀ st t, normalizeFrom st r = .ok t → t.count b = r.count b := by
  induction r with
  | nil =>
      intro st t h
      rw [(normalizeFrom_nil h).2.2]
  | cons c r ih =>
      intro st t h
      obtain ⟨out, st', t', hs, hr, rfl⟩ := normalizeFrom_cons h
      rw [List.count_append, ih st' t' hr, List.count_cons]
      by_cases hm : st.mode = .code
      · cases hc : isBlank c with
        | true =>
            have hne : c ≠ b := by
              rintro rfl
              simp [hb] at hc
            rw [NormalState.step_blank hm hc] at hs
            cases hs
            simp [hne]
        | false =>
            obtain ⟨opened, -, rfl, -⟩ := NormalState.step_code hm hc hs
            have hgap : (st.gap c).count b = 0 := by
              unfold NormalState.gap
              split
              · refine List.count_eq_zero.2 fun h => ?_
                rw [List.mem_singleton.1 h] at hb
                cases hb
              · rfl
            rw [List.count_append, hgap, List.count_singleton]
            omega
      · rw [NormalState.step_quoted hm] at hs
        cases hs
        rw [List.count_singleton]
        omega

theorem count_normalize {b : UInt8} (hb : isBlank b = false) {r k : Bytes}
    (h : normalize r = .ok k) : k.count b = r.count b :=
  count_normalizeFrom hb r .start k h

end MarkupFormat.Expression
