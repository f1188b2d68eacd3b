import MarkupFormat.Proofs.Literals
import MarkupFormat.Written.Scan

namespace MarkupFormat.Expression

open Bytes Written

namespace NormalState

def rest (st : NormalState) : NormalState :=
  { st with pending := st.last.isSome }

theorem step_blank {st : NormalState} {c : UInt8} (hm : st.mode = .code)
    (hc : isBlank c = true) : st.step c = .ok ([], st.rest) := by
  simp [step, hm, hc, rest]

theorem step_quoted {st : NormalState} {c : UInt8} (hm : st.mode ≠ .code) :
    st.step c = .ok ([c], { st with last := some c, mode := st.mode.next c }) := by
  simp [step, hm]

theorem step_code {st st' : NormalState} {c : UInt8} {out : Bytes} (hm : st.mode = .code)
    (hc : isBlank c = false) (h : st.step c = .ok (out, st')) :
    ∃ opened, st.brackets c = .ok opened ∧ out = st.gap c ++ [c] ∧
      st' = ⟨opened, some c, c = Byte.comma, st.mode.next c⟩ := by
  simp only [step, hm, hc] at h
  cases hb : st.brackets c with
  | error e => simp [hb, Except.map] at h
  | ok opened =>
      simp only [hb, Except.map, ne_eq, not_true_eq_false, if_false, Bool.false_eq_true,
        Except.ok.injEq, Prod.mk.injEq] at h
      exact ⟨opened, rfl, h.1.symm, by rw [← h.2, hm]⟩

end NormalState

theorem normalizeFrom_cons {st : NormalState} {c : UInt8} {r t : Bytes}
    (h : normalizeFrom st (c :: r) = .ok t) :
    ∃ out st' t', st.step c = .ok (out, st') ∧ normalizeFrom st' r = .ok t' ∧ t = out ++ t' := by
  simp only [normalizeFrom] at h
  cases hs : st.step c with
  | error e => simp [hs] at h
  | ok p =>
      obtain ⟨out, st'⟩ := p
      simp only [hs] at h
      cases hr : normalizeFrom st' r with
      | error e => simp [hr, Except.map] at h
      | ok t' =>
          simp only [hr, Except.map, Except.ok.injEq] at h
          exact ⟨out, st', t', rfl, hr, h.symm⟩

theorem normalizeFrom_blank {st : NormalState} {c : UInt8} (hm : st.mode = .code)
    (hc : isBlank c = true) (t : Bytes) :
    normalizeFrom st (c :: t) = normalizeFrom st.rest t := by
  rw [normalizeFrom, NormalState.step_blank hm hc]
  cases h : normalizeFrom st.rest t <;> simp [h, Except.map]

theorem normalizeFrom_blanks {w : Bytes} (hw : w ≠ []) (hb : allBlank w = true) (t : Bytes) :
    ∀ st : NormalState, st.mode = .code →
      normalizeFrom st (w ++ t) = normalizeFrom st.rest t := by
  induction w with
  | nil => exact absurd rfl hw
  | cons c w ih =>
      intro st hm
      simp only [allBlank_cons, Bool.and_eq_true] at hb
      rw [List.cons_append, normalizeFrom_blank hm hb.1]
      cases w with
      | nil => rfl
      | cons d w => exact ih (by simp) hb.2 st.rest hm

theorem fault?_eq_none {st : NormalState} :
    st.fault? = none ↔ st.mode = .code ∧ st.opened = [] := by
  unfold NormalState.fault?
  split
  · simp_all
  · split <;> simp_all

theorem normalizeFrom_nil {st : NormalState} {t : Bytes} (h : normalizeFrom st [] = .ok t) :
    st.mode = .code ∧ st.opened = [] ∧ t = [] := by
  simp only [normalizeFrom] at h
  cases hf : st.fault? with
  | some e => simp [hf] at h
  | none =>
      have := fault?_eq_none.1 hf
      simp only [hf, Except.ok.injEq] at h
      exact ⟨this.1, this.2, h.symm⟩

theorem normalizeFrom_nil_of {st : NormalState} (hm : st.mode = .code) (ho : st.opened = []) :
    normalizeFrom st [] = .ok [] := by
  simp [normalizeFrom, fault?_eq_none.2 ⟨hm, ho⟩]

theorem hasLiterals_gap {st : NormalState} {c : UInt8} {t : Bytes} {ls : List Bytes}
    (h : HasLiterals (c :: t) ls) : HasLiterals (st.gap c ++ c :: t) ls := by
  unfold NormalState.gap
  split
  · exact .code (by decide) h
  · exact h

theorem hasLiterals_normalizeFrom (r : Bytes) : ∀ st t, normalizeFrom st r = .ok t →
    if st.mode = .code then ∃ ls, HasLiterals r ls ∧ HasLiterals t ls
    else ∃ s r' t' ls, r = s ++ r' ∧ t = s ++ t' ∧ closesString st.mode s = true ∧
      HasLiterals r' ls ∧ HasLiterals t' ls := by
  induction r with
  | nil =>
      intro st t h
      obtain ⟨hm, -, rfl⟩ := normalizeFrom_nil h
      rw [if_pos hm]
      exact ⟨[], .nil, .nil⟩
  | cons c r ih =>
      intro st t h
      obtain ⟨out, st', t', hs, hr, rfl⟩ := normalizeFrom_cons h
      have ih := ih st' t' hr
      by_cases hm : st.mode = .code
      · rw [if_pos hm]
        cases hc : isBlank c with
        | true =>
            rw [NormalState.step_blank hm hc] at hs
            cases hs
            rw [if_pos (show st.rest.mode = .code from hm)] at ih
            obtain ⟨ls, h1, h2⟩ := ih
            refine ⟨ls, .code ?_ h1, h2⟩
            rintro rfl
            exact absurd hc (by decide)
        | false =>
            obtain ⟨opened, -, rfl, rfl⟩ := NormalState.step_code hm hc hs
            by_cases hq : c = Byte.quote
            · subst hq
              rw [hm, show Mode.next .code Byte.quote = .quoted from rfl, if_neg (by simp)] at ih
              obtain ⟨s, r', t'', ls, rfl, rfl, hcl, h1, h2⟩ := ih
              refine ⟨(Byte.quote :: s) :: ls, .string hcl h1, ?_⟩
              rw [List.append_assoc]
              exact hasLiterals_gap (.string hcl h2)
            · rw [hm, if_pos (by exact Mode.next_code_of_ne hq)] at ih
              obtain ⟨ls, h1, h2⟩ := ih
              refine ⟨ls, .code hq h1, ?_⟩
              rw [List.append_assoc]
              exact hasLiterals_gap (.code hq h2)
      · rw [if_neg hm]
        rw [NormalState.step_quoted hm] at hs
        cases hs
        by_cases hn : st.mode.next c = .code
        · rw [if_pos hn] at ih
          obtain ⟨ls, h1, h2⟩ := ih
          exact ⟨[c], r, t', ls, rfl, rfl, by simp [closesString, hn], h1, h2⟩
        · rw [if_neg hn] at ih
          obtain ⟨s, r', t'', ls, rfl, rfl, hcl, h1, h2⟩ := ih
          exact ⟨c :: s, r', t'', ls, rfl, rfl, by simpa [closesString, hn] using hcl, h1, h2⟩

theorem hasLiterals_normalize {r t : Bytes} (h : normalize r = .ok t) :
    ∃ ls, HasLiterals r ls ∧ HasLiterals t ls := by
  have := hasLiterals_normalizeFrom r .start t h
  rwa [if_pos (show NormalState.start.mode = .code from rfl)] at this

theorem literals_normalize {r t : Bytes} (h : normalize r = .ok t) : literals t = literals r := by
  obtain ⟨ls, h1, h2⟩ := hasLiterals_normalize h
  rw [h1.literals_eq, h2.literals_eq]

def enclosed (st : CodeState) : Bytes → Bool
  | [] => st.mode = .code && st.depth = 0
  | c :: t =>
      !(st.mode = .code && st.depth = 0 && c = Byte.closeBrace) && enclosed (st.step c) t

theorem scanCode_enclosed {t : Bytes} (u : Bytes) : ∀ {st : CodeState}, enclosed st t = true →
    scanCode st (t ++ closeDelimiter ++ u) = .ok (t, u) := by
  induction t with
  | nil =>
      intro st h
      simp only [enclosed, Bool.and_eq_true] at h
      have hc : st.closes (Byte.closeBrace :: Byte.closeBrace :: u) = true := by
        simp only [CodeState.closes, h.1, h.2, Bool.true_and]
        exact startsWith_iff.2 ⟨u, rfl⟩
      change scanCode st (Byte.closeBrace :: Byte.closeBrace :: u) = _
      rw [scanCode, if_pos hc]
      rfl
  | cons c t ih =>
      intro st h
      simp only [enclosed, Bool.and_eq_true] at h
      have hc : ¬st.closes (c :: (t ++ closeDelimiter ++ u)) = true := by
        simp only [CodeState.closes, Bool.and_eq_true]
        rintro ⟨hst, hp⟩
        obtain ⟨v, hv⟩ := startsWith_iff.1 hp
        simp only [closeDelimiter, List.cons_append, List.cons.injEq] at hv
        simp [hst.1, hst.2, hv.1] at h
      change scanCode st (c :: (t ++ closeDelimiter ++ u)) = _
      rw [scanCode, if_neg hc, ih h.2]

def NormalState.code (st : NormalState) : CodeState :=
  ⟨st.opened.count Byte.openBrace, st.mode⟩

theorem opener?_cases (c : UInt8) :
    (c = Byte.closeBrace ∧ opener? c = some Byte.openBrace) ∨
      (c ≠ Byte.closeBrace ∧ opener? c ≠ some Byte.openBrace ∧
        (c = Byte.openBrace → opener? c = none)) := by
  unfold opener?
  split
  · next h => subst h; right; decide
  · split
    · next h => subst h; right; decide
    · split
      · next h => exact .inl ⟨h, rfl⟩
      · next h => exact .inr ⟨h, by simp, fun _ => rfl⟩

theorem NormalState.count_brackets {st : NormalState} {c : UInt8} {opened : List UInt8}
    (h : st.brackets c = .ok opened) :
    (c = Byte.openBrace ∧
      opened.count Byte.openBrace = st.opened.count Byte.openBrace + 1) ∨
    (c = Byte.closeBrace ∧
      st.opened.count Byte.openBrace = opened.count Byte.openBrace + 1) ∨
    (c ≠ Byte.openBrace ∧ c ≠ Byte.closeBrace ∧
      opened.count Byte.openBrace = st.opened.count Byte.openBrace) := by
  simp only [brackets] at h
  rcases opener?_cases c with ⟨hc, ho⟩ | ⟨hc, hno, hopen⟩
  · simp only [ho] at h
    cases hst : st.opened with
    | nil => simp [hst] at h
    | cons b bs =>
        simp only [hst] at h
        split at h
        · next hb =>
            cases h
            exact .inr (.inl ⟨hc, by rw [hb, List.count_cons_self]⟩)
        · cases h
  · cases ho : opener? c with
    | none =>
        simp only [ho] at h
        cases h
        by_cases hop : c = Byte.openBrace
        · exact .inl ⟨hop, by simp [hop, isOpener]⟩
        · refine .inr (.inr ⟨hop, hc, ?_⟩)
          split
          · exact List.count_cons_of_ne hop
          · rfl
    | some o =>
        have hob : o ≠ Byte.openBrace := fun h => hno (by rw [ho, h])
        have hcb : c ≠ Byte.openBrace := fun h => by simp [hopen h] at ho
        simp only [ho] at h
        cases hst : st.opened with
        | nil => simp [hst] at h
        | cons b bs =>
            simp only [hst] at h
            split at h
            · next hb =>
                cases h
                exact .inr (.inr ⟨hcb, hc, (List.count_cons_of_ne (hb ▸ hob)).symm⟩)
            · cases h

theorem NormalState.code_step {st st' : NormalState} {c : UInt8} {out : Bytes}
    (h : st.step c = .ok (out, st')) :
    st'.code = st.code.step c ∧
      (st.mode = .code → c = Byte.closeBrace → 0 < st.opened.count Byte.openBrace) := by
  by_cases hm : st.mode = .code
  · cases hc : isBlank c with
    | true =>
        have hne : ∀ d, isBlank d = false → c ≠ d := by
          rintro d hd rfl
          simp [hc] at hd
        rw [step_blank hm hc] at h
        cases h
        refine ⟨?_, fun _ h => absurd h (hne _ (by decide))⟩
        simp [NormalState.code, CodeState.step, rest, hm, hne Byte.openBrace (by decide),
          hne Byte.closeBrace (by decide), Mode.next, hne Byte.quote (by decide)]
    | false =>
        obtain ⟨opened, hb, -, rfl⟩ := step_code hm hc h
        rcases count_brackets hb with ⟨rfl, hn⟩ | ⟨rfl, hn⟩ | ⟨h1, h2, hn⟩
        · exact ⟨by simp [NormalState.code, CodeState.step, hm, hn], fun _ h => absurd h (by decide)⟩
        · refine ⟨?_, fun _ _ => by omega⟩
          simp [NormalState.code, CodeState.step, hm, hn, show Byte.closeBrace ≠ Byte.openBrace by decide]
        · exact ⟨by simp [NormalState.code, CodeState.step, hm, h1, h2, hn], fun _ h => absurd h h2⟩
  · rw [step_quoted hm] at h
    cases h
    exact ⟨by simp [NormalState.code, CodeState.step, hm], fun h => absurd h hm⟩

theorem enclosed_normalizeFrom (r : Bytes) : ∀ st t, normalizeFrom st r = .ok t →
    enclosed st.code r = true := by
  induction r with
  | nil =>
      intro st t h
      obtain ⟨hm, ho, -⟩ := normalizeFrom_nil h
      simp [enclosed, NormalState.code, hm, ho]
  | cons c r ih =>
      intro st t h
      obtain ⟨out, st', t', hs, hr, -⟩ := normalizeFrom_cons h
      obtain ⟨hstep, hdepth⟩ := NormalState.code_step hs
      have ih := ih st' t' hr
      rw [hstep] at ih
      simp only [enclosed, ih, Bool.and_true, Bool.not_eq_true', Bool.and_eq_false_iff]
      by_cases hm : st.mode = .code
      · by_cases hc : c = Byte.closeBrace
        · have := hdepth hm hc
          left
          right
          refine decide_eq_false ?_
          simp only [NormalState.code]
          omega
        · right
          simp [hc]
      · left
        left
        simp [NormalState.code, hm]

theorem enclosed_of_normalize {r t : Bytes} (h : normalize r = .ok t) :
    enclosed .start r = true :=
  enclosed_normalizeFrom r .start t h

theorem normalize_blanks_append {w : Bytes} (hb : allBlank w = true) (t : Bytes) :
    normalize (w ++ t) = normalize t := by
  by_cases hw : w = []
  · rw [hw]
    rfl
  · exact normalizeFrom_blanks hw hb t .start rfl

theorem normalizeFrom_staysOpen {s : Bytes} : ∀ {st : NormalState}, st.mode ≠ .code →
    staysOpen st.mode s = true → normalizeFrom st s = .error .unterminatedString := by
  induction s with
  | nil =>
      intro st hm _
      simp [normalizeFrom, NormalState.fault?, hm]
  | cons c s ih =>
      intro st hm h
      simp only [staysOpen, Bool.and_eq_true, decide_eq_true_eq] at h
      have hrest : normalizeFrom ⟨st.opened, some c, st.pending, st.mode.next c⟩ s =
          .error .unterminatedString := ih h.1 h.2
      rw [normalizeFrom, NormalState.step_quoted hm]
      simp [hrest, Except.map]

theorem fault?_rest (st : NormalState) : st.rest.fault? = st.fault? := rfl

theorem normalizeFrom_append_blanks {w : Bytes} (hb : allBlank w = true) (v : Bytes) :
    ∀ st, normalizeFrom st (v ++ w) = normalizeFrom st v := by
  induction v with
  | nil =>
      intro st
      by_cases hw : w = []
      · simp [hw]
      · by_cases hm : st.mode = .code
        · have hblanks := normalizeFrom_blanks hw hb [] st hm
          rw [List.append_nil] at hblanks
          rw [List.nil_append, hblanks, normalizeFrom, normalizeFrom, fault?_rest]
        · rw [List.nil_append, normalizeFrom_staysOpen hm (staysOpen_of_allBlank hm hb),
            normalizeFrom_staysOpen hm rfl]
  | cons c v ih =>
      intro st
      rw [List.cons_append, normalizeFrom, normalizeFrom]
      cases st.step c with
      | error e => rfl
      | ok p => simp only [ih]

theorem normalize_append_blanks {v w : Bytes} (hb : allBlank w = true) :
    normalize (v ++ w) = normalize v :=
  normalizeFrom_append_blanks hb v .start

theorem isBlank_of_isEdge {c : UInt8} (h : isEdge c = true) : isBlank c = true := by
  simp only [isEdge, Bool.or_eq_true, decide_eq_true_eq] at h
  rcases h with ((rfl | rfl) | rfl) | rfl <;> decide

theorem allBlank_of_edges {t : Bytes} (h : t.all isEdge = true) : allBlank t = true :=
  List.all_eq_true.2 fun c hc => isBlank_of_isEdge (List.all_eq_true.1 h c hc)

theorem normalize_trim {v t : Bytes} (h : normalize v = .ok t) : normalize (trim v) = .ok t := by
  have hfront : allBlank (v.takeWhile isEdge) = true :=
    allBlank_of_edges (List.all_takeWhile ..)
  have hback : allBlank ((v.dropWhile isEdge).reverse.takeWhile isEdge).reverse = true := by
    refine allBlank_of_edges ?_
    rw [List.all_reverse]
    exact List.all_takeWhile ..
  have h1 : normalize (v.dropWhile isEdge) = .ok t := by
    rwa [← List.takeWhile_append_dropWhile (p := isEdge) (l := v),
      normalize_blanks_append hfront] at h
  rw [← dropEndWhile_append isEdge (v.dropWhile isEdge)] at h1
  rwa [normalize_append_blanks hback] at h1

theorem getLast?_trim (v : Bytes) : ∀ c ∈ (trim v).getLast?, isEdge c = false := by
  intro c hc
  simp only [trim, dropEndWhile, List.getLast?_reverse] at hc
  have := List.head?_dropWhile_not isEdge (v.dropWhile isEdge).reverse
  rw [Option.mem_def] at hc
  simpa [hc] using this

theorem head?_trim (v : Bytes) : ∀ c ∈ (trim v).head?, isEdge c = false := by
  intro c hc
  obtain ⟨t, ht⟩ := List.head?_eq_some_iff.1 (Option.mem_def.1 hc)
  have hsplit := dropEndWhile_append isEdge (v.dropWhile isEdge)
  have hhead : (v.dropWhile isEdge).head? = some c := by
    rw [← hsplit]
    change (trim v ++ _).head? = some c
    rw [ht]
    rfl
  have hnot := List.head?_dropWhile_not isEdge v
  rw [hhead] at hnot
  simpa using hnot

theorem dropWhile_edges {t : Bytes} (h : ∀ c ∈ t.head?, isEdge c = false) : t.dropWhile isEdge = t := by
  cases t with
  | nil => rfl
  | cons c t => exact List.dropWhile_cons_of_neg (by simp [h c rfl])

theorem trim_of_edges {t : Bytes} (hfirst : ∀ c ∈ t.head?, isEdge c = false)
    (hlast : ∀ c ∈ t.getLast?, isEdge c = false) : trim t = t := by
  rw [trim, dropWhile_edges hfirst, dropEndWhile, dropWhile_edges (by simpa using hlast),
    List.reverse_reverse]

theorem endsInLine_trim (v : Bytes) : EndsInLine (trim v) := by
  constructor
  · intro h
    exact absurd (getLast?_trim v _ h) (by decide)
  · intro h
    exact absurd (getLast?_trim v _ h) (by decide)

namespace NormalState

structure Tracks (st st' : NormalState) : Prop where
  opened : st'.opened = st.opened
  last : st'.last = st.last
  mode : st'.mode = st.mode
  pending : st'.pending = true → st.pending = true
  due : st.pending = true → st.last.isSome = true

theorem Tracks.refl {st : NormalState} (h : st.pending = true → st.last.isSome = true) :
    Tracks st st :=
  ⟨rfl, rfl, rfl, id, h⟩

theorem step_of_brackets {st : NormalState} {c : UInt8} {opened : List UInt8}
    (hm : st.mode = .code) (hc : isBlank c = false) (hb : st.brackets c = .ok opened) :
    st.step c = .ok (st.gap c ++ [c], ⟨opened, some c, c = Byte.comma, Mode.code.next c⟩) := by
  simp [step, hm, hc, hb, Except.map]

theorem Tracks.brackets_eq {st st' : NormalState} (h : Tracks st st') (c : UInt8) :
    st'.brackets c = st.brackets c := by
  simp [brackets, h.opened]

theorem gap_cases (st : NormalState) (c : UInt8) : st.gap c = [] ∨ st.gap c = [Byte.space] := by
  unfold gap
  split
  · exact .inr rfl
  · exact .inl rfl

theorem Tracks.gap_eq_nil {st st' : NormalState} (h : Tracks st st') {c : UInt8}
    (hg : st.gap c = []) : st'.gap c = [] := by
  unfold gap at hg ⊢
  rw [h.last]
  split at hg
  · cases hg
  · next hn =>
      rw [if_neg]
      simp only [Bool.and_eq_true] at hn ⊢
      exact fun hy => hn ⟨⟨h.pending hy.1.1, hy.1.2⟩, hy.2⟩

theorem Tracks.gap_rest {st st' : NormalState} (h : Tracks st st') {c : UInt8}
    (hg : st.gap c = [Byte.space]) : st'.rest.gap c = [Byte.space] := by
  unfold gap at hg ⊢
  split at hg
  · next hy =>
      simp only [Bool.and_eq_true] at hy
      rw [if_pos]
      simp only [Bool.and_eq_true, rest, h.last]
      exact ⟨⟨h.due hy.1.1, hy.1.2⟩, hy.2⟩
  · cases hg

end NormalState

theorem normalizeFrom_of_step {st st' : NormalState} {c : UInt8} {out t t' : Bytes}
    (hs : st.step c = .ok (out, st')) (ht : normalizeFrom st' t = .ok t') :
    normalizeFrom st (c :: t) = .ok (out ++ t') := by
  simp [normalizeFrom, hs, ht, Except.map]

section Tracks

open NormalState

theorem normalizeFrom_written {st st' : NormalState} (h : Tracks st st') {c : UInt8}
    {opened : List UInt8} (hm : st.mode = .code) (hc : isBlank c = false)
    (hb : st.brackets c = .ok opened) {t : Bytes}
    (ht : normalizeFrom ⟨opened, some c, c = Byte.comma, Mode.code.next c⟩ t = .ok t) :
    normalizeFrom st' (st.gap c ++ [c] ++ t) = .ok (st.gap c ++ [c] ++ t) := by
  have hm' : st'.mode = .code := h.mode.trans hm
  have hb' : st'.brackets c = .ok opened := (h.brackets_eq c).trans hb
  rcases gap_cases st c with hg | hg
  · have hstep := step_of_brackets hm' hc hb'
    rw [h.gap_eq_nil hg] at hstep
    rw [hg]
    exact normalizeFrom_of_step hstep ht
  · -- the space that was written makes `st'` due to write one, as `st` was
    have hbrackets : st'.rest.brackets c = .ok opened := by
      simpa [NormalState.brackets, NormalState.rest] using hb'
    have hstep := step_of_brackets (show st'.rest.mode = .code from hm') hc hbrackets
    rw [h.gap_rest hg] at hstep
    rw [hg, List.append_assoc]
    change normalizeFrom st' (Byte.space :: (c :: t)) = _
    rw [normalizeFrom_blank hm' isBlank_space, normalizeFrom_of_step hstep ht]
    rfl

theorem normalizeFrom_tracks (r : Bytes) : ∀ st st' t, Tracks st st' →
    normalizeFrom st r = .ok t → normalizeFrom st' t = .ok t := by
  induction r with
  | nil =>
      intro st st' t htr h
      obtain ⟨hm, ho, rfl⟩ := normalizeFrom_nil h
      exact normalizeFrom_nil_of (htr.mode.trans hm) (htr.opened.trans ho)
  | cons c r ih =>
      intro st st' t htr h
      obtain ⟨out, st₂, t', hs, hr, rfl⟩ := normalizeFrom_cons h
      by_cases hm : st.mode = .code
      · cases hc : isBlank c with
        | true =>
            rw [step_blank hm hc] at hs
            cases hs
            exact ih st.rest st' t'
              ⟨htr.opened, htr.last, htr.mode, fun h => htr.due (htr.pending h), id⟩ hr
        | false =>
            obtain ⟨opened, hb, rfl, rfl⟩ := step_code hm hc hs
            have hnext := ih _ _ t' (.refl fun _ => rfl) hr
            rw [hm] at hnext
            exact normalizeFrom_written htr hm hc hb hnext
      · have hm' : st'.mode ≠ .code := by rwa [htr.mode]
        rw [step_quoted hm] at hs
        cases hs
        refine normalizeFrom_of_step (step_quoted hm') (ih _ _ t' ?_ hr)
        exact ⟨htr.opened, rfl, by rw [htr.mode], htr.pending, fun _ => rfl⟩

end Tracks

theorem normalize_normalize {r t : Bytes} (h : normalize r = .ok t) : normalize t = .ok t :=
  normalizeFrom_tracks r .start .start t (.refl (by simp [NormalState.start])) h

theorem normalizeFrom_string {s x y : Bytes}
    (hxy : ∀ st : NormalState, st.mode = .code → normalizeFrom st x = normalizeFrom st y) :
    ∀ st : NormalState, st.mode ≠ .code → closesString st.mode s = true →
      normalizeFrom st (s ++ x) = normalizeFrom st (s ++ y) := by
  induction s with
  | nil =>
      intro st _ h
      simp [closesString] at h
  | cons c s ih =>
      intro st hm h
      simp only [closesString] at h
      rw [List.cons_append, List.cons_append, normalizeFrom, normalizeFrom,
        NormalState.step_quoted hm]
      split at h
      · next hc =>
          have hs : s = [] := by simpa using h
          subst hs
          simp [hxy ⟨st.opened, some c, st.pending, st.mode.next c⟩ hc]
      · next hc =>
          simp [ih ⟨st.opened, some c, st.pending, st.mode.next c⟩ hc h]

theorem normalizeFrom_code {c : UInt8} {x y : Bytes} (hc : c ≠ Byte.quote)
    (hxy : ∀ st : NormalState, st.mode = .code → normalizeFrom st x = normalizeFrom st y)
    {st : NormalState} (hm : st.mode = .code) :
    normalizeFrom st (c :: x) = normalizeFrom st (c :: y) := by
  cases hb : isBlank c with
  | true => rw [normalizeFrom_blank hm hb, normalizeFrom_blank hm hb, hxy st.rest hm]
  | false =>
      rw [normalizeFrom, normalizeFrom]
      cases hs : st.step c with
      | error e => rfl
      | ok p =>
          obtain ⟨out, st'⟩ := p
          obtain ⟨opened, -, -, rfl⟩ := NormalState.step_code hm hb hs
          have hnext : st.mode.next c = .code := by rw [hm, Mode.next_code_of_ne hc]
          simp [hxy ⟨opened, some c, c = Byte.comma, st.mode.next c⟩ hnext]

theorem enclosed_blanks {w : Bytes} (hb : allBlank w = true) (t : Bytes) (d : Int) :
    enclosed ⟨d, .code⟩ (w ++ t) = enclosed ⟨d, .code⟩ t := by
  induction w with
  | nil => rfl
  | cons c w ih =>
      simp only [allBlank_cons, Bool.and_eq_true] at hb
      have hne : ∀ e, isBlank e = false → c ≠ e := by
        rintro e he rfl
        simp [hb.1] at he
      rw [List.cons_append, enclosed]
      simp [CodeState.step, hne Byte.openBrace (by decide), hne Byte.closeBrace (by decide),
        Mode.next, hne Byte.quote (by decide), ih hb.2]

theorem enclosed_append_blanks {w : Bytes} (hb : allBlank w = true) (t : Bytes) :
    ∀ {st : CodeState}, enclosed st t = true → enclosed st (t ++ w) = true := by
  induction t with
  | nil =>
      intro st h
      obtain ⟨d, m⟩ := st
      simp only [enclosed, Bool.and_eq_true, decide_eq_true_eq] at h
      obtain ⟨rfl, rfl⟩ := h
      have := enclosed_blanks hb [] 0
      rw [List.append_nil] at this
      rw [List.nil_append, this]
      rfl
  | cons c t ih =>
      intro st h
      simp only [enclosed, Bool.and_eq_true] at h
      simp only [List.cons_append, enclosed, Bool.and_eq_true]
      exact ⟨h.1, ih h.2⟩

theorem enclosed_string {s : Bytes} (t : Bytes) (d : Int) : ∀ {m : Mode}, m ≠ .code →
    closesString m s = true → enclosed ⟨d, m⟩ (s ++ t) = enclosed ⟨d, .code⟩ t := by
  induction s with
  | nil =>
      intro m _ h
      simp [closesString] at h
  | cons c s ih =>
      intro m hm h
      simp only [closesString] at h
      rw [List.cons_append, enclosed]
      split at h
      · next hc =>
          have hs : s = [] := by simpa using h
          simp [CodeState.step, hm, hc, hs]
      · next hc =>
          have := ih hc h
          simp [CodeState.step, hm, this]

theorem normalizeFrom_opened {s : Bytes} (hs : staysOpen .quoted s = true) {st : NormalState}
    (hm : st.mode = .code) :
    normalizeFrom st (Byte.quote :: s) = .error .unterminatedString := by
  rw [normalizeFrom, NormalState.step_of_brackets hm (by decide) rfl]
  simp only
  rw [normalizeFrom_staysOpen (show Mode.quoted ≠ .code by decide) hs]
  rfl

section Relay

variable {newline pad : Bytes} (hne : newline ≠ []) (hnb : allBlank newline = true)
  (hpb : allBlank pad = true)
include hne hnb hpb

theorem normalizeFrom_relay {a b : Bytes} {ls : List Bytes} (h : HasLiterals a ls)
    (hls : ∀ l ∈ ls, Byte.lf ∉ l)
    (hb : ∀ st : NormalState, st.mode = .code →
      normalizeFrom st (relay newline pad b) = normalizeFrom st b) :
    ∀ st : NormalState, st.mode = .code →
      normalizeFrom st (relay newline pad (a ++ b)) = normalizeFrom st (a ++ b) := by
  induction h with
  | nil => exact hb
  | @code c t ls hc _ ih =>
      intro st hm
      have ih := ih hls
      rw [List.cons_append]
      rcases relay_cases c (t ++ b) with rfl | ⟨rfl, hr⟩ | ⟨hlf, hr⟩
      · rw [relay_lf, normalizeFrom_blanks (by simp [hne]) (allBlank_lead hnb hpb _) _ st hm,
          ih st.rest hm, normalizeFrom_blank hm isBlank_lf]
      · rw [relay_cr hr, ih st hm, normalizeFrom_blank hm isBlank_cr]
        cases htb : t ++ b with
        | nil => rfl
        | cons d u =>
            have hd : d = Byte.lf := by simpa [endsLine, htb] using hr
            have hm' : st.rest.mode = .code := hm
            rw [hd, normalizeFrom_blank hm isBlank_lf, normalizeFrom_blank hm' isBlank_lf]
            rfl
      · rw [relay_keep hlf hr]
        exact normalizeFrom_code hc ih hm
  | @string s t ls hs _ ih =>
      intro st hm
      have hquote : Byte.lf ∉ Byte.quote :: s := hls _ (by simp)
      have hlast := endsInLine_of_closesString hs
      have ih := ih fun l hl => hls l (by simp [hl])
      rw [List.append_assoc, relay_append hlast, relay_of_no_break hquote hlast.2]
      obtain ⟨out, st', hstep, hm'⟩ : ∃ out st', st.step Byte.quote = .ok (out, st') ∧
          st'.mode = .quoted :=
        ⟨_, _, NormalState.step_of_brackets hm (by decide) rfl, rfl⟩
      rw [List.cons_append, List.cons_append, normalizeFrom, normalizeFrom, hstep]
      simp only
      rw [normalizeFrom_string ih st' (by simp [hm']) (by rw [hm']; exact hs)]

theorem normalize_relay {v : Bytes} (hls : ∀ l ∈ literals v, Byte.lf ∉ l) :
    normalize (relay newline pad v) = normalize v := by
  obtain ⟨a, b, rfl, ha, hb⟩ := exists_hasLiterals v
  refine normalizeFrom_relay hne hnb hpb ha hls ?_ .start rfl
  intro st hm
  rcases hb with rfl | ⟨s, rfl, hs⟩
  · rfl
  · rw [relay_cons (by decide) (by decide), normalizeFrom_opened hs hm,
      normalizeFrom_opened (staysOpen_relay hne hnb hpb s _ (by decide) hs) hm]

theorem enclosed_relay {v : Bytes} {ls : List Bytes} (h : HasLiterals v ls) : ∀ d,
    enclosed ⟨d, .code⟩ (relay newline pad v) = enclosed ⟨d, .code⟩ v := by
  induction h with
  | nil => exact fun _ => rfl
  | @code c t ls hc _ ih =>
      intro d
      rcases relay_cases c t with rfl | ⟨rfl, hr⟩ | ⟨hlf, hr⟩
      · rw [relay_lf, enclosed_blanks (allBlank_lead hnb hpb t), ih]
        exact (enclosed_blanks (w := [Byte.lf]) (by decide) t d).symm
      · rw [relay_cr hr, ih]
        exact (enclosed_blanks (w := [Byte.cr]) (by decide) t d).symm
      · rw [relay_keep hlf hr, enclosed, enclosed]
        simp [CodeState.step, Mode.next_code_of_ne hc, ih]
  | @string s t ls hs _ ih =>
      intro d
      have hlast := endsInLine_of_closesString hs
      have hq : relay newline pad (Byte.quote :: s) = Byte.quote :: relay newline pad s :=
        relay_cons (by decide) (by decide)
      have hs' : closesString .quoted (relay newline pad s) = true := by
        rw [closesString_relay hne hnb hpb s ?_ _ (by decide)]
        · exact hs
        · rw [getLast?_of_closesString (by decide) hs]
          decide
      have hopen : ∀ x, enclosed ⟨d, .code⟩ (Byte.quote :: x) = enclosed ⟨d, .quoted⟩ x := by
        intro x
        rw [enclosed]
        simp [CodeState.step, Mode.next, show Byte.quote ≠ Byte.closeBrace by decide,
          show Byte.quote ≠ Byte.openBrace by decide]
      rw [relay_append hlast, hq, List.cons_append, List.cons_append, hopen, hopen,
        enclosed_string _ d (by decide) hs', enclosed_string t d (by decide) hs, ih]

end Relay

end MarkupFormat.Expression
