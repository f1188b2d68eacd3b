import MarkupFormat.Proofs.Separators
import MarkupFormat.Written.Read

namespace MarkupFormat.Written

open Bytes

theorem startsWith_append_of_length {p z u : Bytes} (h : p.length ≤ z.length) :
    startsWith p (z ++ u) = startsWith p z := by
  rw [Bool.eq_iff_iff]
  simp only [startsWith, List.isPrefixOf_iff_prefix]
  constructor
  · intro hp
    exact List.prefix_of_prefix_length_le hp (List.prefix_append z u) h
  · exact fun hp => hp.trans (List.prefix_append z u)

def TagLocal (stop : Bytes → Bool) : Prop :=
  ∀ z u u' : Bytes, z.getLast? = some Byte.greater → stop (z ++ u) = stop (z ++ u')

theorem cutAt_local {stop : Bytes → Bool} (hl : TagLocal stop) {a y u : Bytes} (u' : Bytes)
    (hy : y.getLast? = some Byte.greater) (h : cutAt stop (a ++ (y ++ u)) = (a, y ++ u)) :
    cutAt stop (a ++ (y ++ u')) = (a, y ++ u') := by
  obtain ⟨-, hstop, hend⟩ := cutAt_eq_iff.1 h
  have hne : ∀ u, y ++ u ≠ [] := by
    rintro u h
    simp [(List.append_eq_nil_iff.1 h).1] at hy
  refine cutAt_eq_iff.2 ⟨rfl, ?_, .inr ?_⟩
  · intro x z hxz hz
    have hlast : (z ++ y).getLast? = some Byte.greater := by rw [List.getLast?_append, hy]; rfl
    rw [← List.append_assoc, hl _ u' u hlast, List.append_assoc]
    exact hstop x z hxz hz
  · rw [hl y u' u hy]
    exact hend.resolve_left (hne u)

theorem tagLocal_head {stop : Bytes → Bool}
    (h : ∀ c s, stop (c :: s) = stop [c]) : TagLocal stop := by
  intro z u u' hz
  cases z with
  | nil => simp at hz
  | cons c z => rw [List.cons_append, List.cons_append, h, h c (z ++ u')]

theorem tagLocal_startsWith {p : Bytes} (hp : Byte.greater ∉ p.dropLast) :
    TagLocal (startsWith p) := by
  intro z u u' hz
  by_cases hlen : p.length ≤ z.length
  · rw [startsWith_append_of_length hlen, startsWith_append_of_length hlen]
  · -- the tag would end inside `p`
    have hno : ∀ v, startsWith p (z ++ v) = false := by
      intro v
      rw [Bool.eq_false_iff]
      intro h
      simp only [startsWith, List.isPrefixOf_iff_prefix] at h
      have hzp : z <+: p := List.prefix_of_prefix_length_le (List.prefix_append z v) h (by omega)
      have hzd : z <+: p.dropLast := by
        refine List.prefix_of_prefix_length_le hzp (List.dropLast_prefix p) ?_
        rw [List.length_dropLast]
        omega
      exact hp (hzd.subset (List.mem_of_getLast? hz))
    rw [hno, hno]

theorem tagLocal_endsName : TagLocal endsName := by
  intro z u u' hz
  have htwo := tagLocal_startsWith (p := [Byte.slash, Byte.greater]) (by decide) z u u' hz
  cases z with
  | nil => simp at hz
  | cons c z =>
      simp only [List.cons_append] at htwo
      simp only [List.cons_append, endsName, htwo]

theorem tagLocal_startsSolid : TagLocal startsSolid :=
  tagLocal_head fun _ _ => rfl

theorem tagLocal_endsTag : TagLocal endsTag := by
  intro z u u' hz
  have htwo := tagLocal_startsWith (p := [Byte.slash, Byte.greater]) (by decide) z u u' hz
  cases z with
  | nil => simp at hz
  | cons c z =>
      simp only [List.cons_append] at htwo
      simp only [List.cons_append, endsTag, htwo]
      rfl

theorem scanCode_local {inner r : Bytes} (r' : Bytes) : ∀ {st : CodeState},
    scanCode st (inner ++ closeDelimiter ++ r) = .ok (inner, r) →
    scanCode st (inner ++ closeDelimiter ++ r') = .ok (inner, r') := by
  induction inner with
  | nil =>
      intro st h
      change scanCode st (Byte.closeBrace :: Byte.closeBrace :: r) = _ at h
      change scanCode st (Byte.closeBrace :: Byte.closeBrace :: r') = _
      rw [scanCode] at h ⊢
      have hcl : st.closes (Byte.closeBrace :: Byte.closeBrace :: r') =
          st.closes (Byte.closeBrace :: Byte.closeBrace :: r) := by
        simp [CodeState.closes, startsWith, closeDelimiter, List.isPrefixOf]
      rw [hcl]
      split at h
      · next hc => rw [if_pos hc]; rfl
      · split at h
        · cases h
        · cases h
  | cons c inner ih =>
      intro st h
      have hlen : closeDelimiter.length ≤ (c :: inner ++ closeDelimiter).length := by
        simp
        omega
      have hcl : ∀ u, st.closes (c :: (inner ++ closeDelimiter ++ u)) =
          st.closes (c :: inner ++ closeDelimiter) := by
        intro u
        simp only [CodeState.closes]
        rw [← startsWith_append_of_length (u := u) hlen]
        rfl
      change scanCode st (c :: (inner ++ closeDelimiter ++ r)) = _ at h
      change scanCode st (c :: (inner ++ closeDelimiter ++ r')) = _
      rw [scanCode, hcl] at h
      rw [scanCode, hcl]
      split at h
      · cases h
      · next hn =>
          rw [if_neg hn]
          split at h
          · cases h
          · next i t hs =>
              simp only [Except.ok.injEq, Prod.mk.injEq, List.cons.injEq, true_and] at h
              obtain ⟨rfl, rfl⟩ := h
              rw [ih hs]

theorem scanQuoted_local {body r : Bytes} (r' : Bytes) : ∀ {e : Bool},
    scanQuoted e (body ++ Byte.quote :: r) = .ok (body, r) →
    scanQuoted e (body ++ Byte.quote :: r') = .ok (body, r') := by
  induction body with
  | nil =>
      intro e h
      rw [List.nil_append, scanQuoted] at h ⊢
      split at h
      · next hc => rw [if_pos hc]
      · split at h <;> cases h
  | cons c body ih =>
      intro e h
      rw [List.cons_append, scanQuoted] at h ⊢
      split at h
      · cases h
      · next hn =>
          rw [if_neg hn]
          split at h
          · cases h
          · next b t hs =>
              simp only [Except.ok.injEq, Prod.mk.injEq, List.cons.injEq, true_and] at h
              obtain ⟨rfl, rfl⟩ := h
              rw [ih hs]

theorem getLast?_append_ne {a y : Bytes} (hy : y.getLast? = some Byte.greater) :
    (a ++ y).getLast? = some Byte.greater := by
  rw [List.getLast?_append, hy]
  rfl

theorem readExpression_eq {inner r : Bytes} {s : Bytes} :
    readExpression s = .ok (inner, r) ↔ scanCode .start s = .ok (inner, r) :=
  mapError_ok

theorem readQuoted_eq {body r s : Bytes} :
    readQuoted s = .ok (body, r) ↔ scanQuoted false s = .ok (body, r) :=
  mapError_ok

theorem readValue_equals (s : Bytes) : readValue (Byte.equals :: s) = readAssigned s := by
  simp [readValue]

theorem readAssigned_expression {v : Value} {r s : Bytes} :
    readAssigned (openDelimiter ++ s) = .ok (v, r) ↔
      ∃ inner, v = .expression inner ∧ scanCode .start s = .ok (inner, r) := by
  have hd : startsWith openDelimiter (openDelimiter ++ s) = true := startsWith_iff.2 ⟨s, rfl⟩
  rw [readAssigned, if_pos hd]
  change (readExpression s).map _ = _ ↔ _
  cases hs : readExpression s with
  | error e =>
      simp only [Except.map, reduceCtorEq, false_iff, not_exists, not_and]
      intro inner _ h
      rw [readExpression_eq.2 h] at hs
      cases hs
  | ok p =>
      obtain ⟨inner, t⟩ := p
      simp only [Except.map, readExpression_eq.1 hs, Except.ok.injEq, Prod.mk.injEq]
      constructor
      · rintro ⟨rfl, rfl⟩
        exact ⟨inner, rfl, rfl, rfl⟩
      · rintro ⟨_, rfl, rfl, rfl⟩
        exact ⟨rfl, rfl⟩

theorem readAssigned_quoted {v : Value} {r s : Bytes} :
    readAssigned (Byte.quote :: s) = .ok (v, r) ↔
      ∃ body, v = .quoted body ∧ scanQuoted false s = .ok (body, r) := by
  have hd : startsWith openDelimiter (Byte.quote :: s) = false := rfl
  have hq : startsWith [Byte.quote] (Byte.quote :: s) = true := startsWith_iff.2 ⟨s, rfl⟩
  rw [readAssigned, hd, if_neg (by decide), if_pos hq]
  change (readQuoted s).map _ = _ ↔ _
  cases hs : readQuoted s with
  | error e =>
      simp only [Except.map, reduceCtorEq, false_iff, not_exists, not_and]
      intro body _ h
      rw [readQuoted_eq.2 h] at hs
      cases hs
  | ok p =>
      obtain ⟨body, t⟩ := p
      simp only [Except.map, readQuoted_eq.1 hs, Except.ok.injEq, Prod.mk.injEq]
      constructor
      · rintro ⟨rfl, rfl⟩
        exact ⟨body, rfl, rfl, rfl⟩
      · rintro ⟨_, rfl, rfl, rfl⟩
        exact ⟨rfl, rfl⟩

theorem readAssigned_word {t r s : Bytes} :
    readAssigned s = .ok (.word t, r) ↔
      startsWith openDelimiter s = false ∧ startsWith [Byte.quote] s = false ∧
        cutAt endsName s = (t, r) := by
  by_cases hd : startsWith openDelimiter s = true
  · obtain ⟨u, rfl⟩ := startsWith_iff.1 hd
    simp [readAssigned_expression, hd]
  · by_cases hq : startsWith [Byte.quote] s = true
    · obtain ⟨u, rfl⟩ := startsWith_iff.1 hq
      have hs : startsWith [Byte.quote] (Byte.quote :: u) = true := hq
      simp [readAssigned_quoted, hs]
    · rw [readAssigned, if_neg hd, if_neg hq]
      simp only [Except.ok.injEq, Prod.mk.injEq, Value.word.injEq, hd, hq, true_and]
      exact (Prod.ext_iff (y := (t, r))).symm

theorem readValue_local {v : Value} {y u : Bytes} (u' : Bytes)
    (hy : y.getLast? = some Byte.greater) (h : readValue (v.write ++ (y ++ u)) = .ok (v, y ++ u)) :
    readValue (v.write ++ (y ++ u')) = .ok (v, y ++ u') := by
  cases v with
  | absent =>
      cases y with
      | nil => simp at hy
      | cons c y =>
          simp only [Value.write, List.nil_append, List.cons_append, readValue] at h ⊢
          split at h
          · next hc =>
              obtain ⟨t, ht, -⟩ := readAssigned_ok h
              simp [Value.write] at ht
          · next hc => rw [if_neg hc]
  | expression inner =>
      simp only [Value.write, List.cons_append, readValue_equals, List.append_assoc] at h ⊢
      rw [readAssigned_expression] at h ⊢
      obtain ⟨i, hi, hs⟩ := h
      cases hi
      refine ⟨inner, rfl, ?_⟩
      rw [← List.append_assoc] at hs ⊢
      exact scanCode_local _ hs
  | quoted body =>
      simp only [Value.write, List.cons_append, readValue_equals, List.append_assoc] at h ⊢
      rw [readAssigned_quoted] at h ⊢
      obtain ⟨b, hb, hs⟩ := h
      cases hb
      exact ⟨body, rfl, scanQuoted_local _ hs⟩
  | word t =>
      simp only [Value.write, List.cons_append, readValue_equals] at h ⊢
      rw [readAssigned_word] at h ⊢
      obtain ⟨hd, hq, hc⟩ := h
      have hlast := getLast?_append_ne (a := t) hy
      rw [← List.append_assoc] at hd hq
      refine ⟨?_, ?_, cutAt_local tagLocal_endsName _ hy hc⟩
      · rw [← List.append_assoc, tagLocal_startsWith (by decide) _ u' u hlast]
        exact hd
      · rw [← List.append_assoc, tagLocal_startsWith (by decide) _ u' u hlast]
        exact hq

theorem readAttribute_eq {space s r : Bytes} {a : WrittenAttribute} :
    readAttribute space s = .ok (a, r) ↔
      ∃ t, a.space = space ∧ cutAt endsName s = (a.name, t) ∧ readValue t = .ok (a.value, r) := by
  simp only [readAttribute]
  obtain ⟨name, t, hc⟩ : ∃ name t, cutAt endsName s = (name, t) := ⟨_, _, rfl⟩
  rw [hc]
  cases hv : readValue t with
  | error e =>
      simp only [Except.map, reduceCtorEq, false_iff, not_exists, not_and, Prod.mk.injEq]
      rintro _ - ⟨-, rfl⟩ h
      rw [hv] at h
      cases h
  | ok p =>
      obtain ⟨v, q⟩ := p
      simp only [Except.map, Except.ok.injEq, Prod.mk.injEq]
      constructor
      · rintro ⟨rfl, rfl⟩
        exact ⟨t, rfl, ⟨rfl, rfl⟩, hv⟩
      · rintro ⟨_, hsp, ⟨rfl, rfl⟩, h⟩
        rw [hv] at h
        cases h
        exact ⟨by rw [← hsp], rfl⟩

theorem readAttribute_local {a : WrittenAttribute} {y u : Bytes} (u' : Bytes)
    (hy : y.getLast? = some Byte.greater)
    (h : readAttribute a.space (a.name ++ a.value.write ++ (y ++ u)) = .ok (a, y ++ u)) :
    readAttribute a.space (a.name ++ a.value.write ++ (y ++ u')) = .ok (a, y ++ u') := by
  obtain ⟨t, -, hc, hv⟩ := readAttribute_eq.1 h
  have ht : t = a.value.write ++ (y ++ u) := (readValue_ok hv).symm
  subst ht
  refine readAttribute_eq.2 ⟨a.value.write ++ (y ++ u'), rfl, ?_, readValue_local u' hy hv⟩
  simp only [← List.append_assoc] at hc ⊢
  rw [List.append_assoc a.name, List.append_assoc a.name] at hc ⊢
  exact cutAt_local tagLocal_endsName u' (getLast?_append_ne hy) hc

theorem readAttributes_unfinished {s sp : Bytes} (hc : cutAt startsSolid s = (sp, [])) :
    ∃ e, readAttributes s = .error e := by
  rw [readAttributes.eq_def]
  split
  · exact ⟨_, rfl⟩
  · next h =>
      rw [hc] at h
      cases h

theorem readAttributes_end {s sp rest : Bytes} (hc : cutAt startsSolid s = (sp, rest))
    (he : endsTag rest = true) : readAttributes s = .ok ([], sp, rest) := by
  rw [readAttributes.eq_def]
  split
  · next h =>
      rw [hc] at h
      cases h
      cases he
  · next h =>
      rw [hc] at h
      cases h
      rw [dif_pos he]

theorem readAttributes_next {s sp t : Bytes} (hc : cutAt startsSolid s = (sp, t)) (hne : t ≠ [])
    (he : endsTag t = false) :
    readAttributes s = (readAttribute sp t).bind fun p =>
      (readAttributes p.2).map fun q => (p.1 :: q.1, q.2) := by
  rw [readAttributes.eq_def]
  split
  · next h =>
      rw [hc] at h
      cases h
      exact absurd rfl hne
  · next _ c u h =>
      rw [hc] at h
      cases h
      rw [dif_neg (by simp [he])]
      split
      · next ha =>
          rw [ha]
          rfl
      · next a r ha =>
          have hbind : ((readAttribute sp (c :: u)).bind fun p =>
              (readAttributes p.2).map fun q => (p.1 :: q.1, q.2)) =
              (readAttributes r).map fun q => (a :: q.1, q.2) := by
            rw [ha]
            rfl
          rw [hbind]
          cases readAttributes r <;> rfl

theorem readAttributes_iff {s sp rest : Bytes} {as : List WrittenAttribute} :
    readAttributes s = .ok (as, sp, rest) ↔
      match as with
      | [] => cutAt startsSolid s = (sp, rest) ∧ endsTag rest = true
      | a :: as => ∃ t r, cutAt startsSolid s = (a.space, t) ∧ t ≠ [] ∧ endsTag t = false ∧
          readAttribute a.space t = .ok (a, r) ∧ readAttributes r = .ok (as, sp, rest) := by
  constructor
  · intro h
    obtain ⟨space, t, hc⟩ : ∃ space t, cutAt startsSolid s = (space, t) := ⟨_, _, rfl⟩
    have hne : t ≠ [] := by
      rintro rfl
      obtain ⟨e, herror⟩ := readAttributes_unfinished hc
      rw [h] at herror
      cases herror
    cases he : endsTag t with
    | true =>
        rw [readAttributes_end hc he] at h
        cases h
        exact ⟨hc, he⟩
    | false =>
        rw [readAttributes_next hc hne he] at h
        cases ha : readAttribute space t with
        | error e =>
            rw [ha] at h
            cases h
        | ok p =>
            obtain ⟨a, r⟩ := p
            rw [ha] at h
            change (readAttributes r).map _ = _ at h
            cases hr : readAttributes r with
            | error e =>
                rw [hr] at h
                cases h
            | ok q =>
                obtain ⟨bs, sp', rest'⟩ := q
                rw [hr] at h
                cases h
                obtain ⟨_, hspace, -⟩ := readAttribute_eq.1 ha
                rw [← hspace] at hc ha
                exact ⟨t, r, hc, hne, he, ha, hr⟩
  · intro h
    cases as with
    | nil => exact readAttributes_end h.1 h.2
    | cons a as =>
        obtain ⟨t, r, hc, hne, he, ha, hr⟩ := h
        rw [readAttributes_next hc hne he, ha]
        change (readAttributes r).map _ = _
        rw [hr]
        rfl

theorem readAttributes_local {as : List WrittenAttribute} {sp y u : Bytes} (u' : Bytes)
    (hy : y.getLast? = some Byte.greater)
    (h : readAttributes (as.flatMap WrittenAttribute.write ++ sp ++ (y ++ u)) = .ok (as, sp, y ++ u)) :
    readAttributes (as.flatMap WrittenAttribute.write ++ sp ++ (y ++ u')) =
      .ok (as, sp, y ++ u') := by
  induction as with
  | nil =>
      obtain ⟨hc, he⟩ := readAttributes_iff.1 h
      refine readAttributes_iff.2 ⟨?_, ?_⟩
      · simpa using cutAt_local tagLocal_startsSolid u' hy (by simpa using hc)
      · rw [tagLocal_endsTag _ u' u hy]
        exact he
  | cons a as ih =>
      obtain ⟨t, r, hc, hne, he, ha, hr⟩ := readAttributes_iff.1 h
      have hrest : r = as.flatMap WrittenAttribute.write ++ sp ++ (y ++ u) := by
        have hw := readAttribute_ok ha
        have happ := cutAt_append startsSolid
          ((a :: as).flatMap WrittenAttribute.write ++ sp ++ (y ++ u))
        rw [hc] at happ
        simp only at happ
        rw [← hw] at happ
        simpa using happ
      subst hrest
      -- what follows the blanks before the attribute, with any text after the tag
      let z := as.flatMap WrittenAttribute.write ++ sp ++ y
      have hz : z.getLast? = some Byte.greater := getLast?_append_ne hy
      have hz2 : (a.name ++ a.value.write ++ z).getLast? = some Byte.greater := getLast?_append_ne hz
      have ht : t = a.name ++ a.value.write ++ z ++ u := by
        have hw := readAttribute_ok ha
        simp only [WrittenAttribute.write, List.append_assoc, List.append_cancel_left_eq] at hw
        rw [← hw]
        simp [z]
      subst ht
      refine readAttributes_iff.2 ⟨a.name ++ a.value.write ++ z ++ u', z ++ u', ?_, ?_, ?_, ?_, ?_⟩
      · have := cutAt_local tagLocal_startsSolid (a := a.space) u' hz2 (by
          rw [← hc]
          simp [WrittenAttribute.write, z])
        rw [← this]
        simp [WrittenAttribute.write, z]
      · intro h0
        simp only [List.append_eq_nil_iff] at h0
        simp [h0.1.2] at hz
      · rw [tagLocal_endsTag _ u' u hz2]
        exact he
      · have := readAttribute_local (a := a) u' hz (by
          rw [← List.append_assoc, ha]
          simp [z])
        rw [← this]
        simp
      · have := ih hr
        rw [← this]
        simp [z]

theorem cutAt_startsWith_local {p a r : Bytes} (r' : Bytes)
    (h : cutAt (startsWith p) (a ++ p ++ r) = (a, p ++ r)) :
    cutAt (startsWith p) (a ++ p ++ r') = (a, p ++ r') := by
  rw [List.append_assoc] at h ⊢
  obtain ⟨-, hstop, -⟩ := cutAt_eq_iff.1 h
  refine cutAt_eq_iff.2 ⟨rfl, ?_, .inr (startsWith_iff.2 ⟨r', rfl⟩)⟩
  intro x y hxy hy
  have hlen : p.length ≤ (y ++ p).length := by simp
  have := hstop x y hxy hy
  rw [← List.append_assoc, startsWith_append_of_length hlen] at this ⊢
  exact this

theorem cutAt_startsWith_rest {p s a r : Bytes} (hr : r ≠ [])
    (h : cutAt (startsWith p) s = (a, r)) : ∃ u, r = p ++ u := by
  obtain ⟨-, -, hend⟩ := cutAt_eq_iff.1 h
  exact startsWith_iff.1 (hend.resolve_left hr)

theorem readBody_iff {tag : OpenTag} {s r : Bytes} {i : Item} :
    readBody tag s = .ok (i, r) ↔
      if startsWith [Byte.hash] tag.name = true then
        ∃ body, i = .node (.verbatim tag body) ∧
          cutAt (startsWith (closingTag tag.name)) s = (body, closingTag tag.name ++ r)
      else i = .opened tag ∧ r = s := by
  simp only [readBody]
  split
  · split
    · next hc =>
        simp only [reduceCtorEq, false_iff, not_exists, not_and]
        intro body _ h
        rw [hc] at h
        simp [closingTag] at h
    · next body rest hne hc =>
        obtain ⟨u, rfl⟩ := cutAt_startsWith_rest hne hc
        simp only [hc, Except.ok.injEq, Prod.mk.injEq, List.append_cancel_left_eq]
        rw [List.drop_left]
        constructor
        · rintro ⟨rfl, rfl⟩
          exact ⟨body, rfl, rfl, rfl⟩
        · rintro ⟨_, rfl, rfl, rfl⟩
          exact ⟨rfl, rfl⟩
  · simp only [Except.ok.injEq, Prod.mk.injEq]
    exact and_congr eq_comm eq_comm

theorem readTag_iff {s r : Bytes} {i : Item} :
    readTag s = .ok (i, r) ↔
      ∃ tag t, tag.name ≠ [] ∧ cutAt endsName s = (tag.name, t) ∧
        ((∃ u, readAttributes t = .ok (tag.attributes, tag.space, Byte.greater :: u) ∧
            readBody tag u = .ok (i, r)) ∨
          (i = .node (.selfClosed tag) ∧
            readAttributes t = .ok (tag.attributes, tag.space, Byte.slash :: Byte.greater :: r))) := by
  simp only [readTag]
  split
  · next t hc =>
      simp only [reduceCtorEq, hc, Prod.mk.injEq, false_iff, not_exists, not_and]
      rintro tag _ hne ⟨h, -⟩
      exact absurd h.symm hne
  · next name t hne hc =>
      have hne' : name ≠ [] := hne
      cases ha : readAttributes t with
      | error e =>
          simp only [reduceCtorEq, hc, Prod.mk.injEq, false_iff, not_exists, not_and]
          rintro tag _ - ⟨-, rfl⟩
          simp [ha]
      | ok p =>
          obtain ⟨as, sp, rest⟩ := p
          obtain ⟨-, hend⟩ := readAttributes_ok ha
          simp only [endsTag, Bool.or_eq_true] at hend
          simp only [hc, Prod.mk.injEq]
          by_cases hg : startsWith [Byte.greater] rest = true
          · obtain ⟨u, rfl⟩ := startsWith_iff.1 hg
            rw [if_pos hg]
            constructor
            · intro h
              exact ⟨⟨name, as, sp⟩, t, hne', ⟨rfl, rfl⟩, .inl ⟨u, ha, h⟩⟩
            · rintro ⟨⟨_, as', sp'⟩, _, -, ⟨rfl, rfl⟩, ⟨u', ha', h⟩ | ⟨-, ha'⟩⟩
              · rw [ha] at ha'
                cases ha'
                exact h
              · rw [ha] at ha'
                cases ha'
          · obtain ⟨u, rfl⟩ := startsWith_iff.1 (hend.resolve_left hg)
            rw [if_neg hg]
            constructor
            · intro h
              cases h
              exact ⟨⟨name, as, sp⟩, t, hne', ⟨rfl, rfl⟩, .inr ⟨rfl, ha⟩⟩
            · rintro ⟨⟨_, as', sp'⟩, _, -, ⟨rfl, rfl⟩, ⟨u', ha', h⟩ | ⟨rfl, ha'⟩⟩
              · rw [ha] at ha'
                cases ha'
              · rw [ha] at ha'
                cases ha'
                rfl

theorem readHead_local {tag : OpenTag} {t y u : Bytes} (u' : Bytes)
    (hy : y.getLast? = some Byte.greater) {s : Bytes} (hc : cutAt endsName s = (tag.name, t))
    (ha : readAttributes t = .ok (tag.attributes, tag.space, y ++ u)) :
    ∃ t', cutAt endsName (tag.name ++ t') = (tag.name, t') ∧
      readAttributes t' = .ok (tag.attributes, tag.space, y ++ u') ∧
      Byte.less :: tag.name ++ t' = tag.write ++ y ++ u' := by
  let z := tag.attributes.flatMap WrittenAttribute.write ++ tag.space
  have ht : t = z ++ (y ++ u) := (readAttributes_ok ha).1.symm
  have hs : s = tag.name ++ t := (cutAt_eq_iff.1 hc).1
  refine ⟨z ++ (y ++ u'), ?_, ?_, by simp [OpenTag.write, z]⟩
  · have hz : (z ++ y).getLast? = some Byte.greater := getLast?_append_ne hy
    have := cutAt_local (a := tag.name) (u := u) tagLocal_endsName u' hz (by
      rw [List.append_assoc, ← ht, ← hs]
      exact hc)
    simpa using this
  · exact readAttributes_local u' hy (ht ▸ ha)

theorem readTag_local {i : Item} {s u : Bytes} (u' : Bytes) (h : readTag s = .ok (i, u)) :
    ∃ s', i.write ++ u' = Byte.less :: s' ∧ readTag s' = .ok (i, u') := by
  obtain ⟨tag, t, hne, hc, ⟨v, ha, hb⟩ | ⟨rfl, ha⟩⟩ := readTag_iff.1 h
  · have hgreater : [Byte.greater].getLast? = some Byte.greater := rfl
    rw [readBody_iff] at hb
    split at hb
    · next hhash =>
        obtain ⟨body, rfl, hbody⟩ := hb
        have hv : v = body ++ closingTag tag.name ++ u := by
          rw [List.append_assoc]
          exact (cutAt_eq_iff.1 hbody).1
        subst hv
        obtain ⟨t', hc', ha', hw⟩ :=
          readHead_local (y := [Byte.greater]) (body ++ closingTag tag.name ++ u') hgreater hc ha
        refine ⟨tag.name ++ t', ?_, readTag_iff.2 ⟨tag, t', hne, hc', .inl ⟨_, ha', ?_⟩⟩⟩
        · rw [← List.cons_append, hw]
          simp [Item.write, Node.write]
        · rw [readBody_iff, if_pos hhash]
          exact ⟨body, rfl, cutAt_startsWith_local u' hbody⟩
    · next hhash =>
        obtain ⟨rfl, rfl⟩ := hb
        obtain ⟨t', hc', ha', hw⟩ := readHead_local (y := [Byte.greater]) u' hgreater hc ha
        refine ⟨tag.name ++ t', ?_, readTag_iff.2 ⟨tag, t', hne, hc', .inl ⟨_, ha', ?_⟩⟩⟩
        · rw [← List.cons_append, hw]
          simp [Item.write]
        · rw [readBody_iff, if_neg hhash]
          exact ⟨rfl, rfl⟩
  · obtain ⟨t', hc', ha', hw⟩ := readHead_local (y := [Byte.slash, Byte.greater]) u' rfl hc ha
    refine ⟨tag.name ++ t', ?_, readTag_iff.2 ⟨tag, t', hne, hc', .inr ⟨rfl, ha'⟩⟩⟩
    rw [← List.cons_append, hw]
    simp [Item.write, Node.write]

theorem getLast?_write_of_readTag {i : Item} {s u : Bytes} (h : readTag s = .ok (i, u)) :
    i.write.getLast? = some Byte.greater := by
  obtain ⟨tag, t, -, -, ⟨v, -, hb⟩ | ⟨rfl, -⟩⟩ := readTag_iff.1 h
  · rw [readBody_iff] at hb
    split at hb
    · obtain ⟨body, rfl, -⟩ := hb
      have hw : (Item.node (.verbatim tag body)).write =
          tag.write ++ Byte.greater :: body ++ [Byte.less, Byte.slash] ++ tag.name ++ [Byte.greater] := by
        simp [Item.write, Node.write, closingTag]
      rw [hw]
      exact getLast?_append_ne rfl
    · obtain ⟨rfl, -⟩ := hb
      simp [Item.write]
  · simp [Item.write, Node.write]

theorem readComment_iff {i : Item} {s u : Bytes} :
    readComment s = .ok (i, u) ↔
      ∃ t, i = .node (.comment (t ++ commentEnd)) ∧
        cutAt (startsWith commentEnd) s = (t, commentEnd ++ u) := by
  simp only [readComment]
  split
  · next t hc =>
      simp only [reduceCtorEq, false_iff, not_exists, not_and]
      intro t' _ h
      rw [hc] at h
      simp [commentEnd, ascii] at h
  · next t r hne hc =>
      obtain ⟨v, rfl⟩ := cutAt_startsWith_rest hne hc
      have hd : (commentEnd ++ v).drop 3 = v := rfl
      simp only [hc, hd, Except.ok.injEq, Prod.mk.injEq, List.append_cancel_left_eq]
      constructor
      · rintro ⟨rfl, rfl⟩
        exact ⟨t, rfl, rfl, rfl⟩
      · rintro ⟨_, rfl, rfl, rfl⟩
        exact ⟨rfl, rfl⟩

theorem readItem_cases {i : Item} {s u : Bytes} (h : readItem s = .ok (i, u)) :
    (startsWith commentStart s = true ∧ readComment s = .ok (i, u)) ∨
    (∃ t, s = Byte.less :: t ∧ startsWith commentStart s = false ∧ readTag t = .ok (i, u)) ∨
    (∃ inner, i = .node (.interpolation inner) ∧ s = openDelimiter ++ inner ++ closeDelimiter ++ u ∧
      scanCode .start (inner ++ closeDelimiter ++ u) = .ok (inner, u)) ∨
    (∃ t, i = .node (.text t) ∧ startsMarkup s = false ∧ cutAt startsMarkup s = (t, u)) := by
  simp only [readItem] at h
  split at h
  · next hc => exact .inl ⟨hc, h⟩
  · next hc =>
      split at h
      · next hl =>
          obtain ⟨t, rfl⟩ := startsWith_iff.1 hl
          exact .inr (.inl ⟨t, rfl, by simpa using hc, h⟩)
      · next hl =>
          split at h
          · next hd =>
              obtain ⟨t, rfl⟩ := startsWith_iff.1 hd
              change (readExpression t).map _ = _ at h
              cases he : readExpression t with
              | error e => simp [he, Except.map] at h
              | ok p =>
                  obtain ⟨inner, r⟩ := p
                  simp only [he, Except.map, Except.ok.injEq, Prod.mk.injEq] at h
                  obtain ⟨rfl, rfl⟩ := h
                  have hs := readExpression_eq.1 he
                  have ht := scanCode_ok hs
                  subst ht
                  exact .inr (.inr (.inl ⟨inner, rfl, by simp, hs⟩))
          · next hd =>
              have hm : startsMarkup s = false := by simp [startsMarkup, hl, hd]
              cases h
              exact .inr (.inr (.inr ⟨_, rfl, hm, rfl⟩))

theorem readItem_comment {s : Bytes} (h : startsWith commentStart s = true) :
    readItem s = readComment s := by
  rw [readItem, if_pos h]

theorem readItem_tag {t : Bytes} (h : startsWith commentStart (Byte.less :: t) = false) :
    readItem (Byte.less :: t) = readTag t := by
  have hl : startsWith [Byte.less] (Byte.less :: t) = true := startsWith_iff.2 ⟨t, rfl⟩
  rw [readItem, h, if_neg (by decide), if_pos hl]
  rfl

theorem readItem_interpolation {inner u : Bytes}
    (h : scanCode .start (inner ++ closeDelimiter ++ u) = .ok (inner, u)) :
    readItem (openDelimiter ++ inner ++ closeDelimiter ++ u) = .ok (.node (.interpolation inner), u) := by
  have hd : ∀ t, startsWith openDelimiter (openDelimiter ++ t) = true := fun t =>
    startsWith_iff.2 ⟨t, rfl⟩
  have hn : ∀ t, startsWith commentStart (openDelimiter ++ t) = false := fun _ => rfl
  have hl : ∀ t, startsWith [Byte.less] (openDelimiter ++ t) = false := fun _ => rfl
  rw [List.append_assoc, List.append_assoc, readItem, hn, hl, hd, if_neg (by decide),
    if_neg (by decide), if_pos rfl, ← List.append_assoc inner]
  change (readExpression (inner ++ closeDelimiter ++ u)).map _ = _
  rw [readExpression_eq.2 h]
  rfl

theorem readItem_local {i : Item} {s u : Bytes} (u' : Bytes) (hi : ∀ t, i ≠ .node (.text t))
    (h : readItem s = .ok (i, u)) : readItem (i.write ++ u') = .ok (i, u') := by
  rcases readItem_cases h with ⟨hc, h⟩ | ⟨t, rfl, hn, h⟩ | ⟨inner, rfl, -, h⟩ | ⟨t, rfl, -⟩
  · obtain ⟨t, rfl, hcut⟩ := readComment_iff.1 h
    have hs : s = t ++ commentEnd ++ u := by
      rw [List.append_assoc]
      exact (cutAt_eq_iff.1 hcut).1
    subst hs
    -- a comment is not shorter than what it starts with
    have hlen : commentStart.length ≤ (t ++ commentEnd).length := by
      cases t with
      | nil =>
          have hno : startsWith commentStart ([] ++ commentEnd ++ u) = false := rfl
          rw [hno] at hc
          cases hc
      | cons c t => simp [commentStart, commentEnd, ascii]
    change readItem (t ++ commentEnd ++ u') = _
    rw [startsWith_append_of_length hlen] at hc
    rw [readItem_comment (by rw [startsWith_append_of_length hlen]; exact hc)]
    exact readComment_iff.2 ⟨t, rfl, cutAt_startsWith_local u' hcut⟩
  · have hw := readTag_ok h
    obtain ⟨s', hs', hr⟩ := readTag_local u' h
    rw [hs', readItem_tag ?_, hr]
    rw [← hs', tagLocal_startsWith (by decide) _ u' u (getLast?_write_of_readTag h), hw]
    exact hn
  · exact readItem_interpolation (scanCode_local u' h)
  · exact absurd rfl (hi t)

end MarkupFormat.Written
