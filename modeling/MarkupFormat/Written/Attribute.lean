import MarkupFormat.Bytes.Blank
import MarkupFormat.Written.Fault
import MarkupFormat.Written.Scan

namespace MarkupFormat.Written

open Bytes

def endsName : Bytes → Bool
  | [] => true
  | c :: s => isBlank c || c = Byte.greater || c = Byte.equals
      || startsWith [Byte.slash, Byte.greater] (c :: s)

def endsTag (s : Bytes) : Bool :=
  startsWith [Byte.greater] s || startsWith [Byte.slash, Byte.greater] s

def startsSolid : Bytes → Bool
  | [] => true
  | c :: _ => !isBlank c

def readExpression (s : Bytes) : Except Halt (Bytes × Bytes) :=
  (scanCode .start s).mapError fun m =>
    { fault := .unterminatedInterpolation, left := 0, beyond := if m = .escaped then 1 else 0 }

def readQuoted (s : Bytes) : Except Halt (Bytes × Bytes) :=
  (scanQuoted false s).mapError fun escaped =>
    { fault := .unterminatedString, left := 0, beyond := if escaped then 1 else 0 }

def readAssigned (s : Bytes) : Except Halt (Value × Bytes) :=
  if startsWith openDelimiter s then
    (readExpression (s.drop 2)).map fun (inner, rest) => (.expression inner, rest)
  else if startsWith [Byte.quote] s then
    (readQuoted (s.drop 1)).map fun (body, rest) => (.quoted body, rest)
  else .ok (.word (cutAt endsName s).1, (cutAt endsName s).2)

def readValue : Bytes → Except Halt (Value × Bytes)
  | [] => .ok (.absent, [])
  | c :: s => if c = Byte.equals then readAssigned s else .ok (.absent, c :: s)

def readAttribute (space s : Bytes) : Except Halt (WrittenAttribute × Bytes) :=
  (readValue (cutAt endsName s).2).map fun (value, rest) => (⟨space, (cutAt endsName s).1, value⟩, rest)

theorem mapError_ok {x : Except ε α} {f : ε → ε'} : x.mapError f = .ok a ↔ x = .ok a := by
  cases x with
  | error e => constructor <;> (intro h; cases h)
  | ok b => constructor <;> (intro h; cases h; rfl)

theorem readExpression_ok {s inner rest : Bytes} (h : readExpression s = .ok (inner, rest)) :
    s = inner ++ closeDelimiter ++ rest :=
  scanCode_ok (mapError_ok.1 h)

theorem readQuoted_ok {s body rest : Bytes} (h : readQuoted s = .ok (body, rest)) :
    s = body ++ Byte.quote :: rest :=
  scanQuoted_ok (mapError_ok.1 h)

theorem readAssigned_ok {s rest : Bytes} {v : Value} (h : readAssigned s = .ok (v, rest)) :
    ∃ t, v.write = Byte.equals :: t ∧ t ++ rest = s := by
  simp only [readAssigned] at h
  split at h
  · next hd =>
      obtain ⟨r, rfl⟩ := startsWith_iff.1 hd
      cases hs : readExpression r with
      | error e => simp [openDelimiter, hs, Except.map] at h
      | ok p =>
          obtain ⟨i, t⟩ := p
          simp only [openDelimiter, List.cons_append, List.nil_append, List.drop_succ_cons,
            List.drop_zero, hs, Except.map, Except.ok.injEq, Prod.mk.injEq] at h
          obtain ⟨rfl, rfl⟩ := h
          exact ⟨openDelimiter ++ i ++ closeDelimiter, rfl, by simp [readExpression_ok hs]⟩
  · split at h
    · next hq =>
        obtain ⟨r, rfl⟩ := startsWith_iff.1 hq
        cases hs : readQuoted r with
        | error e => simp [hs, Except.map] at h
        | ok p =>
            obtain ⟨b, t⟩ := p
            simp only [List.cons_append, List.nil_append, List.drop_succ_cons,
              List.drop_zero, hs, Except.map, Except.ok.injEq, Prod.mk.injEq] at h
            obtain ⟨rfl, rfl⟩ := h
            exact ⟨Byte.quote :: b ++ [Byte.quote], rfl, by simp [readQuoted_ok hs]⟩
    · cases h
      exact ⟨(cutAt endsName s).1, rfl, cutAt_append endsName s⟩

theorem readValue_ok {s rest : Bytes} {v : Value} (h : readValue s = .ok (v, rest)) :
    v.write ++ rest = s := by
  cases s with
  | nil => cases h; rfl
  | cons c s =>
      simp only [readValue] at h
      split at h
      · next hc =>
          obtain ⟨t, hw, ht⟩ := readAssigned_ok h
          rw [hw, hc, List.cons_append, ht]
      · cases h; rfl

theorem readAttribute_ok {space s rest : Bytes} {a : WrittenAttribute}
    (h : readAttribute space s = .ok (a, rest)) : a.write ++ rest = space ++ s := by
  simp only [readAttribute] at h
  cases hv : readValue (cutAt endsName s).2 with
  | error e => simp [hv, Except.map] at h
  | ok p =>
      obtain ⟨v, r⟩ := p
      simp only [hv, Except.map, Except.ok.injEq, Prod.mk.injEq] at h
      obtain ⟨rfl, rfl⟩ := h
      simp only [WrittenAttribute.write, List.append_assoc, readValue_ok hv, cutAt_append]

theorem readAttribute_length {space s rest : Bytes} {a : WrittenAttribute}
    (hs : s ≠ []) (hsolid : startsSolid s = true) (hend : endsTag s = false)
    (h : readAttribute space s = .ok (a, rest)) : rest.length < s.length := by
  cases s with
  | nil => exact absurd rfl hs
  | cons c s =>
      simp only [readAttribute] at h
      cases hv : readValue (cutAt endsName (c :: s)).2 with
      | error e => simp [hv, Except.map] at h
      | ok p =>
          obtain ⟨v, r⟩ := p
          simp only [hv, Except.map, Except.ok.injEq, Prod.mk.injEq] at h
          obtain ⟨-, rfl⟩ := h
          by_cases hn : endsName (c :: s) = true
          · have hc : c = Byte.equals := by
              simp only [endsName, startsSolid, endsTag, Bool.or_eq_true, Bool.or_eq_false_iff,
                Bool.not_eq_true', decide_eq_true_eq] at hn hsolid hend
              rcases hn with ((hb | hg) | he) | hc
              · simp [hsolid] at hb
              · subst hg
                have : startsWith [Byte.greater] (Byte.greater :: s) = true :=
                  startsWith_iff.2 ⟨s, rfl⟩
                simp [hend.1] at this
              · exact he
              · simp [hend.2] at hc
            subst hc
            simp only [cutAt, hn, if_true, readValue] at hv
            obtain ⟨t, -, ht⟩ := readAssigned_ok hv
            have hl := congrArg List.length ht
            simp only [List.length_append, List.length_cons] at hl ⊢
            omega
          · have hl := congrArg List.length (readValue_ok hv)
            have hc := cutAt_length_le endsName s
            simp only [cutAt, hn, Bool.false_eq_true, if_false, List.length_append,
              List.length_cons] at hl ⊢
            omega

theorem attribute_length {s space t r : Bytes} {c : UInt8} {a : WrittenAttribute}
    (hs : cutAt startsSolid s = (space, c :: t)) (hend : ¬endsTag (c :: t) = true)
    (ha : readAttribute space (c :: t) = .ok (a, r)) : r.length < s.length := by
  have h1 : (cutAt startsSolid s).2 = c :: t := congrArg Prod.snd hs
  have h2 := cutAt_length_le startsSolid s
  have h3 : startsSolid (c :: t) = true := h1 ▸ cutAt_stop startsSolid s (by rw [h1]; simp)
  have h4 := readAttribute_length (by simp) h3 (by simpa using hend) ha
  rw [h1] at h2
  omega

def readAttributes (s : Bytes) : Except Halt (List WrittenAttribute × Bytes × Bytes) :=
  match hs : cutAt startsSolid s with
  | (_, []) => .error { fault := .unterminatedTag, left := 0 }
  | (space, c :: t) =>
      if he : endsTag (c :: t) then .ok ([], space, c :: t)
      else
        match ha : readAttribute space (c :: t) with
        | .error e => .error e
        | .ok (a, r) =>
            have : r.length < s.length := attribute_length hs he ha
            match readAttributes r with
            | .error e => .error e
            | .ok (as, sp, rest) => .ok (a :: as, sp, rest)
termination_by s.length

theorem readAttributes_ok {s sp rest : Bytes} {as : List WrittenAttribute}
    (h : readAttributes s = .ok (as, sp, rest)) :
    as.flatMap WrittenAttribute.write ++ sp ++ rest = s ∧ endsTag rest = true := by
  fun_induction readAttributes s generalizing as sp rest with
  | case1 => simp at h
  | case2 s space c t hs he =>
      cases h
      refine ⟨?_, he⟩
      have := cutAt_append startsSolid s
      simpa [hs] using this
  | case3 => simp at h
  | case4 => simp at h
  | case5 s space c t hs he a r ha hlt as' sp' rest' hr ih =>
      cases h
      obtain ⟨h1, h2⟩ := ih hr
      refine ⟨?_, h2⟩
      have hw := readAttribute_ok ha
      have := cutAt_append startsSolid s
      rw [hs] at this
      rw [← this, ← hw, ← h1]
      simp

end MarkupFormat.Written
