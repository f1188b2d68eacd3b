import MarkupFormat.Written.Attribute

namespace MarkupFormat.Written

open Bytes

inductive Item where
  | node (n : Node)
  | opened (tag : OpenTag)
  deriving Repr

def Item.write : Item → Bytes
  | .node n => n.write
  | .opened tag => tag.write ++ [Byte.greater]

def readBody (tag : OpenTag) (s : Bytes) : Except Halt (Item × Bytes) :=
  if startsWith [Byte.hash] tag.name then
    match cutAt (startsWith (closingTag tag.name)) s with
    | (_, []) => .error { fault := .missingClosing tag.name, left := s.length }
    | (body, rest) => .ok (.node (.verbatim tag body), rest.drop (closingTag tag.name).length)
  else .ok (.opened tag, s)

def readTag (s : Bytes) : Except Halt (Item × Bytes) :=
  match cutAt endsName s with
  | ([], _) => .error { fault := .missingName, left := s.length }
  | (name, t) =>
      match readAttributes t with
      | .error e => .error e
      | .ok (attributes, space, rest) =>
          if startsWith [Byte.greater] rest then readBody ⟨name, attributes, space⟩ (rest.drop 1)
          else .ok (.node (.selfClosed ⟨name, attributes, space⟩), rest.drop 2)

def startsMarkup (s : Bytes) : Bool :=
  startsWith [Byte.less] s || startsWith openDelimiter s

def commentStart : Bytes :=
  ascii "<!--"

def commentEnd : Bytes :=
  ascii "-->"

def readComment (s : Bytes) : Except Halt (Item × Bytes) :=
  match cutAt (startsWith commentEnd) s with
  | (_, []) => .error { fault := .unterminatedComment, left := s.length }
  | (t, rest) => .ok (.node (.comment (t ++ commentEnd)), rest.drop 3)

def readItem (s : Bytes) : Except Halt (Item × Bytes) :=
  if startsWith commentStart s then readComment s
  else if startsWith [Byte.less] s then readTag (s.drop 1)
  else if startsWith openDelimiter s then
    (readExpression (s.drop 2)).map fun (inner, rest) => (.node (.interpolation inner), rest)
  else .ok (.node (.text (cutAt startsMarkup s).1), (cutAt startsMarkup s).2)

theorem readBody_ok {tag : OpenTag} {s rest : Bytes} {i : Item}
    (h : readBody tag s = .ok (i, rest)) : i.write ++ rest = tag.write ++ Byte.greater :: s := by
  simp only [readBody] at h
  split at h
  · split at h
    · simp at h
    · next body t hne hc =>
        cases h
        have happ := cutAt_append (startsWith (closingTag tag.name)) s
        have hstop : startsWith (closingTag tag.name) t = true := by
          have := cutAt_stop (startsWith (closingTag tag.name)) s
          rw [hc] at this
          exact this hne
        obtain ⟨r, rfl⟩ := startsWith_iff.1 hstop
        rw [hc] at happ
        simp [Item.write, Node.write, ← happ]
  · cases h
    simp [Item.write]

theorem readTag_ok {s rest : Bytes} {i : Item} (h : readTag s = .ok (i, rest)) :
    i.write ++ rest = Byte.less :: s := by
  simp only [readTag] at h
  split at h
  · simp at h
  · next name t _ hc =>
      have happ := cutAt_append endsName s
      rw [hc] at happ
      simp only at happ
      cases ha : readAttributes t with
      | error e => simp [ha] at h
      | ok p =>
          obtain ⟨as, sp, r⟩ := p
          obtain ⟨hw, hend⟩ := readAttributes_ok ha
          simp only [ha] at h
          split at h
          · next hg =>
              obtain ⟨u, rfl⟩ := startsWith_iff.1 hg
              rw [readBody_ok h, ← happ, ← hw]
              simp [OpenTag.write]
          · next hg =>
              simp only [endsTag, hg, Bool.false_or] at hend
              obtain ⟨u, rfl⟩ := startsWith_iff.1 hend
              cases h
              rw [← happ, ← hw]
              simp [Item.write, Node.write, OpenTag.write]

theorem readComment_ok {s rest : Bytes} {i : Item} (h : readComment s = .ok (i, rest)) :
    i.write ++ rest = s := by
  simp only [readComment] at h
  split at h
  · simp at h
  · next t r hne hc =>
      cases h
      have happ := cutAt_append (startsWith commentEnd) s
      have hstop : startsWith commentEnd r = true := by
        have := cutAt_stop (startsWith commentEnd) s
        rw [hc] at this
        exact this hne
      obtain ⟨u, rfl⟩ := startsWith_iff.1 hstop
      rw [hc] at happ
      simpa [Item.write, Node.write, commentEnd, ascii] using happ

theorem readItem_ok {s rest : Bytes} {i : Item} (h : readItem s = .ok (i, rest)) :
    i.write ++ rest = s := by
  simp only [readItem] at h
  split at h
  · exact readComment_ok h
  · split at h
    · next hl =>
        obtain ⟨u, rfl⟩ := startsWith_iff.1 hl
        exact readTag_ok h
    · split at h
      · next hd =>
          obtain ⟨u, rfl⟩ := startsWith_iff.1 hd
          simp only [openDelimiter, List.cons_append, List.nil_append, List.drop_succ_cons,
            List.drop_zero] at h
          cases he : readExpression u with
          | error e => simp [he, Except.map] at h
          | ok p =>
              obtain ⟨inner, r⟩ := p
              simp only [he, Except.map, Except.ok.injEq, Prod.mk.injEq] at h
              obtain ⟨rfl, rfl⟩ := h
              simp [Item.write, Node.write, readExpression_ok he]
      · cases h
        exact cutAt_append startsMarkup s

theorem readBody_length {tag : OpenTag} {s rest : Bytes} {i : Item}
    (h : readBody tag s = .ok (i, rest)) : rest.length ≤ s.length := by
  simp only [readBody] at h
  split at h
  · have := cutAt_length_le (startsWith (closingTag tag.name)) s
    split at h
    · simp at h
    · next hc =>
        cases h
        simp only [hc, List.length_drop] at this ⊢
        omega
  · cases h
    exact Nat.le_refl _

theorem readTag_length {s rest : Bytes} {i : Item} (h : readTag s = .ok (i, rest)) :
    rest.length ≤ s.length := by
  have hcut := cutAt_length_le endsName s
  simp only [readTag] at h
  split at h
  · simp at h
  · next name t _ hc =>
      simp only [hc] at hcut
      cases ha : readAttributes t with
      | error e => simp [ha] at h
      | ok p =>
          obtain ⟨as, sp, r⟩ := p
          have hw := congrArg List.length (readAttributes_ok ha).1
          simp only [List.length_append] at hw
          simp only [ha] at h
          split at h
          · have := readBody_length h
            simp only [List.length_drop] at this
            omega
          · cases h
            simp only [List.length_drop]
            omega

theorem readComment_length {s rest : Bytes} {i : Item} (h : readComment s = .ok (i, rest)) :
    rest.length < s.length := by
  have hcut := cutAt_length_le (startsWith commentEnd) s
  simp only [readComment] at h
  split at h
  · simp at h
  · next t r hne hc =>
      cases h
      have := List.length_pos_iff.2 hne
      simp only [hc, List.length_drop] at hcut ⊢
      omega

theorem readItem_length {c : UInt8} {s rest : Bytes} {i : Item}
    (h : readItem (c :: s) = .ok (i, rest)) : rest.length < (c :: s).length := by
  simp only [readItem] at h
  split at h
  · exact readComment_length h
  · split at h
    · have := readTag_length h
      simp only [List.drop_succ_cons, List.drop_zero, List.length_cons] at this ⊢
      omega
    · next hl =>
        split at h
        · cases he : readExpression ((c :: s).drop 2) with
          | error e => simp only [he] at h; simp [Except.map] at h
          | ok p =>
              obtain ⟨inner, r⟩ := p
              simp only [he, Except.map, Except.ok.injEq, Prod.mk.injEq] at h
              obtain ⟨-, rfl⟩ := h
              have := congrArg List.length (readExpression_ok he)
              simp only [List.length_drop, List.length_append, List.length_cons] at this ⊢
              omega
        · next hd =>
            cases h
            have hm : startsMarkup (c :: s) = false := by simp [startsMarkup, hl, hd]
            have := cutAt_length_le startsMarkup s
            simp only [cutAt, hm, List.length_cons]
            simp only [Bool.false_eq_true, if_false]
            omega

end MarkupFormat.Written
