import MarkupFormat.Proofs.Locality

namespace MarkupFormat.Written

open Bytes

structure Item.Legal (i : Item) : Prop where
  read : readItem i.write = .ok (i, [])
  opens : startsWith [Byte.less, Byte.slash] i.write = false
  solid : ∀ t, i ≠ .node (.text t)

mutual
def Node.Legal (after : Bytes) : Node → Prop
  | .text t => t ≠ [] ∧ cutAt startsMarkup (t ++ after) = (t, after)
  | .element tag children =>
      Item.Legal (.opened tag) ∧ LegalAll (closingTag tag.name ++ after) children
  | .comment t => Item.Legal (.node (.comment t))
  | .interpolation inner => Item.Legal (.node (.interpolation inner))
  | .selfClosed tag => Item.Legal (.node (.selfClosed tag))
  | .verbatim tag body => Item.Legal (.node (.verbatim tag body))

def LegalAll (after : Bytes) : List Node → Prop
  | [] => True
  | n :: ns => n.Legal (writeAll ns ++ after) ∧ LegalAll after ns
end

theorem startsMarkup_write {i : Item} {s u : Bytes} (hi : ∀ t, i ≠ .node (.text t))
    (h : readItem s = .ok (i, u)) : startsMarkup s = true := by
  rcases readItem_cases h with ⟨hc, -⟩ | ⟨t, rfl, -, -⟩ | ⟨inner, -, rfl, -⟩ | ⟨t, rfl, -⟩
  · obtain ⟨r, rfl⟩ := startsWith_iff.1 hc
    rfl
  · rfl
  · rfl
  · exact absurd rfl (hi t)

theorem Item.Legal.ne_nil {i : Item} (h : i.Legal) : i.write ≠ [] := by
  intro h0
  have := startsMarkup_write h.solid h.read
  rw [h0] at this
  cases this

theorem Item.Legal.startsMarkup {i : Item} (h : i.Legal) (u : Bytes) :
    startsMarkup (i.write ++ u) = true :=
  startsMarkup_write h.solid (readItem_local u h.solid h.read)

theorem opens_local {i : Item} {s u v : Bytes} (u' : Bytes) (hi : ∀ t, i ≠ .node (.text t))
    (h : readItem s = .ok (i, u)) :
    startsWith [Byte.less, Byte.slash] (i.write ++ v) =
      startsWith [Byte.less, Byte.slash] (i.write ++ u') := by
  rcases readItem_cases h with ⟨-, h⟩ | ⟨t, -, -, h⟩ | ⟨inner, rfl, -, -⟩ | ⟨t, rfl, -⟩
  · obtain ⟨t, rfl, -⟩ := readComment_iff.1 h
    have hlen : [Byte.less, Byte.slash].length ≤ (Item.node (.comment (t ++ commentEnd))).write.length := by
      simp [Item.write, Node.write, commentEnd, ascii]
    rw [startsWith_append_of_length hlen, startsWith_append_of_length hlen]
  · exact tagLocal_startsWith (by decide) _ v u' (getLast?_write_of_readTag h)
  · rfl
  · exact absurd rfl (hi t)

theorem Item.Legal.opens_append {i : Item} (h : i.Legal) (u : Bytes) :
    startsWith [Byte.less, Byte.slash] (i.write ++ u) = false := by
  rw [opens_local [] h.solid h.read, List.append_nil]
  exact h.opens

section Steps

variable {stack : List Frame} {done : List Node} {s r : Bytes}

theorem readNodes_node {n : Node} (hs : s ≠ [])
    (ho : startsWith [Byte.less, Byte.slash] s = false) (h : readItem s = .ok (.node n, r)) :
    readNodes stack done s = readNodes stack (n :: done) r := by
  cases s with
  | nil => exact absurd rfl hs
  | cons c s =>
      rw [readNodes.eq_def]
      simp only [ho, Bool.false_eq_true, if_false]
      split
      · next e he =>
          rw [h] at he
          cases he
      · next m r' he =>
          rw [h] at he
          cases he
          rfl
      · next tag r' he =>
          rw [h] at he
          cases he

theorem readNodes_opened {tag : OpenTag} (hs : s ≠ [])
    (ho : startsWith [Byte.less, Byte.slash] s = false) (h : readItem s = .ok (.opened tag, r)) :
    readNodes stack done s = readNodes (⟨tag, done⟩ :: stack) [] r := by
  cases s with
  | nil => exact absurd rfl hs
  | cons c s =>
      rw [readNodes.eq_def]
      simp only [ho, Bool.false_eq_true, if_false]
      split
      · next e he =>
          rw [h] at he
          cases he
      · next m r' he =>
          rw [h] at he
          cases he
      · next tag' r' he =>
          rw [h] at he
          cases he
          rfl

theorem readNodes_error {e : Halt} (hs : s ≠ [])
    (ho : startsWith [Byte.less, Byte.slash] s = false) (h : readItem s = .error e) :
    readNodes stack done s = .error e := by
  cases s with
  | nil => exact absurd rfl hs
  | cons c s =>
      rw [readNodes.eq_def]
      simp only [ho, Bool.false_eq_true, if_false]
      split
      · next e' he =>
          rw [h] at he
          cases he
          rfl
      · next m r' he =>
          rw [h] at he
          cases he
      · next tag' r' he =>
          rw [h] at he
          cases he

theorem readNodes_closing (f : Frame) (u : Bytes) :
    readNodes (f :: stack) done (closingTag f.tag.name ++ u) = readNodes stack (f.close done) u := by
  have ho : startsWith [Byte.less, Byte.slash] (closingTag f.tag.name ++ u) = true :=
    startsWith_iff.2 ⟨_, by simp [closingTag]; rfl⟩
  have hc : startsWith (closingTag f.tag.name) (closingTag f.tag.name ++ u) = true :=
    startsWith_iff.2 ⟨u, rfl⟩
  have hw : closingTag f.tag.name ++ u =
      Byte.less :: (Byte.slash :: f.tag.name ++ [Byte.greater] ++ u) := by
    simp [closingTag]
  rw [hw] at ho hc ⊢
  rw [readNodes.eq_def]
  simp only [ho, hc, if_true]
  congr 1
  simp

theorem closing_of_readNodes {t : List Node} (ho : startsWith [Byte.less, Byte.slash] s = true)
    (h : readNodes stack done s = .ok t) :
    ∃ f fs u, stack = f :: fs ∧ s = closingTag f.tag.name ++ u ∧
      readNodes fs (f.close done) u = .ok t := by
  cases s with
  | nil => cases ho
  | cons c s =>
      have h' := h
      rw [readNodes.eq_def] at h
      simp only [ho, if_true] at h
      split at h
      · cases h
      · next f fs =>
          split at h
          · next hc =>
              obtain ⟨u, hu⟩ := startsWith_iff.1 hc
              rw [hu, readNodes_closing] at h'
              exact ⟨f, fs, u, rfl, hu, h'⟩
          · cases h

end Steps

theorem cutAt_self {stop : Bytes → Bool} {t r : Bytes} (ht : t ≠ [])
    (h : cutAt stop (t ++ r) = (t, r)) : stop (t ++ r) = false := by
  obtain ⟨-, hstop, -⟩ := cutAt_eq_iff.1 h
  exact hstop [] t rfl ht

theorem readItem_text {t r : Bytes} (ht : t ≠ []) (h : cutAt startsMarkup (t ++ r) = (t, r)) :
    readItem (t ++ r) = .ok (.node (.text t), r) := by
  have hm := cutAt_self ht h
  simp only [startsMarkup, Bool.or_eq_false_iff] at hm
  have hc : startsWith commentStart (t ++ r) = false := by
    rw [Bool.eq_false_iff]
    intro hc
    obtain ⟨u, hu⟩ := startsWith_iff.1 hc
    rw [hu] at hm
    cases hm.1
  rw [readItem, hc, hm.1, hm.2, if_neg (by decide), if_neg (by decide), if_neg (by decide), h]

theorem startsWith_closing {t r : Bytes} (h : startsMarkup (t ++ r) = false) :
    startsWith [Byte.less, Byte.slash] (t ++ r) = false := by
  rw [Bool.eq_false_iff]
  intro hc
  obtain ⟨u, hu⟩ := startsWith_iff.1 hc
  rw [hu] at h
  cases h

theorem Item.Legal.readNodes_node {n : Node} (h : Item.Legal (.node n)) (stack : List Frame)
    (done : List Node) (r : Bytes) :
    readNodes stack done (n.write ++ r) = readNodes stack (n :: done) r := by
  refine Written.readNodes_node ?_ (h.opens_append r) (readItem_local r h.solid h.read)
  intro h0
  exact h.ne_nil (List.append_eq_nil_iff.1 h0).1

mutual
theorem Node.Legal.readNodes {n : Node} {r : Bytes} (h : n.Legal r) (stack : List Frame)
    (done : List Node) : readNodes stack done (n.write ++ r) = readNodes stack (n :: done) r := by
  cases n with
  | text t =>
      obtain ⟨ht, hc⟩ := h
      refine readNodes_node ?_ (startsWith_closing (cutAt_self ht hc)) (readItem_text ht hc)
      intro h0
      exact ht (List.append_eq_nil_iff.1 h0).1
  | comment t => exact Item.Legal.readNodes_node h stack done r
  | interpolation inner => exact Item.Legal.readNodes_node h stack done r
  | selfClosed tag => exact Item.Legal.readNodes_node h stack done r
  | verbatim tag body => exact Item.Legal.readNodes_node h stack done r
  | element tag children =>
      obtain ⟨ht, hc⟩ := h
      let u := writeAll children ++ (closingTag tag.name ++ r)
      have hw : (Node.element tag children).write ++ r = (Item.opened tag).write ++ u := by
        simp [Node.write, Item.write, u]
      have hne : (Item.opened tag).write ++ u ≠ [] := by
        intro h0
        exact ht.ne_nil (List.append_eq_nil_iff.1 h0).1
      rw [hw, readNodes_opened hne (ht.opens_append u) (readItem_local u ht.solid ht.read)]
      rw [LegalAll.readNodes hc, readNodes_closing ⟨tag, done⟩]
      simp [Frame.close]

theorem LegalAll.readNodes {ns : List Node} {r : Bytes} (h : LegalAll r ns) (stack : List Frame)
    (done : List Node) :
    readNodes stack done (writeAll ns ++ r) = readNodes stack (ns.reverse ++ done) r := by
  cases ns with
  | nil => rfl
  | cons n ns =>
      obtain ⟨hn, hns⟩ := h
      rw [writeAll, List.append_assoc, Node.Legal.readNodes hn, LegalAll.readNodes hns]
      simp
end

theorem Item.legal_of_readItem {i : Item} {s r : Bytes} (hi : ∀ t, i ≠ .node (.text t))
    (ho : startsWith [Byte.less, Byte.slash] s = false) (h : readItem s = .ok (i, r)) :
    i.Legal where
  read := by simpa using readItem_local [] hi h
  opens := by
    have := opens_local (v := []) r hi h
    rw [List.append_nil, readItem_ok h] at this
    rw [this]
    exact ho
  solid := hi

theorem Node.legal_of_readItem {n : Node} {s r : Bytes} (hs : s ≠ [])
    (ho : startsWith [Byte.less, Byte.slash] s = false) (h : readItem s = .ok (.node n, r)) :
    n.Legal r := by
  have hitem : (∀ t, n ≠ .text t) → Item.Legal (.node n) := fun hn =>
    Item.legal_of_readItem (fun t ht => hn t (Item.node.inj ht)) ho h
  rcases readItem_cases h with ⟨-, hr⟩ | ⟨u, -, -, hr⟩ | ⟨inner, hr, -⟩ | ⟨t, hr, hm, hc⟩
  · obtain ⟨t, ht, -⟩ := readComment_iff.1 hr
    cases ht
    exact hitem (by simp)
  · obtain ⟨tag, -, -, -, ⟨v, -, hb⟩ | ⟨ht, -⟩⟩ := readTag_iff.1 hr
    · rw [readBody_iff] at hb
      split at hb
      · obtain ⟨body, ht, -⟩ := hb
        cases ht
        exact hitem (by simp)
      · cases hb.1
    · cases ht
      exact hitem (by simp)
  · cases hr
    exact hitem (by simp)
  · cases hr
    refine ⟨?_, by rw [(cutAt_eq_iff.1 hc).1] at hc; exact hc⟩
    rintro rfl
    cases s with
    | nil => exact hs rfl
    | cons c s => simp [cutAt, hm] at hc

def Resumes (t : List Node) (done : List Node) (s : Bytes) : List Frame → Prop
  | [] => ∃ ns, t = done.reverse ++ ns ∧ s = writeAll ns ∧ LegalAll [] ns
  | f :: fs => ∃ ns u, s = writeAll ns ++ (closingTag f.tag.name ++ u) ∧
      LegalAll (closingTag f.tag.name ++ u) ns ∧
      readNodes fs (f.close (ns.reverse ++ done)) u = .ok t

theorem Resumes.cons {t done : List Node} {n : Node} {r : Bytes} {stack : List Frame}
    (h : Resumes t (n :: done) r stack) (hn : n.Legal r) : Resumes t done (n.write ++ r) stack := by
  cases stack with
  | nil =>
      obtain ⟨ns, rfl, rfl, hns⟩ := h
      exact ⟨n :: ns, by simp, rfl, ⟨by simpa using hn, hns⟩⟩
  | cons f fs =>
      obtain ⟨ns, u, rfl, hns, hr⟩ := h
      exact ⟨n :: ns, u, by simp [writeAll], ⟨hn, hns⟩, by simpa using hr⟩

theorem resumes_of_readNodes (k : Nat) : ∀ {stack : List Frame} {done t : List Node} {s : Bytes},
    s.length < k → readNodes stack done s = .ok t → Resumes t done s stack := by
  -- `k` bounds the text that is left: an element is gone through twice, for its children and for
  -- what stands after it, and both are shorter
  induction k with
  | zero =>
      intro _ _ _ s hk
      exact absurd hk (Nat.not_lt_zero _)
  | succ k ih =>
      intro stack done t s hk h
      cases hs : s with
      | nil =>
          subst hs
          cases stack with
          | nil =>
              rw [readNodes.eq_def] at h
              cases h
              exact ⟨[], by simp, rfl, trivial⟩
          | cons f fs =>
              rw [readNodes.eq_def] at h
              cases h
      | cons c s' =>
          rw [← hs]
          have hne : s ≠ [] := by simp [hs]
          cases ho : startsWith [Byte.less, Byte.slash] s with
          | true =>
              obtain ⟨f, fs, u, rfl, rfl, hr⟩ := closing_of_readNodes ho h
              exact ⟨[], u, rfl, trivial, hr⟩
          | false =>
              cases hi : readItem s with
              | error e =>
                  rw [readNodes_error hne ho hi] at h
                  cases h
              | ok p =>
                  obtain ⟨i, r⟩ := p
                  have hlen : r.length < s.length := by
                    rw [hs] at hi ⊢
                    exact readItem_length hi
                  have hw := readItem_ok hi
                  cases i with
                  | node n =>
                      rw [readNodes_node hne ho hi] at h
                      rw [← hw]
                      exact (ih (by omega) h).cons (Node.legal_of_readItem hne ho hi)
                  | opened tag =>
                      rw [readNodes_opened hne ho hi] at h
                      obtain ⟨children, u, rfl, hc, hr⟩ := ih (by omega) h
                      have htag := Item.legal_of_readItem (by simp) ho hi
                      have hn : (Node.element tag children).Legal u := ⟨htag, hc⟩
                      have := (ih (by simp at hlen ⊢; omega) hr)
                      simp only [Frame.close, List.append_nil, List.reverse_reverse] at this
                      rw [← hw]
                      simpa [Node.write, Item.write] using this.cons hn

theorem read_iff {s : Bytes} {ns : List Node} :
    read s = .ok ns ↔ writeAll ns = s ∧ LegalAll [] ns := by
  constructor
  · intro h
    obtain ⟨ms, rfl, rfl, hms⟩ := resumes_of_readNodes _ (Nat.lt_succ_self _) (mapError_ok.1 h)
    exact ⟨rfl, hms⟩
  · rintro ⟨rfl, h⟩
    refine mapError_ok.2 ?_
    have := h.readNodes [] []
    rw [List.append_nil, List.append_nil] at this
    rw [this, readNodes.eq_def]
    simp

theorem startsMarkup_cons {c : UInt8} {s : Bytes} :
    startsMarkup (c :: s) = true ↔
      c = Byte.less ∨ (c = Byte.openBrace ∧ s.head? = some Byte.openBrace) := by
  cases s with
  | nil =>
      simp [startsMarkup, startsWith, openDelimiter, List.isPrefixOf, eq_comm (a := Byte.less)]
  | cons d s =>
      simp [startsMarkup, startsWith, openDelimiter, List.isPrefixOf, eq_comm (a := Byte.less),
        eq_comm (a := Byte.openBrace)]

theorem cutAt_startsMarkup_iff {t r : Bytes} :
    cutAt startsMarkup (t ++ r) = (t, r) ↔
      Byte.less ∉ t ∧ ¬openDelimiter <:+: t ∧
        (t.getLast? = some Byte.openBrace → r.head? ≠ some Byte.openBrace) ∧
        (r = [] ∨ startsMarkup r = true) := by
  rw [cutAt_eq_iff]
  constructor
  · rintro ⟨-, hstop, hend⟩
    refine ⟨?_, ?_, ?_, hend⟩
    · intro hl
      obtain ⟨x, y, rfl⟩ := List.append_of_mem hl
      have := hstop x (Byte.less :: y) rfl (by simp)
      rw [List.cons_append, ← Bool.not_eq_true, startsMarkup_cons] at this
      exact this (.inl rfl)
    · rintro ⟨x, y, rfl⟩
      have := hstop x (openDelimiter ++ y) (by simp) (by simp [openDelimiter])
      exact absurd this (by simp [openDelimiter, startsMarkup, startsWith, List.isPrefixOf])
    · intro hl hr
      obtain ⟨x, rfl⟩ := List.getLast?_eq_some_iff.1 hl
      have := hstop x [Byte.openBrace] rfl (by simp)
      rw [List.cons_append, ← Bool.not_eq_true, startsMarkup_cons] at this
      exact this (.inr ⟨rfl, hr⟩)
  · rintro ⟨hl, hd, hlast, hend⟩
    refine ⟨rfl, ?_, hend⟩
    rintro x y rfl hy
    cases y with
    | nil => exact absurd rfl hy
    | cons c y =>
        rw [List.cons_append, ← Bool.not_eq_true, startsMarkup_cons]
        rintro (rfl | ⟨rfl, hh⟩)
        · exact hl (by simp)
        · cases y with
          | nil => exact hlast (by simp) hh
          | cons d y =>
              have hd' : d = Byte.openBrace := by simpa using hh
              exact hd ⟨x, y, by simp [openDelimiter, hd']⟩

theorem Node.Legal.ne_nil {n : Node} {after : Bytes} (h : n.Legal after) : n.write ≠ [] := by
  cases n with
  | text t => exact h.1
  | comment t => exact Item.Legal.ne_nil h
  | interpolation inner => exact Item.Legal.ne_nil h
  | selfClosed tag => exact Item.Legal.ne_nil h
  | verbatim tag body => exact Item.Legal.ne_nil h
  | element tag children => simp [Node.write, OpenTag.write]

theorem not_text_after_text {t u after : Bytes} {ns : List Node} :
    ¬LegalAll after (.text t :: .text u :: ns) := by
  rintro ⟨⟨-, ht⟩, ⟨hu, hcut⟩, -⟩
  have hstops := (cutAt_eq_iff.1 ht).2.2
  have hgoes := cutAt_self hu hcut
  simp only [writeAll, Node.write, List.append_assoc] at hstops
  rcases hstops with hnil | hmark
  · exact hu (List.append_eq_nil_iff.1 hnil).1
  · rw [hgoes] at hmark
    cases hmark

structure Alike (r r' : Bytes) : Prop where
  brace : r.head? = some Byte.openBrace ↔ r'.head? = some Byte.openBrace
  markup : (r = [] ∨ startsMarkup r = true) ↔ (r' = [] ∨ startsMarkup r' = true)

theorem Alike.append {r r' : Bytes} (h : Alike r r') (x : Bytes) : Alike (x ++ r) (x ++ r') := by
  induction x with
  | nil => exact h
  | cons c x ih =>
      refine ⟨by simp, ?_⟩
      simp only [List.cons_append, reduceCtorEq, false_or, startsMarkup_cons, ih.brace]

theorem alike_of_less {r r' : Bytes} (hr : r = [] ∨ r.head? = some Byte.less)
    (hr' : r' = [] ∨ r'.head? = some Byte.less) : Alike r r' := by
  have key : ∀ s : Bytes, s = [] ∨ s.head? = some Byte.less →
      s.head? ≠ some Byte.openBrace ∧ (s = [] ∨ startsMarkup s = true) := by
    rintro s (rfl | hs)
    · exact ⟨by simp, .inl rfl⟩
    · cases s with
      | nil => cases hs
      | cons c s =>
          have hc : c = Byte.less := by simpa using hs
          subst hc
          exact ⟨by rw [hs]; decide, .inr (startsMarkup_cons.2 (.inl rfl))⟩
  obtain ⟨h1, h2⟩ := key r hr
  obtain ⟨h3, h4⟩ := key r' hr'
  exact ⟨by simp [h1, h3], by simp [h2, h4]⟩

mutual
theorem Node.Legal.alike {n : Node} {r r' : Bytes} (h : n.Legal r) (hr : Alike r r') :
    n.Legal r' := by
  cases n with
  | text t =>
      obtain ⟨ht, hc⟩ := h
      rw [cutAt_startsMarkup_iff] at hc
      refine ⟨ht, cutAt_startsMarkup_iff.2 ⟨hc.1, hc.2.1, ?_, hr.markup.1 hc.2.2.2⟩⟩
      intro hl hh
      exact hc.2.2.1 hl (hr.brace.2 hh)
  | comment t => exact h
  | interpolation inner => exact h
  | selfClosed tag => exact h
  | verbatim tag body => exact h
  | element tag children => exact ⟨h.1, LegalAll.alike h.2 (hr.append _)⟩

theorem LegalAll.alike {ns : List Node} {r r' : Bytes} (h : LegalAll r ns) (hr : Alike r r') :
    LegalAll r' ns := by
  cases ns with
  | nil => trivial
  | cons n ns => exact ⟨Node.Legal.alike h.1 (hr.append _), LegalAll.alike h.2 hr⟩
end

end MarkupFormat.Written
