import MarkupFormat.Document.OfRaw
import MarkupFormat.Proofs.Fitting

namespace MarkupFormat.Raw

open Bytes

def Header.stop (head : Header) : Nat :=
  if head.selfClosing then head.openTag.stop else (head.closeTag.getD head.openTag).stop

def Node.Covers (o : Nat) : Node → Prop
  | .text span => o ∈ span
  | .comment span => o ∈ span
  | .interpolation span _ => o ∈ span
  | .element _ head _ =>
      o ∈ head.openTag ∨ head.selfClosing = false ∧
        ((∃ close, head.closeTag = some close ∧ o ∈ close) ∨
          ElementName.isSensitive head.name = true ∧ o ∈ head.body)

def Node.Drops (o : Nat) : Node → Prop
  | .text _ => False
  | .comment _ => False
  | .interpolation _ _ => False
  | .element span head _ =>
      o ∈ Span.mk span.start head.openTag.start ∨ o ∈ Span.mk head.stop span.stop

section Coverage

variable {src : Source} {o : Nat}

theorem mem_span_of_touches {n : Node} (hn : n.Fits src) (hspan : n.span.start ≤ n.span.stop)
    (h : n.Covers o ∨ n.Drops o) : o ∈ n.span := by
  cases n with
  | text span => exact h.resolve_right id
  | comment span => exact h.resolve_right id
  | interpolation span inner => exact h.resolve_right id
  | element span head children =>
      obtain ⟨hfits, -⟩ := hn
      have h1 := hfits.span_le
      have h2 := hfits.open_le
      have h3 := hfits.le_span
      simp only [Node.Covers, Node.Drops, Node.span, Header.stop, Span.mem_iff] at h hspan ⊢
      cases hself : head.selfClosing with
      | true =>
          simp only [hself, if_true, Bool.true_eq_false, false_and, or_false] at h
          omega
      | false =>
          obtain ⟨close, hclose, hbody, h4, h5, h6⟩ := hfits.body_of_open hself
          simp only [hself, hclose, hbody, Option.getD_some, Option.some.injEq, true_and,
            exists_eq_left', Bool.false_eq_true, if_false] at h
          omega

theorem mem_body_of_touches {ns : List Node} {stop cursor : Nat} (h : ChildrenFit src stop cursor ns)
    {m : Node} (hm : m ∈ exposedAll ns) (ho : m.Covers o ∨ m.Drops o) : o ∈ Span.mk cursor stop := by
  obtain ⟨hfits, hstart, hle, hstop⟩ := h.of_exposedAll hm
  have hin := mem_span_of_touches hfits hle ho
  exact ⟨Nat.le_trans hstart hin.1, Nat.lt_of_lt_of_le hin.2 hstop⟩

def Solid (src : Source) (o : Nat) : Prop :=
  ∃ c, src.content[o]? = some c ∧ isBlank c = false

theorem Solid.not_gap (h : Solid src o) {start stop : Nat}
    (hgap : allBlank (src.slice start stop) = true) : o ∉ Span.mk start stop := by
  intro ho
  obtain ⟨c, hc, hb⟩ := h
  rw [Source.allBlank_slice.1 hgap o ho c hc] at hb
  cases hb

theorem covers_iff_not_drops {span : Span} {head : Header} {children : List Node}
    (hfits : head.Fits span children) (ho : o ∈ span) (hbody : head.isOpen = true → o ∉ head.body) :
    (Node.element span head children).Covers o ↔ ¬(Node.element span head children).Drops o := by
  have h1 := hfits.span_le
  have h2 := hfits.open_le
  have h3 := hfits.le_span
  simp only [Node.Covers, Node.Drops, Header.stop, Span.mem_iff] at ho hbody ⊢
  cases hself : head.selfClosing with
  | true =>
      simp only [if_true, Bool.true_eq_false, false_and, or_false]
      omega
  | false =>
      obtain ⟨close, hclose, hb, h4, h5, h6⟩ := hfits.body_of_open hself
      simp only [Header.isOpen, hself, hclose, hb, Bool.not_false, Bool.true_and, Bool.not_eq_true',
        Option.getD_some, Option.some.injEq, true_and, exists_eq_left', Bool.false_eq_true,
        if_false] at hbody ⊢
      cases hs : ElementName.isSensitive head.name with
      | true =>
          simp only [true_and]
          omega
      | false =>
          have := hbody hs
          simp only [Bool.false_eq_true, false_and, or_false]
          omega

mutual
theorem exposed_covers_iff (n : Node) (hn : n.Fits src) (ho : o ∈ n.span) (hs : Solid src o) :
    (∃ m ∈ n.exposed, m.Covers o) ↔ ¬∃ m ∈ n.exposed, m.Drops o := by
  cases n with
  | text span => simpa [Node.exposed, Node.Covers, Node.Drops, Node.span] using ho
  | comment span => simpa [Node.exposed, Node.Covers, Node.Drops, Node.span] using ho
  | interpolation span inner => simpa [Node.exposed, Node.Covers, Node.Drops, Node.span] using ho
  | element span head children =>
      obtain ⟨hfits, hkids⟩ := hn
      by_cases hin : head.isOpen = true ∧ o ∈ head.body
      · -- the byte is between the tags, so it is for the children to account for it
        obtain ⟨hopen, hin⟩ := hin
        obtain ⟨close, hclose, hbody, h1, h2, h3⟩ := hfits.body_of_open (Header.isOpen_iff.1 hopen).1
        have hself := (Header.isOpen_iff.1 hopen).1
        have hsens := (Header.isOpen_iff.1 hopen).2
        have hcover : ¬(Node.element span head children).Covers o := by
          rw [hbody, Span.mem_mk] at hin
          simp [Node.Covers, hclose, hsens, Span.mem_iff]
          omega
        have hdrop : ¬(Node.element span head children).Drops o := by
          rw [hbody, Span.mem_mk] at hin
          have := hfits.open_le
          simp [Node.Drops, Header.stop, hself, hclose, Span.mem_iff]
          omega
        have := exposedAll_covers_iff children (hkids hopen) hin hs
        simpa [Node.exposed, hopen, hcover, hdrop] using this
      · have houtside : head.isOpen = true → o ∉ head.body := fun h h' => hin ⟨h, h'⟩
        have hchild : ∀ m ∈ (if head.isOpen then exposedAll children else []),
            ¬m.Covers o ∧ ¬m.Drops o := by
          intro m hm
          cases hopen : head.isOpen with
          | false => simp [hopen] at hm
          | true =>
              rw [hopen, if_pos rfl] at hm
              have : m.Covers o ∨ m.Drops o → o ∈ head.body := mem_body_of_touches (hkids hopen) hm
              exact ⟨fun h => houtside hopen (this (.inl h)), fun h => houtside hopen (this (.inr h))⟩
        have helem := covers_iff_not_drops hfits ho houtside
        constructor
        · rintro ⟨m, hm, hc⟩ ⟨m', hm', hd⟩
          rcases List.mem_cons.1 hm with rfl | hm
          · rcases List.mem_cons.1 hm' with rfl | hm'
            · exact helem.1 hc hd
            · exact (hchild m' hm').2 hd
          · exact (hchild m hm).1 hc
        · intro h
          exact ⟨_, by simp [Node.exposed],
            helem.2 fun hd => h ⟨_, by simp [Node.exposed], hd⟩⟩

theorem exposedAll_covers_iff (ns : List Node) {stop cursor : Nat}
    (h : ChildrenFit src stop cursor ns) (ho : o ∈ Span.mk cursor stop) (hs : Solid src o) :
    (∃ m ∈ exposedAll ns, m.Covers o) ↔ ¬∃ m ∈ exposedAll ns, m.Drops o := by
  cases ns with
  | nil => exact absurd ho (hs.not_gap h)
  | cons n ns =>
      obtain ⟨⟨h1, h2, h3, hgap⟩, hn, hns⟩ := h
      have hsplit : o ∈ n.span ∨ o ∈ Span.mk n.span.stop stop := by
        have := hs.not_gap hgap
        simp only [Span.mem_iff] at *
        omega
      rcases hsplit with ho | ho
      · have hrest : ∀ m ∈ exposedAll ns, ¬(m.Covers o ∨ m.Drops o) := by
          intro m hm ht
          have := mem_body_of_touches hns hm ht
          simp only [Span.mem_iff] at *
          omega
        have := exposed_covers_iff n hn ho hs
        simp only [exposedAll, List.mem_append]
        grind
      · have hfirst : ∀ m ∈ n.exposed, ¬(m.Covers o ∨ m.Drops o) := by
          intro m hm ht
          obtain ⟨hfits, hstart, hle, hstop⟩ := hn.of_exposed h2 hm
          have := mem_span_of_touches hfits hle ht
          simp only [Span.mem_iff] at *
          omega
        have := exposedAll_covers_iff ns hns ho hs
        simp only [exposedAll, List.mem_append]
        grind
end

end Coverage

-- What a tree without defects accounts for. A byte that is not blank is in a node or a tag or in what
-- is kept as it is, unless it is in the margin of an element; then it is in none of them.
theorem covered_iff_not_dropped {src : Source} {tree : List Node} (h : defect? src tree = none)
    {o : Nat} {c : UInt8} (hc : src.content[o]? = some c) (hb : isBlank c = false) :
    (∃ n ∈ exposedAll tree, n.Covers o) ↔ ¬∃ n ∈ exposedAll tree, n.Drops o :=
  exposedAll_covers_iff tree (defect?_none_iff.1 h)
    ⟨Nat.zero_le o, (List.getElem?_eq_some_iff.1 hc).1⟩ ⟨c, hc, hb⟩

def clipped : Source :=
  ⟨[], ascii "ab<p/>c"⟩

def clippedTree : List Node :=
  [.element ⟨0, 6⟩ ⟨ascii "p", [], true, ⟨2, 6⟩, none⟩ [], .text ⟨6, 7⟩]

theorem covered_after_margin :
    defect? clipped clippedTree = none ∧ clipped.content[6]? = some 99 ∧
      ∃ n ∈ exposedAll clippedTree, n.Covers 6 := by
  have hdefect : defect? clipped clippedTree = none := by decide
  refine ⟨hdefect, rfl, (covered_iff_not_dropped hdefect rfl (by decide)).2 ?_⟩
  simp [clippedTree, exposedAll, Node.exposed, Header.isOpen, Node.Drops, Header.stop, Span.mem_iff]

theorem lost_before_tag :
    defect? clipped clippedTree = none ∧ clipped.content[0]? = some 97 ∧ isBlank 97 = false ∧
      (¬∃ n ∈ exposedAll clippedTree, n.Covers 0) ∧
      Document.ofRaw? clipped clippedTree =
        .ok [.marker .documentStart false, .element ⟨ascii "p", [], true, false, ⟨1, 1, 0⟩⟩ [],
          .text (ascii "c")] := by
  refine ⟨by decide, rfl, by decide, ?_, rfl⟩
  simp [clippedTree, exposedAll, Node.exposed, Header.isOpen, Node.Covers, Span.mem_iff]

end MarkupFormat.Raw
