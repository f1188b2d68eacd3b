import MarkupFormat.Proofs.Placing
import MarkupFormat.Proofs.Slices

namespace MarkupFormat.Raw

open Bytes

structure Follows (src : Source) (stop cursor : Nat) (span : Span) : Prop where
  cursor_le : cursor ≤ span.start
  start_le : span.start ≤ span.stop
  stop_le : span.stop ≤ stop
  gap : allBlank (src.slice cursor span.start) = true

structure Header.Fits (head : Header) (span : Span) (children : List Node) : Prop where
  span_le : span.start ≤ head.openTag.start
  open_le : head.openTag.start ≤ head.openTag.stop
  le_span : head.openTag.stop ≤ span.stop
  childless : head.selfClosing = true → children = []
  closed : head.selfClosing = false → ∃ close, head.closeTag = some close ∧
    head.openTag.stop ≤ close.start ∧ close.start ≤ close.stop ∧ close.stop ≤ span.stop

mutual
def Node.Fits (src : Source) : Node → Prop
  | .text _ => True
  | .comment _ => True
  | .interpolation span inner =>
      span.start ≤ inner.start ∧ inner.start ≤ inner.stop ∧ inner.stop ≤ span.stop
  | .element span head children =>
      head.Fits span children ∧
        (head.isOpen = true → ChildrenFit src head.body.stop head.body.start children)

def ChildrenFit (src : Source) (stop cursor : Nat) : List Node → Prop
  | [] => allBlank (src.slice cursor stop) = true
  | n :: ns => Follows src stop cursor n.span ∧ n.Fits src ∧ ChildrenFit src stop n.span.stop ns
end

section Fitting

variable {src : Source}

theorem placeDefect?_none_iff (parent : Bytes) {container : Span} {cursor : Nat} {span : Span}
    (hstart : container.start ≤ cursor) (hstop : container.stop ≤ src.length) :
    placeDefect? src container parent cursor span = none ↔ Follows src container.stop cursor span := by
  simp only [placeDefect?, Bool.or_eq_true, decide_eq_true_eq, Bool.not_eq_true']
  constructor
  · intro h
    split at h
    · cases h
    · split at h
      · cases h
      · split at h
        · cases h
        · split at h
          · cases h
          · exact ⟨by omega, by omega, by omega, by simp_all⟩
  · rintro ⟨h1, h2, h3, h4⟩
    rw [if_neg (by omega), if_neg (by omega), if_neg (by omega), if_neg (by simp [h4])]

theorem tagDefect?_none_iff {span : Span} {head : Header} {children : List Node} :
    tagDefect? span head (!children.isEmpty) = none ↔ head.Fits span children := by
  unfold tagDefect?
  cases hopen : fits head.openTag span with
  | false =>
      refine ⟨fun h => by simp at h, fun h => ?_⟩
      rw [fits_iff.2 ⟨h.span_le, h.open_le, h.le_span⟩] at hopen
      cases hopen
  | true =>
      obtain ⟨h1, h2, h3⟩ := fits_iff.1 hopen
      cases hself : head.selfClosing with
      | true =>
          have hkids : (if (!children.isEmpty) = true then some Flaw.selfClosedChildren else none) =
              none ↔ children = [] := by
            cases children <;> simp
          simp only [Bool.not_true, Bool.false_eq_true, if_false, if_true, hkids]
          exact ⟨fun h => ⟨h1, h2, h3, fun _ => h, fun h => by simp [hself] at h⟩,
            fun h => h.childless hself⟩
      | false =>
          simp only [Bool.not_true, Bool.false_eq_true, if_false]
          cases hclose : head.closeTag with
          | none =>
              refine ⟨fun h => by simp at h, fun h => ?_⟩
              obtain ⟨close, hc, -⟩ := h.closed hself
              rw [hclose] at hc
              cases hc
          | some close =>
              have hfits : (if fits close ⟨head.openTag.stop, span.stop⟩ = true then none
                  else some Flaw.closingTag) = none ↔
                    fits close ⟨head.openTag.stop, span.stop⟩ = true := by simp
              rw [hfits, fits_iff]
              constructor
              · intro h
                exact ⟨h1, h2, h3, fun h => by simp [hself] at h, fun _ => ⟨close, hclose, h⟩⟩
              · intro h
                obtain ⟨close', hc, h⟩ := h.closed hself
                rw [hclose, Option.some.injEq] at hc
                exact hc ▸ h

theorem Header.Fits.body_of_open {head : Header} {span : Span} {children : List Node}
    (h : head.Fits span children) (hself : head.selfClosing = false) :
    ∃ close, head.closeTag = some close ∧ head.body = ⟨head.openTag.stop, close.start⟩ ∧
      head.openTag.stop ≤ close.start ∧ close.start ≤ close.stop ∧ close.stop ≤ span.stop := by
  obtain ⟨close, hclose, h⟩ := h.closed hself
  exact ⟨close, hclose, by rw [Header.body, hclose], h⟩

theorem Header.isOpen_iff {head : Header} :
    head.isOpen = true ↔
      head.selfClosing = false ∧ ElementName.isSensitive head.name = false := by
  simp [Header.isOpen]

mutual
theorem nodeDefect?_none_iff (parent : Bytes) (n : Node) (h : n.span.stop ≤ src.length) :
    nodeDefect? src parent n = none ↔ n.Fits src := by
  cases n with
  | text span => simp [nodeDefect?, Node.Fits]
  | comment span => simp [nodeDefect?, Node.Fits]
  | interpolation span inner => simp [nodeDefect?, Node.Fits, fits_iff]
  | element span head children =>
      rw [nodeDefect?, Node.Fits, ← tagDefect?_none_iff]
      cases htag : tagDefect? span head (!children.isEmpty) with
      | some flaw => simp
      | none =>
          cases hopen : head.isOpen with
          | false => simp
          | true =>
              have hfits := tagDefect?_none_iff.1 htag
              obtain ⟨close, -, hbody, h1, h2, h3⟩ :=
                hfits.body_of_open (Header.isOpen_iff.1 hopen).1
              have hstop : head.body.stop ≤ src.length := by
                rw [hbody]
                exact Nat.le_trans (Nat.le_trans h2 h3) h
              simp [childrenDefect?_none_iff head.name children (Nat.le_refl _) hstop]

theorem childrenDefect?_none_iff (parent : Bytes) (ns : List Node) {container : Span} {cursor : Nat}
    (hstart : container.start ≤ cursor) (hstop : container.stop ≤ src.length) :
    childrenDefect? src container parent cursor ns = none ↔
      ChildrenFit src container.stop cursor ns := by
  cases ns with
  | nil => simp [childrenDefect?, ChildrenFit]
  | cons n ns =>
      rw [childrenDefect?, ChildrenFit, ← placeDefect?_none_iff parent hstart hstop]
      cases hplace : placeDefect? src container parent cursor n.span with
      | some d => simp
      | none =>
          obtain ⟨h1, h2, h3, -⟩ := (placeDefect?_none_iff parent hstart hstop).1 hplace
          have hnode := nodeDefect?_none_iff parent n (Nat.le_trans h3 hstop)
          have hrest := childrenDefect?_none_iff parent ns
            (Nat.le_trans hstart (Nat.le_trans h1 h2)) hstop
          rw [← hnode, ← hrest]
          cases nodeDefect? src parent n <;> simp
end

theorem defect?_none_iff {tree : List Node} :
    defect? src tree = none ↔ ChildrenFit src src.length 0 tree :=
  childrenDefect?_none_iff [] tree (Nat.le_refl 0) (Nat.le_refl _)

theorem ChildrenFit.bounds {stop : Nat} {ns : List Node} : ∀ {cursor},
    ChildrenFit src stop cursor ns →
    ∀ n ∈ ns, cursor ≤ n.span.start ∧ n.span.start ≤ n.span.stop ∧ n.span.stop ≤ stop := by
  induction ns with
  | nil => simp
  | cons m ms ih =>
      rintro cursor ⟨hm, -, hms⟩ n hn
      rcases List.mem_cons.1 hn with rfl | hn
      · exact ⟨hm.cursor_le, hm.start_le, hm.stop_le⟩
      · have := ih hms n hn
        have := hm.cursor_le
        have := hm.start_le
        omega

end Fitting

mutual
def Node.exposed : Node → List Node
  | .text span => [.text span]
  | .comment span => [.comment span]
  | .interpolation span inner => [.interpolation span inner]
  | .element span head children =>
      .element span head children :: if head.isOpen then exposedAll children else []

def exposedAll : List Node → List Node
  | [] => []
  | n :: ns => n.exposed ++ exposedAll ns
end

theorem mem_exposed {m n : Node} :
    m ∈ n.exposed ↔ m = n ∨ ∃ span head children, n = .element span head children ∧
      head.isOpen = true ∧ m ∈ exposedAll children := by
  cases n with
  | text span => simp [Node.exposed]
  | comment span => simp [Node.exposed]
  | interpolation span inner => simp [Node.exposed]
  | element span head children =>
      cases hopen : head.isOpen <;> simp [Node.exposed, hopen, and_assoc]

section Exposed

variable {src : Source}

theorem Header.Fits.body_bounds {head : Header} {span : Span} {children : List Node}
    (h : head.Fits span children) (hopen : head.isOpen = true) :
    span.start ≤ head.body.start ∧ head.body.start ≤ head.body.stop ∧ head.body.stop ≤ span.stop := by
  obtain ⟨close, -, hbody, h1, h2, h3⟩ := h.body_of_open (isOpen_iff.1 hopen).1
  rw [hbody]
  exact ⟨Nat.le_trans h.span_le h.open_le, h1, Nat.le_trans h2 h3⟩

mutual
theorem Node.Fits.of_exposed {n : Node} (h : n.Fits src) (hspan : n.span.start ≤ n.span.stop)
    {m : Node} (hm : m ∈ n.exposed) :
    m.Fits src ∧ n.span.start ≤ m.span.start ∧ m.span.start ≤ m.span.stop ∧
      m.span.stop ≤ n.span.stop := by
  rcases mem_exposed.1 hm with rfl | ⟨span, head, children, rfl, hopen, hm⟩
  · exact ⟨h, Nat.le_refl _, hspan, Nat.le_refl _⟩
  · obtain ⟨h1, -, h3⟩ := h.1.body_bounds hopen
    obtain ⟨hfits, hstart, hle, hstop⟩ := (h.2 hopen).of_exposedAll hm
    exact ⟨hfits, Nat.le_trans h1 hstart, hle, Nat.le_trans hstop h3⟩

theorem ChildrenFit.of_exposedAll {ns : List Node} {stop cursor : Nat}
    (h : ChildrenFit src stop cursor ns) {m : Node} (hm : m ∈ exposedAll ns) :
    m.Fits src ∧ cursor ≤ m.span.start ∧ m.span.start ≤ m.span.stop ∧ m.span.stop ≤ stop := by
  cases ns with
  | nil => cases hm
  | cons n ns =>
      obtain ⟨⟨h1, h2, h3, -⟩, hn, hns⟩ := h
      rw [exposedAll, List.mem_append] at hm
      rcases hm with hm | hm
      · obtain ⟨hfits, hstart, hle, hstop⟩ := hn.of_exposed h2 hm
        exact ⟨hfits, Nat.le_trans h1 hstart, hle, Nat.le_trans hstop h3⟩
      · obtain ⟨hfits, hstart, hle, hstop⟩ := hns.of_exposedAll hm
        exact ⟨hfits, Nat.le_trans h1 (Nat.le_trans h2 hstart), hle, hstop⟩
end

end Exposed

end MarkupFormat.Raw
