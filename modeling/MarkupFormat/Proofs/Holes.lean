import MarkupFormat.Proofs.Outcomes

namespace MarkupFormat.Written

open Bytes Document

inductive Hole where
  | here (after : List Node)
  | later (n : Node) (hole : Hole)
  | inside (tag : OpenTag) (plain : ElementName.isSensitive tag.name = false) (hole : Hole)
      (after : List Node)

namespace Hole

def fill (m : Node) : Hole → List Node
  | .here after => m :: after
  | .later n hole => n :: hole.fill m
  | .inside tag _ hole after => .element tag (hole.fill m) :: after

def left : Hole → Bytes
  | .here _ => []
  | .later n hole => n.write ++ hole.left
  | .inside tag _ hole _ => tag.write ++ Byte.greater :: hole.left

def right : Hole → Bytes
  | .here after => writeAll after
  | .later _ hole => hole.right
  | .inside tag _ hole after => hole.right ++ closingTag tag.name ++ writeAll after

theorem writeAll_fill (hole : Hole) (m : Node) :
    writeAll (hole.fill m) = hole.left ++ m.write ++ hole.right := by
  induction hole with
  | here after => rfl
  | later n hole ih => simp [fill, left, right, writeAll, ih]
  | inside tag plain hole after ih => simp [fill, left, right, writeAll, Node.write, ih]

theorem legal_of_fill {m : Node} (hole : Hole) : ∀ {after : Bytes}, LegalAll after (hole.fill m) →
    ∃ r, m.Legal r := by
  induction hole with
  | here rest => exact fun h => ⟨_, h.1⟩
  | later n hole ih => exact fun h => ih h.2
  | inside tag plain hole rest ih => exact fun h => ih h.1.2

end Hole

mutual
theorem exists_hole_of_exposed (n : Node) (after : List Node) {m : Raw.Node} {start : Nat}
    (hm : m ∈ (Raw.locate start n).exposed) :
    ∃ hole k, Hole.fill k hole = n :: after ∧ m = Raw.locate (start + hole.left.length) k := by
  have hself : m = Raw.locate start n →
      ∃ hole k, Hole.fill k hole = n :: after ∧ m = Raw.locate (start + hole.left.length) k :=
    fun h => ⟨.here after, n, rfl, h⟩
  cases n with
  | text t => exact hself (by simpa [Raw.locate, Raw.Node.exposed] using hm)
  | comment t => exact hself (by simpa [Raw.locate, Raw.Node.exposed] using hm)
  | interpolation inner => exact hself (by simpa [Raw.locate, Raw.Node.exposed] using hm)
  | selfClosed tag =>
      exact hself (by simpa [Raw.locate, Raw.Node.exposed, Raw.exposedAll] using hm)
  | verbatim tag body =>
      exact hself (by simpa [Raw.locate, Raw.Node.exposed, Raw.exposedAll] using hm)
  | element tag children =>
      rw [Raw.locate, Raw.Node.exposed, List.mem_cons] at hm
      rcases hm with hm | hm
      · exact hself hm
      · rw [Raw.isOpen_ofOpen] at hm
        cases hs : ElementName.isSensitive tag.name with
        | true => simp [hs] at hm
        | false =>
            rw [hs] at hm
            obtain ⟨hole, k, hfill, rfl⟩ := exists_hole children hm
            refine ⟨.inside tag hs hole after, k, by rw [Hole.fill, hfill], ?_⟩
            simp [Hole.left, Nat.add_assoc, Nat.add_comm 1]

theorem exists_hole (ns : List Node) {m : Raw.Node} {start : Nat}
    (hm : m ∈ Raw.exposedAll (Raw.locateAll start ns)) :
    ∃ hole k, Hole.fill k hole = ns ∧ m = Raw.locate (start + hole.left.length) k := by
  cases ns with
  | nil => cases hm
  | cons n ns =>
      rw [Raw.locateAll, Raw.exposedAll, List.mem_append] at hm
      rcases hm with hm | hm
      · exact exists_hole_of_exposed n ns hm
      · obtain ⟨hole, k, hfill, rfl⟩ := exists_hole ns hm
        refine ⟨.later n hole, k, by rw [Hole.fill, hfill], ?_⟩
        simp [Hole.left, Node.length_write, Nat.add_assoc]
end

structure Interchangeable (n n' : Node) : Prop where
  legal : ∀ after, n.Legal after → n'.Legal after
  alike : ∀ r, Alike (n.write ++ r) (n'.write ++ r)
  covered : n.Covered ↔ n'.Covered
  pieces : piecesOf n = piecesOf n'

structure InterchangeableAll (ns ns' : List Node) : Prop where
  legal : ∀ after, LegalAll after ns → LegalAll after ns'
  alike : ∀ r, Alike (writeAll ns ++ r) (writeAll ns' ++ r)
  covered : CoveredAll ns ↔ CoveredAll ns'
  pieces : piecesAll ns = piecesAll ns'

variable {n n' : Node} {ns ns' : List Node}

theorem Interchangeable.cons (h : Interchangeable n n') (ns : List Node) :
    InterchangeableAll (n :: ns) (n' :: ns) where
  legal after := fun ⟨hn, hns⟩ => ⟨h.legal _ hn, hns⟩
  alike r := by simpa [writeAll] using h.alike (writeAll ns ++ r)
  covered := and_congr_left' h.covered
  pieces := by rw [piecesAll, piecesAll, h.pieces]

theorem InterchangeableAll.cons (h : InterchangeableAll ns ns') (n : Node) :
    InterchangeableAll (n :: ns) (n :: ns') where
  legal after := fun ⟨hn, hns⟩ => ⟨hn.alike (h.alike after), h.legal after hns⟩
  alike r := by simpa [writeAll] using (h.alike r).append n.write
  covered := and_congr_right' h.covered
  pieces := by rw [piecesAll, piecesAll, h.pieces]

theorem InterchangeableAll.element {tag : OpenTag} (hs : ElementName.isSensitive tag.name = false)
    (h : InterchangeableAll ns ns') : Interchangeable (.element tag ns) (.element tag ns') where
  legal after := fun ⟨htag, hns⟩ => ⟨htag, h.legal _ hns⟩
  alike r := alike_of_less (.inr rfl) (.inr rfl)
  covered := by simp [Node.Covered, h.covered]
  pieces := by simp [piecesOf, hs, h.pieces]

theorem Interchangeable.fill (h : Interchangeable n n') (hole : Hole) :
    InterchangeableAll (hole.fill n) (hole.fill n') := by
  induction hole with
  | here after => exact h.cons after
  | later k hole ih => exact ih.cons k
  | inside tag plain hole after ih => exact (ih.element plain).cons after

theorem InterchangeableAll.sameDocument (h : InterchangeableAll ns ns') : SameDocument ns ns' where
  covered := h.covered
  tail := by rw [ofWritten, ofWritten, h.pieces]

theorem InterchangeableAll.read (h : InterchangeableAll ns ns') {s : Bytes}
    (hread : Written.read s = .ok ns) : Written.read (writeAll ns') = .ok ns' :=
  read_iff.2 ⟨rfl, h.legal [] (read_iff.1 hread).2⟩

end MarkupFormat.Written

namespace MarkupFormat.Raw

open Bytes Written Document

theorem read_interchanged {src : Source} {tree : List Node} (hread : read src = .ok tree) {m : Node}
    (hm : m ∈ exposedAll tree) :
    ∃ n left right, m = locate left.length n ∧ src.content = left ++ n.write ++ right ∧
      (∃ after, n.Legal after) ∧
      ∀ n', Interchangeable n n' →
        ∃ tree', read ⟨src.name, left ++ n'.write ++ right⟩ = .ok tree' ∧
          FormattedAlike src tree ⟨src.name, left ++ n'.write ++ right⟩ tree' := by
  obtain ⟨ns, hns, rfl⟩ := read_eq_ok.1 hread
  obtain ⟨hole, n, rfl, rfl⟩ := exists_hole ns hm
  obtain ⟨hcontent, hlegal⟩ := read_iff.1 hns
  rw [hole.writeAll_fill] at hcontent
  refine ⟨n, hole.left, hole.right, by rw [Nat.zero_add], hcontent.symm, hole.legal_of_fill hlegal,
    fun n' h => ?_⟩
  have hnew := (h.fill hole).read hns
  rw [hole.writeAll_fill] at hnew
  exact (h.fill hole).sameDocument.read hns hnew

theorem split_of_span {a b c left t right : Bytes} (h : a ++ b ++ c = left ++ t ++ right)
    (hspan : Span.ofLength a.length b.length = Span.ofLength left.length t.length) :
    a = left ∧ b = t ∧ c = right := by
  obtain ⟨hstart, hlength⟩ : a.length = left.length ∧ b.length = t.length := by
    simp only [Span.ofLength, Span.mk.injEq] at hspan
    omega
  rw [List.append_assoc, List.append_assoc] at h
  obtain ⟨ha, hrest⟩ := List.append_inj h hstart
  exact ⟨ha, List.append_inj hrest hlength⟩

end MarkupFormat.Raw
