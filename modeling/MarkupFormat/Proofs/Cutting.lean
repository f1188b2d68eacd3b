import MarkupFormat.Document.OfRaw
import MarkupFormat.Proofs.Fitting

namespace MarkupFormat.Document

open Bytes

inductive Event where
  | cut (start stop : Nat)
  | move (start stop : Nat)
  deriving DecidableEq, Repr

def Event.InRange (length : Nat) : Event → Prop
  | .cut start stop => start ≤ stop ∧ stop ≤ length
  | .move start stop => start ≤ stop

abbrev Cutting := StateM (List Event)

def moveTo (cursor next : Nat) : Cutting Nat := do
  modify (· ++ [.move cursor next])
  return next

section Cutting

variable (src : Source) (slice : Nat → Nat → Bytes)

def cut (start stop : Nat) : Cutting Bytes := do
  modify (· ++ [.cut start stop])
  return slice start stop

mutual
def cutNode : Raw.Node → Cutting (List Piece)
  | .comment _ => return []
  | .text span => do
      let t ← cut slice span.start span.stop
      return linePieces [] (runs t)
  | .interpolation span inner => do
      let raw ← cut slice inner.start inner.stop
      return [.content (.expression raw (src.location span.start))]
  | .element span head children =>
      let close (nodes : List Node) : List Piece := [.content (.element (Tag.ofRaw src span head) nodes)]
      if head.selfClosing then return close []
      else if ElementName.isSensitive head.name then do
        let t ← cut slice head.body.start head.body.stop
        return close (if t = [] then [] else [.text t])
      else do
        let ps ← cutChildren head.body.start head.body.stop children
        return close (bodyNodes (joinSpaces ps))

def cutChildren (cursor stop : Nat) : List Raw.Node → Cutting (List Piece)
  | [] => do
      let tail ← cut slice cursor stop
      return spacePieces tail
  | n :: ns => do
      let gap ← cut slice cursor n.span.start
      let ps ← cutNode n
      let next ← moveTo cursor n.span.stop
      let rest ← cutChildren next stop ns
      return spacePieces gap ++ ps ++ rest
end

def cutDocument (tree : List Raw.Node) : Cutting (List Node) := do
  let ps ← cutChildren src slice 0 src.length tree
  return documentNodes (joinSpaces ps)

end Cutting

mutual
def nodeEvents : Raw.Node → List Event
  | .comment _ => []
  | .text span => [.cut span.start span.stop]
  | .interpolation _ inner => [.cut inner.start inner.stop]
  | .element _ head children =>
      if head.selfClosing then []
      else if ElementName.isSensitive head.name then [.cut head.body.start head.body.stop]
      else childEvents head.body.start head.body.stop children

def childEvents (cursor stop : Nat) : List Raw.Node → List Event
  | [] => [.cut cursor stop]
  | n :: ns =>
      .cut cursor n.span.start ::
        (nodeEvents n ++ .move cursor n.span.stop :: childEvents n.span.stop stop ns)
end

section Record

variable {src : Source} {slice : Nat → Nat → Bytes}

theorem run_bind_cutting {α β : Type} {x : Cutting α} {f : α → Cutting β} {log log' : List Event} {a : α}
    (h : x.run log = (a, log')) : (x >>= f).run log = (f a).run log' := by
  rw [StateT.run_bind, h]
  rfl

variable (src slice) in
def Agrees (events : List Event) : Prop :=
  ∀ a b, Event.cut a b ∈ events → slice a b = src.slice a b

theorem run_cut {a b : Nat} (h : slice a b = src.slice a b) (log : List Event) :
    (cut slice a b).run log = (src.slice a b, log ++ [.cut a b]) := by
  rw [← h]
  rfl

theorem run_moveTo (a b : Nat) (log : List Event) :
    (moveTo a b).run log = (b, log ++ [.move a b]) := rfl

mutual
theorem run_cutNode (n : Raw.Node) (h : Agrees src slice (nodeEvents n)) (log : List Event) :
    (cutNode src slice n).run log = (nodePieces src n, log ++ nodeEvents n) := by
  cases n with
  | comment span => simp [cutNode, nodePieces, nodeEvents]; rfl
  | text span =>
      have hcut := h span.start span.stop (by simp [nodeEvents])
      rw [cutNode, run_bind_cutting (run_cut hcut log)]
      rfl
  | interpolation span inner =>
      have hcut := h inner.start inner.stop (by simp [nodeEvents])
      rw [cutNode, run_bind_cutting (run_cut hcut log)]
      rfl
  | element span head children =>
      rw [nodeEvents] at h ⊢
      rw [cutNode, nodePieces]
      cases hself : head.selfClosing with
      | true => simp; rfl
      | false =>
          cases hsens : ElementName.isSensitive head.name with
          | true =>
              simp only [hself, hsens, Bool.false_eq_true, if_false, if_true] at h ⊢
              have hcut := h head.body.start head.body.stop List.mem_cons_self
              rw [run_bind_cutting (run_cut hcut log)]
              rfl
          | false =>
              simp only [hself, hsens, Bool.false_eq_true, if_false] at h ⊢
              rw [run_bind_cutting (run_cutChildren children h log)]
              rfl

theorem run_cutChildren (ns : List Raw.Node) {cursor stop : Nat}
    (h : Agrees src slice (childEvents cursor stop ns)) (log : List Event) :
    (cutChildren src slice cursor stop ns).run log =
      (childPieces src cursor stop ns, log ++ childEvents cursor stop ns) := by
  cases ns with
  | nil =>
      have hcut := h cursor stop (by simp [childEvents])
      rw [cutChildren, run_bind_cutting (run_cut hcut log)]
      rfl
  | cons n ns =>
      rw [childEvents] at h
      have hgap := h cursor n.span.start List.mem_cons_self
      have hnode : Agrees src slice (nodeEvents n) := fun a b hab => h a b (by simp [hab])
      have hrest : Agrees src slice (childEvents n.span.stop stop ns) := fun a b hab =>
        h a b (by simp [hab])
      rw [cutChildren, run_bind_cutting (run_cut hgap log), run_bind_cutting (run_cutNode n hnode _),
        run_bind_cutting (run_moveTo _ _ _), run_bind_cutting (run_cutChildren ns hrest _), childPieces,
        childEvents]
      simp
      rfl
end

end Record

section Accepted

variable {src : Source}

mutual
theorem inRange_nodeEvents (n : Raw.Node) (h : n.Fits src) (hspan : n.span.start ≤ n.span.stop)
    (hstop : n.span.stop ≤ src.length) : ∀ e ∈ nodeEvents n, e.InRange src.length := by
  cases n with
  | comment span => simp [nodeEvents]
  | text span => simpa [nodeEvents, Event.InRange] using ⟨hspan, hstop⟩
  | interpolation span inner =>
      obtain ⟨-, h2, h3⟩ := h
      simpa [nodeEvents, Event.InRange] using ⟨h2, Nat.le_trans h3 hstop⟩
  | element span head children =>
      obtain ⟨hfits, hkids⟩ := h
      rw [nodeEvents]
      cases hself : head.selfClosing with
      | true => simp
      | false =>
          obtain ⟨close, -, hbody, h1, h2, h3⟩ := hfits.body_of_open hself
          have hlen : head.body.stop ≤ src.length := by
            rw [hbody]
            exact Nat.le_trans (Nat.le_trans h2 h3) hstop
          have hle : head.body.start ≤ head.body.stop := by rwa [hbody]
          cases hsens : ElementName.isSensitive head.name with
          | true => simpa [Event.InRange] using ⟨hle, hlen⟩
          | false =>
              simpa using inRange_childEvents children (hkids (Raw.Header.isOpen_iff.2 ⟨hself, hsens⟩))
                hle hlen

theorem inRange_childEvents (ns : List Raw.Node) {cursor stop : Nat}
    (h : Raw.ChildrenFit src stop cursor ns) (hle : cursor ≤ stop) (hstop : stop ≤ src.length) :
    ∀ e ∈ childEvents cursor stop ns, e.InRange src.length := by
  cases ns with
  | nil => simpa [childEvents, Event.InRange] using ⟨hle, hstop⟩
  | cons n ns =>
      obtain ⟨⟨h1, h2, h3, -⟩, hn, hns⟩ := h
      have hgap : (Event.cut cursor n.span.start).InRange src.length :=
        ⟨h1, Nat.le_trans h2 (Nat.le_trans h3 hstop)⟩
      have hmove : (Event.move cursor n.span.stop).InRange src.length := Nat.le_trans h1 h2
      have hnode := inRange_nodeEvents n hn h2 (Nat.le_trans h3 hstop)
      have hrest := inRange_childEvents ns hns h3 hstop
      rw [childEvents, List.forall_mem_cons, List.forall_mem_append, List.forall_mem_cons]
      exact ⟨hgap, hnode, hmove, hrest⟩
end

end Accepted

-- While the document of an accepted tree is made, each slice is one of the source, from a start to a
-- stop that is not before it, and no cursor goes back. Any function with these slices gives the same
-- document.
theorem cuts_of_accepted (src : Source) (tree : List Raw.Node) (h : Raw.defect? src tree = none) :
    ∃ log : List Event,
      (∀ slice : Nat → Nat → Bytes,
        (∀ a b, a ≤ b → b ≤ src.length → slice a b = src.slice a b) →
          (cutDocument src slice tree).run [] = (ofRaw src tree, log)) ∧
      (∀ a b, .cut a b ∈ log → a ≤ b ∧ b ≤ src.length ∧ (src.slice a b).length = b - a) ∧
      ∀ a b, .move a b ∈ log → a ≤ b := by
  have hrange := inRange_childEvents tree (Raw.defect?_none_iff.1 h) (Nat.zero_le _) (Nat.le_refl _)
  refine ⟨childEvents 0 src.length tree, fun slice hslice => ?_, fun a b hab => ?_, fun a b hab => ?_⟩
  · have hagrees : Agrees src slice (childEvents 0 src.length tree) := fun a b hab =>
      hslice a b (hrange _ hab).1 (hrange _ hab).2
    rw [cutDocument, run_bind_cutting (run_cutChildren tree hagrees [])]
    rfl
  · obtain ⟨hle, hstop⟩ := hrange _ hab
    exact ⟨hle, hstop, Source.length_slice hstop⟩
  · exact hrange _ hab

def sliced : Source :=
  ⟨[], ascii "a <p>\x7b\x7by\x7d\x7d </p><pre> k</pre>"⟩

def slicedTree : List Raw.Node :=
  [.text ⟨0, 2⟩,
    .element ⟨2, 15⟩ ⟨ascii "p", [], false, ⟨2, 5⟩, some ⟨11, 15⟩⟩ [.interpolation ⟨5, 10⟩ ⟨7, 8⟩],
    .element ⟨15, 28⟩ ⟨ascii "pre", [], false, ⟨15, 20⟩, some ⟨22, 28⟩⟩ []]

theorem cuts_sliced :
    Raw.defect? sliced slicedTree = none ∧
      ∃ log, (cutDocument sliced sliced.slice slicedTree).run [] = (ofRaw sliced slicedTree, log) ∧
        log = [.cut 0 0, .cut 0 2, .move 0 2, .cut 2 2, .cut 5 5, .cut 7 8, .move 5 10, .cut 10 11,
          .move 2 15, .cut 15 15, .cut 20 22, .move 15 28, .cut 28 28] ∧
        ∀ a b, .cut a b ∈ log → a ≤ b ∧ b ≤ 28 := by
  have hdefect : Raw.defect? sliced slicedTree = none := by decide
  obtain ⟨log, hrun, hcuts, -⟩ := cuts_of_accepted sliced slicedTree hdefect
  have hlog := hrun sliced.slice fun _ _ _ _ => rfl
  refine ⟨hdefect, log, hlog, (congrArg Prod.snd hlog).symm, fun a b hab => ?_⟩
  obtain ⟨hle, hstop, -⟩ := hcuts a b hab
  exact ⟨hle, hstop⟩

end MarkupFormat.Document
