import MarkupFormat.Proofs.Boundaries
import MarkupFormat.Proofs.Sources

namespace MarkupFormat.Document

open Bytes
open Raw (ChildrenFit HasSpace OutsideComments UnbrokenEmptyLine)

def markerGroups : List Node → List (List Node)
  | [] => [[]]
  | n :: ns => if n.isMarker then (markerGroups ns).modifyHead (n :: ·) else [] :: markerGroups ns

theorem markerGroups_append {ms : List Node} (hms : ∀ m ∈ ms, m.isMarker = true) {n : Node}
    (hn : n.isMarker = false) (ns : List Node) :
    markerGroups (ms ++ n :: ns) = ms :: markerGroups ns := by
  induction ms with
  | nil => simp [markerGroups, hn]
  | cons m ms ih =>
      rw [List.forall_mem_cons] at hms
      rw [List.cons_append, markerGroups, if_pos hms.1, ih hms.2]
      rfl

theorem markerGroups_of_markers {ms : List Node} (hms : ∀ m ∈ ms, m.isMarker = true) :
    markerGroups ms = [ms] := by
  induction ms with
  | nil => rfl
  | cons m ms ih =>
      rw [List.forall_mem_cons] at hms
      rw [markerGroups, if_pos hms.1, ih hms.2]
      rfl

def Lone (ps : List Piece) : Prop :=
  ps = [] ∨ ∃ b, ps = [.space b]

theorem lone_spaceMark (space blank : Prop) [Decidable space] [Decidable blank] :
    Lone (spaceMark space blank) := by
  unfold spaceMark
  split
  · exact .inr ⟨_, rfl⟩
  · exact .inl rfl

def bodyPosition (i count : Nat) : Position :=
  if i = count then .beforeClosingTag
  else if i = 0 then .beforeFirstChild
  else .betweenSiblings

def anyBlank (ps : List Piece) : Bool :=
  ps.any fun
    | .space b => b
    | .content _ => false

section Marks

variable {mark : Span → List Piece} (hmark : ∀ b, Lone (mark b))
include hmark

theorem isMarker_of_mark {b : Span} {position : Position} {m : Node}
    (h : m ∈ (mark b).map (Piece.node position)) : m.isMarker = true := by
  rcases hmark b with hb | ⟨c, hb⟩
  · simp [hb] at h
  · simp only [hb, List.map_cons, List.map_nil, List.mem_singleton] at h
    rw [h]
    rfl

theorem innerNodes_mark (b : Span) :
    innerNodes (mark b) = (mark b).map (Piece.node .beforeClosingTag) := by
  rcases hmark b with hb | ⟨c, hb⟩ <;> simp [hb, innerNodes, Piece.node]

theorem innerNodes_mark_append (b : Span) (n : Node) (ps : List Piece) :
    innerNodes (mark b ++ .content n :: ps) =
      (mark b).map (Piece.node .betweenSiblings) ++ n :: innerNodes ps := by
  rcases hmark b with hb | ⟨c, hb⟩ <;> simp [hb, innerNodes, Piece.node]

theorem bodyNodes_mark_append (b : Span) (n : Node) (ps : List Piece) :
    bodyNodes (mark b ++ .content n :: ps) =
      (mark b).map (Piece.node .beforeFirstChild) ++ n :: innerNodes ps := by
  rcases hmark b with hb | ⟨c, hb⟩ <;> simp [hb, innerNodes, bodyNodes, Piece.node]

theorem trailingNodes_mark (b : Span) : trailingNodes (mark b) = [] := by
  rcases hmark b with hb | ⟨c, hb⟩ <;> simp [hb, trailingNodes]

theorem trailingNodes_mark_append (b : Span) (n : Node) (ps : List Piece) :
    trailingNodes (mark b ++ .content n :: ps) =
      (mark b).map (Piece.node .betweenSiblings) ++ n :: trailingNodes ps := by
  rcases hmark b with hb | ⟨c, hb⟩ <;> simp [hb, trailingNodes, Piece.node]

theorem documentNodes_mark_append (b : Span) (n : Node) (ps : List Piece) :
    documentNodes (mark b ++ .content n :: ps) =
      [.marker .documentStart (anyBlank (mark b))] ++ n :: trailingNodes ps := by
  rcases hmark b with hb | ⟨c, hb⟩ <;> simp [hb, documentNodes, trailingNodes, anyBlank]

variable {stop : Nat}

theorem markerGroups_innerNodes (ns : List PlacedNode) : ∀ start,
    (∀ n ∈ ns, n.node.isMarker = false) →
    markerGroups (innerNodes (weave mark start stop ns)) =
      (boundaries start stop ns).mapIdx fun i b =>
        (mark b).map
          (Piece.node (if i = ns.length then .beforeClosingTag else .betweenSiblings)) := by
  induction ns with
  | nil =>
      intro start _
      rw [weave, innerNodes_mark hmark, markerGroups_of_markers fun _ => isMarker_of_mark hmark]
      rfl
  | cons n ns ih =>
      intro start hs
      rw [List.forall_mem_cons] at hs
      rw [weave, innerNodes_mark_append hmark,
        markerGroups_append (fun _ => isMarker_of_mark hmark) hs.1, ih _ hs.2, boundaries,
        List.mapIdx_cons]
      simp

theorem markerGroups_bodyNodes (ns : List PlacedNode) (start : Nat)
    (hs : ∀ n ∈ ns, n.node.isMarker = false) :
    markerGroups (bodyNodes (weave mark start stop ns)) =
      (boundaries start stop ns).mapIdx fun i b =>
        (mark b).map (Piece.node (bodyPosition i ns.length)) := by
  cases ns with
  | nil =>
      have hbody : bodyNodes (mark ⟨start, stop⟩) = innerNodes (mark ⟨start, stop⟩) := by
        rcases hmark ⟨start, stop⟩ with hb | ⟨c, hb⟩ <;> simp [hb, bodyNodes]
      rw [weave, hbody, innerNodes_mark hmark,
        markerGroups_of_markers fun _ => isMarker_of_mark hmark]
      rfl
  | cons n ns =>
      rw [List.forall_mem_cons] at hs
      rw [weave, bodyNodes_mark_append hmark,
        markerGroups_append (fun _ => isMarker_of_mark hmark) hs.1,
        markerGroups_innerNodes hmark ns _ hs.2, boundaries, List.mapIdx_cons]
      simp [bodyPosition]

theorem markerGroups_trailingNodes (ns : List PlacedNode) : ∀ start,
    (∀ n ∈ ns, n.node.isMarker = false) →
    markerGroups (trailingNodes (weave mark start stop ns)) =
      (boundaries start stop ns).mapIdx fun i b =>
        if i = ns.length then [] else (mark b).map (Piece.node .betweenSiblings) := by
  induction ns with
  | nil =>
      intro start _
      rw [weave, trailingNodes_mark hmark]
      rfl
  | cons n ns ih =>
      intro start hs
      rw [List.forall_mem_cons] at hs
      rw [weave, trailingNodes_mark_append hmark,
        markerGroups_append (fun _ => isMarker_of_mark hmark) hs.1, ih _ hs.2, boundaries,
        List.mapIdx_cons]
      simp

theorem markerGroups_documentNodes (ns : List PlacedNode) (start : Nat)
    (hs : ∀ n ∈ ns, n.node.isMarker = false) :
    markerGroups (documentNodes (weave mark start stop ns)) =
      (boundaries start stop ns).mapIdx fun i b =>
        if i = 0 then [.marker .documentStart (anyBlank (mark b))]
        else if i = ns.length then []
        else (mark b).map (Piece.node .betweenSiblings) := by
  have hstart : ∀ c, ∀ m ∈ [Node.marker .documentStart c], m.isMarker = true := by
    simp [Node.isMarker]
  cases ns with
  | nil =>
      have hdoc : documentNodes (mark ⟨start, stop⟩) =
          [.marker .documentStart (anyBlank (mark ⟨start, stop⟩))] := by
        rcases hmark ⟨start, stop⟩ with hb | ⟨c, hb⟩ <;>
          simp [hb, documentNodes, trailingNodes, anyBlank]
      rw [weave, hdoc, markerGroups_of_markers (hstart _)]
      rfl
  | cons n ns =>
      rw [List.forall_mem_cons] at hs
      rw [weave, documentNodes_mark_append hmark, markerGroups_append (hstart _) hs.1,
        markerGroups_trailingNodes hmark ns _ hs.2, boundaries, List.mapIdx_cons]
      simp

theorem contents_weave (ns : List PlacedNode) : ∀ start,
    contents (weave mark start stop ns) = ns.map PlacedNode.node := by
  induction ns with
  | nil =>
      intro start
      rcases hmark ⟨start, stop⟩ with hb | ⟨c, hb⟩ <;> simp [weave, hb, contents]
  | cons n ns ih =>
      intro start
      rcases hmark ⟨start, n.place.start⟩ with hb | ⟨c, hb⟩ <;> simp [weave, hb, contents, ih]

theorem solid_weave {ns : List PlacedNode} {start : Nat} (hs : ∀ n ∈ ns, n.node.isMarker = false) :
    Solid (weave mark start stop ns) := by
  intro n hn
  rw [← mem_contents, contents_weave hmark, List.mem_map] at hn
  obtain ⟨m, hm, rfl⟩ := hn
  exact hs m hm

end Marks

section Spaced

variable {src : Source}

theorem nodeContent_solid {n : Raw.Node} {p : PlacedNode} (hp : p ∈ nodeContent src n) :
    p.node.isMarker = false := by
  cases n with
  | comment span => cases hp
  | interpolation span inner => rw [List.mem_singleton.1 hp]; rfl
  | element span head children => rw [List.mem_singleton.1 hp]; rfl
  | text span =>
      simp only [nodeContent, placeText] at hp
      generalize lines (src.slice span.start span.stop) = ls at hp
      generalize span.start = start at hp
      induction ls generalizing start with
      | nil => cases hp
      | cons l ls ih =>
          rw [placeLines, List.mem_append] at hp
          rcases hp with hp | hp
          · split at hp
            · cases hp
            · rw [List.mem_singleton.1 hp]
              rfl
          · exact ih _ hp

theorem lone_unbrokenMark (src : Source) (ns : List Raw.Node) (b : Span) : Lone (unbrokenMark src ns b) :=
  lone_spaceMark _ _

end Spaced

end MarkupFormat.Document
