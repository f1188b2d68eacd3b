import MarkupFormat.Proofs.Spacing

namespace MarkupFormat.Document

open Bytes
open Raw (ChildrenFit)

section Draw

variable (rule : List Raw.Node → Span → List Piece) (src : Source)

mutual
def drawNode : Raw.Node → List PlacedNode
  | .comment _ => []
  | .text span => placeText span.start (src.slice span.start span.stop)
  | .interpolation span inner =>
      [⟨span, .expression (src.slice inner.start inner.stop) (src.location span.start)⟩]
  | .element span head children =>
      [⟨span, .element (Tag.ofRaw src span head)
        (if head.selfClosing then []
        else if ElementName.isSensitive head.name then verbatimNodes src head.body
        else bodyNodes
          (weave (rule children) head.body.start head.body.stop (drawAll children)))⟩]

def drawAll : List Raw.Node → List PlacedNode
  | [] => []
  | n :: ns => drawNode n ++ drawAll ns
end

def draw (tree : List Raw.Node) : List Node :=
  documentNodes (weave (rule tree) 0 src.length (drawAll rule src tree))

end Draw

section OfRaw

variable {src : Source}

mutual
theorem nodeContent_eq_draw (n : Raw.Node) (h : n.Fits src) (hstop : n.span.stop ≤ src.length) :
    nodeContent src n = drawNode (unbrokenMark src) src n := by
  cases n with
  | comment span => rfl
  | text span => rfl
  | interpolation span inner => rfl
  | element span head children =>
      rw [nodeContent, drawNode, childNodes]
      cases hself : head.selfClosing with
      | true => rfl
      | false =>
          cases hs : ElementName.isSensitive head.name with
          | true => rfl
          | false =>
              have hopen := Raw.Header.isOpen_iff.2 ⟨hself, hs⟩
              obtain ⟨-, hle, hend⟩ := h.1.body_bounds hopen
              have hsrc := Nat.le_trans hend hstop
              rw [joinSpaces_childPieces hle hsrc (h.2 hopen),
                contentAll_eq_draw children (h.2 hopen) hsrc]

theorem contentAll_eq_draw (ns : List Raw.Node) {start stop : Nat} (h : ChildrenFit src stop start ns)
    (hstop : stop ≤ src.length) : contentAll src ns = drawAll (unbrokenMark src) src ns := by
  cases ns with
  | nil => rfl
  | cons n ns =>
      obtain ⟨⟨-, -, h3, -⟩, hn, hns⟩ := h
      rw [drawAll, ← nodeContent_eq_draw n hn (Nat.le_trans h3 hstop), ← contentAll_eq_draw ns hns hstop]
      rfl
end

theorem ofRaw_eq_draw {tree : List Raw.Node} (h : ChildrenFit src src.length 0 tree) :
    ofRaw src tree = draw (unbrokenMark src) src tree := by
  rw [ofRaw, joinSpaces_childPieces (Nat.zero_le _) (Nat.le_refl _) h,
    contentAll_eq_draw tree h (Nat.le_refl _)]
  rfl

end OfRaw

mutual
def Node.bare : Node → Node
  | .marker position _ => .marker position false
  | .text t => .text t
  | .expression raw location => .expression raw location
  | .element tag children => .element tag (bareAll children)

def bareAll : List Node → List Node
  | [] => []
  | n :: ns => n.bare :: bareAll ns
end

def Piece.bare : Piece → Piece
  | .space _ => .space false
  | .content n => .content n.bare

def PlacedNode.bare (n : PlacedNode) : PlacedNode :=
  ⟨n.place, n.node.bare⟩

theorem bareAll_innerNodes (ps : List Piece) :
    bareAll (innerNodes ps) = innerNodes (ps.map Piece.bare) := by
  induction ps with
  | nil => rfl
  | cons p ps ih =>
      cases p with
      | content n => exact congrArg (n.bare :: ·) ih
      | space b =>
          cases ps with
          | nil => rfl
          | cons q qs => exact congrArg (Node.marker .betweenSiblings false :: ·) ih

theorem bareAll_bodyNodes (ps : List Piece) :
    bareAll (bodyNodes ps) = bodyNodes (ps.map Piece.bare) := by
  cases ps with
  | nil => rfl
  | cons p ps =>
      cases p with
      | content n => exact bareAll_innerNodes (.content n :: ps)
      | space b =>
          cases ps with
          | nil => rfl
          | cons q qs =>
              exact congrArg (Node.marker .beforeFirstChild false :: ·) (bareAll_innerNodes (q :: qs))

theorem bareAll_trailingNodes (ps : List Piece) :
    bareAll (trailingNodes ps) = trailingNodes (ps.map Piece.bare) := by
  induction ps with
  | nil => rfl
  | cons p ps ih =>
      cases p with
      | content n => exact congrArg (n.bare :: ·) ih
      | space b =>
          cases ps with
          | nil => rfl
          | cons q qs => exact congrArg (Node.marker .betweenSiblings false :: ·) ih

theorem bareAll_documentNodes (ps : List Piece) :
    bareAll (documentNodes ps) = documentNodes (ps.map Piece.bare) := by
  cases ps with
  | nil => rfl
  | cons p ps =>
      cases p with
      | content n =>
          exact congrArg (Node.marker .documentStart false :: ·) (bareAll_trailingNodes (.content n :: ps))
      | space b => exact congrArg (Node.marker .documentStart false :: ·) (bareAll_trailingNodes ps)

theorem map_bare_weave (mark : Span → List Piece) {stop : Nat} (ns : List PlacedNode) : ∀ start,
    (weave mark start stop ns).map Piece.bare =
      weave (fun b => (mark b).map Piece.bare) start stop (ns.map PlacedNode.bare) := by
  induction ns with
  | nil => exact fun start => rfl
  | cons n ns ih =>
      intro start
      rw [weave, List.map_append, List.map_cons, ih]
      rfl

section Bare

variable (rule : List Raw.Node → Span → List Piece) (src : Source)

def bareRule (ns : List Raw.Node) (b : Span) : List Piece :=
  (rule ns b).map Piece.bare

theorem map_bare_placeText (start : Nat) (t : Bytes) :
    (placeText start t).map PlacedNode.bare = placeText start t := by
  rw [placeText]
  generalize lines t = ls
  induction ls generalizing start with
  | nil => rfl
  | cons l ls ih =>
      rw [placeLines, List.map_append, ih]
      split <;> rfl

theorem bareAll_verbatimNodes (body : Span) :
    bareAll (verbatimNodes src body) = verbatimNodes src body := by
  simp only [verbatimNodes]
  split <;> rfl

mutual
theorem map_bare_drawNode (n : Raw.Node) :
    (drawNode rule src n).map PlacedNode.bare = drawNode (bareRule rule) src n := by
  cases n with
  | comment span => rfl
  | text span => exact map_bare_placeText _ _
  | interpolation span inner => rfl
  | element span head children =>
      simp only [drawNode, List.map_cons, List.map_nil, PlacedNode.bare, Node.bare]
      split
      · rfl
      · split
        · rw [bareAll_verbatimNodes]
        · rw [bareAll_bodyNodes, map_bare_weave, map_bare_drawAll children]
          rfl

theorem map_bare_drawAll (ns : List Raw.Node) :
    (drawAll rule src ns).map PlacedNode.bare = drawAll (bareRule rule) src ns := by
  cases ns with
  | nil => rfl
  | cons n ns => rw [drawAll, List.map_append, map_bare_drawNode n, map_bare_drawAll ns, drawAll]
end

theorem bareAll_draw (tree : List Raw.Node) :
    bareAll (draw rule src tree) = draw (bareRule rule) src tree := by
  rw [draw, bareAll_documentNodes, map_bare_weave, map_bare_drawAll]
  rfl

end Bare

def shownBoundaries (start stop : Nat) (ns : List PlacedNode) : List Span :=
  (boundaries start stop ns).take (max 1 ns.length)

theorem boundaries_congr {start stop : Nat} {ns ms : List PlacedNode}
    (h : ns.map PlacedNode.place = ms.map PlacedNode.place) :
    boundaries start stop ns = boundaries start stop ms := by
  induction ns generalizing start ms with
  | nil =>
      cases ms with
      | nil => rfl
      | cons m ms => simp at h
  | cons n ns ih =>
      cases ms with
      | nil => simp at h
      | cons m ms =>
          simp only [List.map_cons, List.cons.injEq] at h
          rw [boundaries, boundaries, h.1, ih h.2]

theorem eq_of_places {ns ms : List PlacedNode}
    (hplace : ns.map PlacedNode.place = ms.map PlacedNode.place)
    (hnode : ns.map PlacedNode.node = ms.map PlacedNode.node) : ns = ms := by
  induction ns generalizing ms with
  | nil =>
      cases ms with
      | nil => rfl
      | cons m ms => simp at hplace
  | cons n ns ih =>
      cases ms with
      | nil => simp at hplace
      | cons m ms =>
          simp only [List.map_cons, List.cons.injEq] at hplace hnode
          obtain ⟨place, node⟩ := n
          obtain ⟨place', node'⟩ := m
          rw [ih hplace.2 hnode.2, show place = place' from hplace.1, show node = node' from hnode.1]

theorem Lone.eq_of_nodes {ps qs : List Piece} (hp : Lone ps) (hq : Lone qs) {position : Position}
    (h : ps.map (Piece.node position) = qs.map (Piece.node position)) : ps = qs := by
  rcases hp with rfl | ⟨b, rfl⟩ <;> rcases hq with rfl | ⟨c, rfl⟩ <;> simp_all [Piece.node]

theorem Lone.eq_of_anyBlank {ps qs : List Piece} (hp : Lone ps) (hq : Lone qs)
    (hnil : ps = [] ↔ qs = []) (h : anyBlank ps = anyBlank qs) : ps = qs := by
  rcases hp with rfl | ⟨b, rfl⟩ <;> rcases hq with rfl | ⟨c, rfl⟩ <;> simp_all [anyBlank]

section Bodies

variable {mark mark' : Span → List Piece} (hmark : ∀ b, Lone (mark b)) (hmark' : ∀ b, Lone (mark' b))
  {start stop : Nat}
include hmark hmark'

theorem trailingNodes_weave_congr (ns : List PlacedNode) : ∀ start,
    (∀ b ∈ (boundaries start stop ns).take ns.length, mark b = mark' b) →
    trailingNodes (weave mark start stop ns) = trailingNodes (weave mark' start stop ns) := by
  induction ns with
  | nil =>
      intro start _
      rw [weave, weave, trailingNodes_mark hmark, trailingNodes_mark hmark']
  | cons n ns ih =>
      intro start h
      rw [boundaries, List.length_cons, List.take_succ_cons, List.forall_mem_cons] at h
      rw [weave, weave, trailingNodes_mark_append hmark, trailingNodes_mark_append hmark', h.1,
        ih _ h.2]

theorem documentNodes_weave_congr {ns : List PlacedNode}
    (h : ∀ b ∈ shownBoundaries start stop ns, mark b = mark' b) :
    documentNodes (weave mark start stop ns) = documentNodes (weave mark' start stop ns) := by
  cases ns with
  | nil => rw [weave, weave, h _ List.mem_cons_self]
  | cons n ns =>
      have hlen : max 1 (n :: ns).length = ns.length + 1 := Nat.max_eq_right (by simp)
      rw [shownBoundaries, hlen, boundaries, List.take_succ_cons, List.forall_mem_cons] at h
      rw [weave, weave, documentNodes_mark_append hmark, documentNodes_mark_append hmark', h.1,
        trailingNodes_weave_congr hmark hmark' ns _ h.2]

variable {ns ms : List PlacedNode} (hplace : ns.map PlacedNode.place = ms.map PlacedNode.place)
  (hns : ∀ n ∈ ns, n.node.isMarker = false) (hms : ∀ n ∈ ms, n.node.isMarker = false)
include hplace hns hms

theorem bodyNodes_weave_eq_iff :
    bodyNodes (weave mark start stop ns) = bodyNodes (weave mark' start stop ms) ↔
      ns = ms ∧ ∀ b ∈ boundaries start stop ns, mark b = mark' b := by
  constructor
  · intro h
    have hnode : ns.map PlacedNode.node = ms.map PlacedNode.node := by
      have := congrArg solids h
      rwa [solids_bodyNodes (solid_weave hmark hns), solids_bodyNodes (solid_weave hmark' hms),
        contents_weave hmark, contents_weave hmark'] at this
    obtain rfl := eq_of_places hplace hnode
    refine ⟨rfl, fun b hb => ?_⟩
    obtain ⟨i, hi⟩ := List.mem_iff_getElem?.1 hb
    have := congrArg (fun d => (markerGroups d)[i]?) h
    simp only [markerGroups_bodyNodes hmark _ _ hns, markerGroups_bodyNodes hmark' _ _ hns,
      List.getElem?_mapIdx, hi, Option.map_some, Option.some.injEq] at this
    exact (hmark b).eq_of_nodes (hmark' b) this
  · rintro ⟨rfl, h⟩
    rw [weave_congr ns h]

theorem documentNodes_weave_eq_iff (hnil : ∀ b, mark b = [] ↔ mark' b = []) :
    documentNodes (weave mark start stop ns) = documentNodes (weave mark' start stop ms) ↔
      ns = ms ∧ ∀ b ∈ shownBoundaries start stop ns, mark b = mark' b := by
  constructor
  · intro h
    have hnode : ns.map PlacedNode.node = ms.map PlacedNode.node := by
      have := congrArg solids h
      rwa [solids_documentNodes (solid_weave hmark hns), solids_documentNodes (solid_weave hmark' hms),
        contents_weave hmark, contents_weave hmark'] at this
    obtain rfl := eq_of_places hplace hnode
    refine ⟨rfl, fun b hb => ?_⟩
    obtain ⟨i, hi⟩ := List.mem_iff_getElem?.1 hb
    rw [shownBoundaries, List.getElem?_take] at hi
    obtain ⟨hlen, hi⟩ : i < max 1 ns.length ∧ (boundaries start stop ns)[i]? = some b := by
      split at hi
      · exact ⟨by assumption, hi⟩
      · cases hi
    have := congrArg (fun d => (markerGroups d)[i]?) h
    simp only [markerGroups_documentNodes hmark _ _ hns, markerGroups_documentNodes hmark' _ _ hns,
      List.getElem?_mapIdx, hi, Option.map_some, Option.some.injEq] at this
    by_cases h0 : i = 0
    · rw [if_pos h0, if_pos h0] at this
      exact (hmark b).eq_of_anyBlank (hmark' b) (hnil b) (by simpa using this)
    · have hlt : i ≠ ns.length := by omega
      rw [if_neg h0, if_neg h0, if_neg hlt, if_neg hlt] at this
      exact (hmark b).eq_of_nodes (hmark' b) this
  · rintro ⟨rfl, h⟩
    exact documentNodes_weave_congr hmark hmark' h

end Bodies

section Places

variable (rule rule' : List Raw.Node → Span → List Piece) (src : Source)

theorem drawNode_places (n : Raw.Node) :
    (drawNode rule src n).map PlacedNode.place = (drawNode rule' src n).map PlacedNode.place := by
  cases n <;> rfl

theorem drawAll_places (ns : List Raw.Node) :
    (drawAll rule src ns).map PlacedNode.place = (drawAll rule' src ns).map PlacedNode.place := by
  induction ns with
  | nil => rfl
  | cons n ns ih =>
      rw [drawAll, drawAll, List.map_append, List.map_append, ih, drawNode_places rule rule' src]

theorem contentAll_places (ns : List Raw.Node) :
    (contentAll src ns).map PlacedNode.place = (drawAll rule src ns).map PlacedNode.place := by
  induction ns with
  | nil => rfl
  | cons n ns ih =>
      have hn : (nodeContent src n).map PlacedNode.place = (drawNode rule src n).map PlacedNode.place := by
        cases n <;> rfl
      rw [drawAll, List.map_append, ← hn, ← ih, ← List.map_append]
      rfl

variable {rule rule' src}

theorem drawAll_solid {ns : List Raw.Node} : ∀ p ∈ drawAll rule src ns, p.node.isMarker = false := by
  induction ns with
  | nil => simp [drawAll]
  | cons n ns ih =>
      intro p hp
      rw [drawAll, List.mem_append] at hp
      refine hp.elim (fun hp => ?_) (ih p)
      cases n with
      | comment span => cases hp
      | text span => exact nodeContent_solid (n := .text span) hp
      | interpolation span inner => exact nodeContent_solid (n := .interpolation span inner) hp
      | element span head children =>
          rw [drawNode, List.mem_singleton] at hp
          rw [hp]
          rfl

def Agree (rule rule' : List Raw.Node → Span → List Piece) (src : Source) : Raw.Node → Prop
  | .element _ head children =>
      head.isOpen = true →
        ∀ b ∈ boundaries head.body.start head.body.stop (contentAll src children),
          rule children b = rule' children b
  | .text _ => True
  | .comment _ => True
  | .interpolation _ _ => True

mutual
theorem drawNode_eq_iff (hrule : ∀ ns b, Lone (rule ns b)) (hrule' : ∀ ns b, Lone (rule' ns b))
    (n : Raw.Node) :
    drawNode rule src n = drawNode rule' src n ↔ ∀ m ∈ n.exposed, Agree rule rule' src m := by
  cases n with
  | comment span => simp [drawNode, Raw.Node.exposed, Agree]
  | text span => simp [drawNode, Raw.Node.exposed, Agree]
  | interpolation span inner => simp [drawNode, Raw.Node.exposed, Agree]
  | element span head children =>
      cases hopen : head.isOpen with
      | false =>
          -- no rule is asked about an element whose children are not looked at
          have hnodes : ∀ ns : List Node, (if head.selfClosing = true then []
              else if ElementName.isSensitive head.name = true then verbatimNodes src head.body
              else ns) = if head.selfClosing = true then [] else verbatimNodes src head.body := by
            intro ns
            cases hself : head.selfClosing with
            | true => rfl
            | false =>
                simp only [Raw.Header.isOpen, hself, Bool.not_false, Bool.true_and,
                  Bool.not_eq_false'] at hopen
                simp [hopen]
          simp [drawNode, hnodes, Raw.Node.exposed, Agree, hopen]
      | true =>
          obtain ⟨hself, hs⟩ := Raw.Header.isOpen_iff.1 hopen
          have hkids := drawAll_eq_iff hrule hrule' children
          have hbody := fun start stop => @bodyNodes_weave_eq_iff _ _ (hrule children) (hrule' children)
            start stop _ _ (drawAll_places rule rule' src children) drawAll_solid drawAll_solid
          simp [drawNode, hself, hs, Raw.Node.exposed, hopen, Agree, hbody, hkids, and_comm,
            boundaries_congr (contentAll_places rule src children)]

theorem drawAll_eq_iff (hrule : ∀ ns b, Lone (rule ns b)) (hrule' : ∀ ns b, Lone (rule' ns b))
    (ns : List Raw.Node) :
    drawAll rule src ns = drawAll rule' src ns ↔ ∀ m ∈ Raw.exposedAll ns, Agree rule rule' src m := by
  cases ns with
  | nil => simp [drawAll, Raw.exposedAll]
  | cons n ns =>
      -- how much content a node gives does not depend on the rule, so the lists part at one place
      have hlen : (drawNode rule src n).length = (drawNode rule' src n).length := by
        have := congrArg List.length (drawNode_places rule rule' src n)
        rwa [List.length_map, List.length_map] at this
      have happend : drawNode rule src n ++ drawAll rule src ns =
          drawNode rule' src n ++ drawAll rule' src ns ↔
            drawNode rule src n = drawNode rule' src n ∧ drawAll rule src ns = drawAll rule' src ns :=
        ⟨fun h => List.append_inj h hlen, fun h => by rw [h.1, h.2]⟩
      rw [drawAll, drawAll, Raw.exposedAll, happend, drawNode_eq_iff hrule hrule' n,
        drawAll_eq_iff hrule hrule' ns, List.forall_mem_append]
end

theorem draw_eq_iff (hrule : ∀ ns b, Lone (rule ns b)) (hrule' : ∀ ns b, Lone (rule' ns b))
    (hnil : ∀ ns b, rule ns b = [] ↔ rule' ns b = []) (tree : List Raw.Node) :
    draw rule src tree = draw rule' src tree ↔
      (∀ b ∈ shownBoundaries 0 src.length (contentAll src tree), rule tree b = rule' tree b) ∧
        ∀ n ∈ Raw.exposedAll tree, Agree rule rule' src n := by
  have hplace := drawAll_places rule rule' src tree
  rw [draw, draw, documentNodes_weave_eq_iff (hrule tree) (hrule' tree) hplace drawAll_solid
    drawAll_solid (hnil tree), drawAll_eq_iff hrule hrule', shownBoundaries, shownBoundaries,
    boundaries_congr (contentAll_places rule src tree), and_comm]
  have hlen : (contentAll src tree).length = (drawAll rule src tree).length := by
    have := congrArg List.length (contentAll_places rule src tree)
    rwa [List.length_map, List.length_map] at this
  rw [hlen]

end Places

end MarkupFormat.Document
