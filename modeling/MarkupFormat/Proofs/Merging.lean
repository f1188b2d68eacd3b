import MarkupFormat.Layout.Tree
import MarkupFormat.Proofs.Bodies

namespace MarkupFormat.Document

open Bytes Layout

def asPiece : Node → Piece
  | .marker _ b => .space b
  | n => .content n

def asPieces (ns : List Node) : List Piece :=
  ns.map asPiece

theorem asPiece_solid {n : Node} (h : n.isMarker = false) : asPiece n = .content n := by
  cases n <;> first | rfl | cases h

theorem asPiece_node {p : Piece} {pos : Position} (h : ∀ n, p = .content n → n.isMarker = false) :
    asPiece (p.node pos) = p := by
  cases p with
  | space b => rfl
  | content n => exact asPiece_solid (h n rfl)

theorem isSpace_asPiece (n : Node) : (asPiece n).isSpace = n.isMarker := by
  cases n <;> rfl

def Settled (ns : List Node) : Prop :=
  bodyNodes (asPieces ns) = ns

theorem asPieces_bodyNodes {ps : List Piece} (h : Solid ps) : asPieces (bodyNodes ps) = ps := by
  refine List.ext_getElem? fun i => ?_
  rw [asPieces, List.getElem?_map, getElem?_bodyNodes]
  cases hp : ps[i]? with
  | none => rfl
  | some p => simp [asPiece_node (h.of_getElem? hp)]

theorem settled_bodyNodes {ps : List Piece} (h : Solid ps) : Settled (bodyNodes ps) := by
  rw [Settled, asPieces_bodyNodes h]

theorem apart_asPieces {ns : List Node} : Apart (asPieces ns) ↔ MarkersApart ns := by
  simp only [Apart, MarkersApart, asPieces, List.isChain_map, isSpace_asPiece]

def InnerSettled (ns : List Node) : Prop :=
  innerNodes (asPieces ns) = ns

theorem innerSettled_cons {n : Node} {ns : List Node} :
    InnerSettled (n :: ns) ↔
      (∀ p b, n = .marker p b → p = if ns = [] then .beforeClosingTag else .betweenSiblings) ∧
        InnerSettled ns := by
  simp only [InnerSettled, asPieces, List.map_cons]
  cases n with
  | marker p b =>
      cases ns with
      | nil => simp [asPiece, innerNodes, eq_comm]
      | cons m ms => simp [asPiece, innerNodes, eq_comm]
  | text t => simp [asPiece, innerNodes]
  | expression raw location => simp [asPiece, innerNodes]
  | element tag children => simp [asPiece, innerNodes]

theorem settled_cons {n : Node} {ns : List Node} :
    Settled (n :: ns) ↔
      if n.isMarker = true ∧ ns ≠ [] then
        (∀ p b, n = .marker p b → p = .beforeFirstChild) ∧ InnerSettled ns
      else InnerSettled (n :: ns) := by
  cases n with
  | marker p b =>
      cases ns with
      | nil => exact Iff.rfl
      | cons m ms =>
          have hbody : bodyNodes (asPieces (.marker p b :: m :: ms)) =
              .marker .beforeFirstChild b :: innerNodes (asPieces (m :: ms)) := rfl
          rw [Settled, hbody, if_pos ⟨rfl, by simp⟩, List.cons.injEq]
          simp [InnerSettled, eq_comm]
  | text t => exact Iff.rfl
  | expression raw location => exact Iff.rfl
  | element tag children => exact Iff.rfl

def consNode : Node → List Node → List Node
  | .text a, .text b :: ns => .text (a ++ b) :: ns
  | n, ns => n :: ns

mutual
def Node.merged : Node → Node
  | .marker position blank => .marker position blank
  | .text t => .text t
  | .expression raw location => .expression raw location
  | .element tag children => .element tag (mergedAll children)

def mergedAll : List Node → List Node
  | [] => []
  | n :: ns => consNode n.merged (mergedAll ns)
end

theorem consNode_solid {n : Node} (h : ∀ t, n ≠ .text t) (ns : List Node) :
    consNode n ns = n :: ns := by
  cases n with
  | text t => exact absurd rfl (h t)
  | marker p b => rfl
  | expression raw location => rfl
  | element tag children => rfl

theorem consNode_nil (n : Node) : consNode n [] = [n] := by
  cases n <;> rfl

theorem consNode_cases (n : Node) (ns : List Node) :
    consNode n ns = n :: ns ∨
      ∃ a b ms, n = .text a ∧ ns = .text b :: ms ∧ consNode n ns = .text (a ++ b) :: ms := by
  cases n with
  | text a =>
      cases ns with
      | nil => exact .inl rfl
      | cons m ms =>
          cases m with
          | text b => exact .inr ⟨a, b, ms, rfl, rfl, rfl⟩
          | marker p b => exact .inl rfl
          | expression raw location => exact .inl rfl
          | element tag children => exact .inl rfl
  | marker p b => exact .inl rfl
  | expression raw location => exact .inl rfl
  | element tag children => exact .inl rfl

theorem mergedAll_eq_nil {ns : List Node} : mergedAll ns = [] ↔ ns = [] := by
  cases ns with
  | nil => simp [mergedAll]
  | cons n ns =>
      rw [mergedAll]
      rcases consNode_cases n.merged (mergedAll ns) with h | ⟨a, b, ms, -, -, h⟩ <;> simp [h]

theorem isMarker_merged (n : Node) : n.merged.isMarker = n.isMarker := by
  cases n <;> rfl

theorem merged_marker {n : Node} {p : Position} {b : Bool} (h : n.merged = .marker p b) :
    n = .marker p b := by
  cases n with
  | marker q c => simpa [Node.merged] using h
  | text t => cases h
  | expression raw location => cases h
  | element tag children => cases h

theorem merged_text {n : Node} {t : Bytes} (h : n.merged = .text t) : n = .text t := by
  cases n with
  | marker q c => cases h
  | text u => simpa [Node.merged] using h
  | expression raw location => cases h
  | element tag children => cases h

theorem forall_mergedAll {P : Node → Prop} {ns : List Node} (hn : ∀ n ∈ ns, P n.merged)
    (ht : ∀ a b, P (.text a) → P (.text b) → P (.text (a ++ b))) : ∀ n ∈ mergedAll ns, P n := by
  induction ns with
  | nil => simp [mergedAll]
  | cons m ms ih =>
      have hms := ih fun n h => hn n (by simp [h])
      have hm := hn m (by simp)
      rw [mergedAll]
      rcases consNode_cases m.merged (mergedAll ms) with h | ⟨a, b, ks, hma, hks, h⟩
      · rw [h]
        exact List.forall_mem_cons.2 ⟨hm, hms⟩
      · rw [h]
        rw [hks, List.forall_mem_cons] at hms
        exact List.forall_mem_cons.2 ⟨ht a b (hma ▸ hm) hms.1, hms.2⟩

def Node.isText : Node → Bool
  | .text _ => true
  | _ => false

def TextsApart (ns : List Node) : Prop :=
  ns.IsChain fun m n => ¬(m.isText = true ∧ n.isText = true)

theorem textsApart_consNode {n : Node} {ns : List Node} (h : TextsApart ns) :
    TextsApart (consNode n ns) := by
  cases ns with
  | nil =>
      rcases consNode_cases n [] with hc | ⟨a, b, ms, -, hn, -⟩
      · rw [hc]
        exact .singleton _
      · cases hn
  | cons m ms =>
      rcases consNode_cases n (m :: ms) with hc | ⟨a, b, ks, rfl, hm, hc⟩
      · rw [hc]
        refine List.isChain_cons_cons.2 ⟨?_, h⟩
        rintro ⟨hn, hm⟩
        cases n <;> cases hn
        cases m <;> cases hm
        simp [consNode] at hc
      · cases hm
        rw [hc]
        cases ms with
        | nil => exact .singleton _
        | cons k ks => exact List.isChain_cons_cons.2 (List.isChain_cons_cons.1 h)

theorem textsApart_mergedAll (ns : List Node) : TextsApart (mergedAll ns) := by
  induction ns with
  | nil => exact .nil
  | cons n ns ih => exact textsApart_consNode ih

theorem mergedAll_eq_self {ns : List Node} (ht : TextsApart ns) (h : ∀ n ∈ ns, n.merged = n) :
    mergedAll ns = ns := by
  induction ns with
  | nil => rfl
  | cons n ns ih =>
      rw [List.forall_mem_cons] at h
      rw [mergedAll, h.1, ih (List.IsChain.tail ht) h.2]
      rcases consNode_cases n ns with hc | ⟨a, b, ms, rfl, rfl, -⟩
      · exact hc
      · exact absurd ⟨rfl, rfl⟩ (List.isChain_cons_cons.1 ht).1

mutual
theorem merged_merged (n : Node) : n.merged.merged = n.merged := by
  cases n with
  | marker p b => rfl
  | text t => rfl
  | expression raw location => rfl
  | element tag children => rw [Node.merged, Node.merged, mergedAll_mergedAll children]

theorem mergedAll_mergedAll (ns : List Node) : mergedAll (mergedAll ns) = mergedAll ns :=
  mergedAll_eq_self (textsApart_mergedAll ns)
    (forall_mergedAll (fun n _ => merged_merged n) fun _ _ _ _ => rfl)
end

theorem markersApart_mergedAll {ns : List Node} (h : MarkersApart ns) :
    MarkersApart (mergedAll ns) := by
  induction ns with
  | nil => exact .nil
  | cons n ns ih =>
      have ih := ih (List.IsChain.tail h)
      rw [mergedAll]
      rcases consNode_cases n.merged (mergedAll ns) with hc | ⟨a, b, ks, -, hk, hc⟩
      · rw [hc]
        cases ns with
        | nil => exact .singleton _
        | cons m ms =>
            -- the first node stays a marker, or no marker
            obtain ⟨k, ks, hk, hkm⟩ : ∃ k ks, mergedAll (m :: ms) = k :: ks ∧
                k.isMarker = m.isMarker := by
              rw [mergedAll]
              rcases consNode_cases m.merged (mergedAll ms) with hc | ⟨a, b, ks, hm, -, hc⟩
              · exact ⟨_, _, hc, isMarker_merged m⟩
              · refine ⟨_, _, hc, ?_⟩
                rw [merged_text hm]
                rfl
            rw [hk] at ih ⊢
            refine List.isChain_cons_cons.2 ⟨?_, ih⟩
            rw [isMarker_merged, hkm]
            exact (List.isChain_cons_cons.1 h).1
      · rw [hc]
        rw [hk] at ih
        cases ks with
        | nil => exact .singleton _
        | cons k ks => exact List.isChain_cons_cons.2 (List.isChain_cons_cons.1 ih)

theorem getLast?_mergedAll (ns : List Node) :
    (mergedAll ns).getLast?.map Node.isMarker = ns.getLast?.map Node.isMarker := by
  induction ns with
  | nil => rfl
  | cons n ns ih =>
      cases ns with
      | nil => simp [mergedAll, consNode_nil, isMarker_merged]
      | cons m ms =>
          rw [List.getLast?_cons_cons, ← ih, mergedAll]
          have hne : mergedAll (m :: ms) ≠ [] := by simp [mergedAll_eq_nil]
          rcases consNode_cases n.merged (mergedAll (m :: ms)) with hc | ⟨a, b, ks, -, hk, hc⟩
          · rw [hc]
            cases hk : mergedAll (m :: ms) with
            | nil => exact absurd hk hne
            | cons k ks => rw [List.getLast?_cons_cons]
          · rw [hc, hk]
            cases ks with
            | nil => rfl
            | cons k ks => rw [List.getLast?_cons_cons, List.getLast?_cons_cons]

theorem head?_mergedAll (ns : List Node) :
    (mergedAll ns).head?.map Node.isMarker = ns.head?.map Node.isMarker := by
  cases ns with
  | nil => rfl
  | cons n ns =>
      rw [mergedAll]
      rcases consNode_cases n.merged (mergedAll ns) with hc | ⟨a, b, ks, hn, -, hc⟩
      · rw [hc]
        simp [isMarker_merged]
      · rw [hc, merged_text hn]
        rfl

theorem marker_mem_mergedAll {ns : List Node} {p : Position} {b : Bool}
    (h : Node.marker p b ∈ mergedAll ns) : Node.marker p b ∈ ns := by
  refine forall_mergedAll (P := fun n => n = .marker p b → n ∈ ns) (fun n hn hm => ?_) ?_ _ h rfl
  · rw [hm, ← merged_marker hm]
    exact hn
  · intro a b _ _ hm
    cases hm

theorem innerSettled_mergedAll {ns : List Node} (h : InnerSettled ns) :
    InnerSettled (mergedAll ns) := by
  induction ns with
  | nil => exact h
  | cons n ns ih =>
      obtain ⟨hn, hns⟩ := innerSettled_cons.1 h
      have ih := ih hns
      rw [mergedAll]
      rcases consNode_cases n.merged (mergedAll ns) with hc | ⟨a, b, ks, -, hk, hc⟩
      · rw [hc]
        refine innerSettled_cons.2 ⟨?_, ih⟩
        intro p b hp
        simp only [mergedAll_eq_nil]
        exact hn p b (merged_marker hp)
      · rw [hc]
        rw [hk] at ih
        exact innerSettled_cons.2 ⟨by simp, (innerSettled_cons.1 ih).2⟩

theorem settled_mergedAll {ns : List Node} (h : Settled ns) : Settled (mergedAll ns) := by
  cases ns with
  | nil => exact h
  | cons n ns =>
      rw [settled_cons] at h
      split at h
      · next hm =>
          obtain ⟨hp, hns⟩ := h
          have hc : consNode n.merged (mergedAll ns) = n.merged :: mergedAll ns := by
            refine consNode_solid ?_ _
            rintro t ht
            rw [merged_text ht] at hm
            cases hm.1
          rw [mergedAll, hc, settled_cons, isMarker_merged, if_pos ⟨hm.1, by simp [mergedAll_eq_nil, hm.2]⟩]
          exact ⟨fun p b hn => hp p b (merged_marker hn), innerSettled_mergedAll hns⟩
      · next hm =>
          have hi := innerSettled_mergedAll h
          rw [mergedAll] at hi ⊢
          rcases consNode_cases n.merged (mergedAll ns) with hc | ⟨a, b, ks, -, -, hc⟩
          · rw [hc] at hi ⊢
            rw [settled_cons, isMarker_merged, if_neg (by simpa [mergedAll_eq_nil] using hm)]
            exact hi
          · rw [hc] at hi ⊢
            rw [settled_cons, if_neg (by simp [Node.isMarker])]
            exact hi

mutual
theorem verbatim_merged (n : Node) : verbatim n.merged = verbatim n := by
  cases n with
  | marker p b => rfl
  | text t => rfl
  | expression raw location => rfl
  | element tag children => rw [Node.merged, verbatim, verbatim, verbatimAll_mergedAll children]

theorem verbatimAll_mergedAll (ns : List Node) : verbatimAll (mergedAll ns) = verbatimAll ns := by
  cases ns with
  | nil => rfl
  | cons n ns =>
      rw [mergedAll, verbatimAll, ← verbatim_merged n, ← verbatimAll_mergedAll ns]
      rcases consNode_cases n.merged (mergedAll ns) with hc | ⟨a, b, ks, ha, hb, hc⟩
      · rw [hc, verbatimAll]
      · rw [hc, ha, hb]
        simp [verbatimAll, verbatim]
end

mutual
theorem layoutNode_merged (ctx : Context) (depth : Nat) (n : Node) :
    layoutNode ctx depth n.merged = layoutNode ctx depth n := by
  cases n with
  | marker p b => rfl
  | text t => rfl
  | expression raw location => rfl
  | element tag children =>
      rw [Node.merged, layoutNode, layoutNode, verbatimAll_mergedAll,
        layoutChildren_mergedAll ctx depth children]

theorem layoutChildren_mergedAll (ctx : Context) (depth : Nat) (ns : List Node) :
    layoutChildren ctx depth (mergedAll ns) = layoutChildren ctx depth ns := by
  cases ns with
  | nil => rfl
  | cons n ns =>
      have hdepth : childDepth depth n.merged = childDepth depth n := by cases n <;> rfl
      rw [mergedAll, layoutChildren, ← layoutNode_merged ctx _ n, ← layoutChildren_mergedAll ctx depth ns]
      rcases consNode_cases n.merged (mergedAll ns) with hc | ⟨a, b, ks, ha, hb, hc⟩
      · rw [hc, layoutChildren, hdepth]
      · rw [hc, ha, hb]
        simp [layoutChildren, layoutNode]
end

theorem layoutTop_eq {ctx : Context} {n : Node} (h : ∀ b, n ≠ .marker .documentStart b) :
    layoutTop ctx n = layoutNode ctx 0 n := by
  cases n with
  | marker p b =>
      cases p with
      | documentStart => exact absurd rfl (h b)
      | beforeFirstChild => rfl
      | betweenSiblings => rfl
      | beforeClosingTag => rfl
  | text t => rfl
  | expression raw location => rfl
  | element tag children => rfl

theorem layoutTop_cases (n : Node) :
    (∃ b, n = .marker .documentStart b) ∨ ∀ ctx, layoutTop ctx n = layoutNode ctx 0 n := by
  by_cases h : ∃ b, n = .marker .documentStart b
  · exact .inl h
  · exact .inr fun _ => layoutTop_eq (not_exists.1 h)

theorem layoutTop_merged (ctx : Context) (n : Node) : layoutTop ctx n.merged = layoutTop ctx n := by
  cases n with
  | element tag children => exact layoutNode_merged ctx 0 (.element tag children)
  | marker p b => rfl
  | text t => rfl
  | expression raw location => rfl

theorem flatMap_mergedAll (ctx : Context) (ns : List Node) :
    (mergedAll ns).flatMap (layoutTop ctx) = ns.flatMap (layoutTop ctx) := by
  induction ns with
  | nil => rfl
  | cons n ns ih =>
      rw [mergedAll, List.flatMap_cons, ← ih, ← layoutTop_merged]
      rcases consNode_cases n.merged (mergedAll ns) with hc | ⟨a, b, ks, ha, hb, hc⟩
      · rw [hc, List.flatMap_cons]
      · rw [hc, ha, hb]
        simp [layoutTop, layoutNode]

theorem all_isMarker_mergedAll (ns : List Node) :
    (mergedAll ns).all Node.isMarker = ns.all Node.isMarker := by
  induction ns with
  | nil => rfl
  | cons n ns ih =>
      rw [mergedAll, List.all_cons, ← ih, ← isMarker_merged]
      rcases consNode_cases n.merged (mergedAll ns) with hc | ⟨a, b, ks, ha, -, hc⟩
      · rw [hc, List.all_cons]
      · rw [hc, ha]
        rfl

theorem layout_mergedAll (ctx : Context) (ns : List Node) :
    layout ctx (mergedAll ns) = layout ctx ns := by
  rw [layout, layout, all_isMarker_mergedAll, flatMap_mergedAll]

end MarkupFormat.Document
