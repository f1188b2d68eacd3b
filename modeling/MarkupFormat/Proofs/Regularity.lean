import MarkupFormat.Document.OfRaw
import MarkupFormat.Proofs.Bodies

namespace MarkupFormat.Document

open Bytes

mutual
def Node.elements : Node → List (Tag × List Node)
  | .marker _ _ => []
  | .text _ => []
  | .expression _ _ => []
  | .element tag children => (tag, children) :: elementsIn children

def elementsIn : List Node → List (Tag × List Node)
  | [] => []
  | n :: ns => n.elements ++ elementsIn ns
end

theorem mem_elementsIn {e : Tag × List Node} {ns : List Node} :
    e ∈ elementsIn ns ↔ ∃ n ∈ ns, e ∈ n.elements := by
  induction ns with
  | nil => simp [elementsIn]
  | cons n ns ih => simp [elementsIn, ih]

end MarkupFormat.Document

namespace MarkupFormat.Raw

structure Element where
  span : Span
  head : Header
  children : List Node

mutual
def Node.elements : Node → List Element
  | .text _ => []
  | .comment _ => []
  | .interpolation _ _ => []
  | .element span head children => ⟨span, head, children⟩ :: elementsIn children

def elementsIn : List Node → List Element
  | [] => []
  | n :: ns => n.elements ++ elementsIn ns
end

def uncommented (src : Source) (cursor stop : Nat) : List Node → Bytes
  | [] => src.slice cursor stop
  | n :: ns =>
      src.slice cursor n.span.start
        ++ (match n with
          | .comment _ => []
          | n => src.slice n.span.start n.span.stop)
        ++ uncommented src n.span.stop stop ns

end MarkupFormat.Raw

namespace MarkupFormat.Document

open Bytes

structure Reflects (src : Source) (raw : Raw.Element) (tag : Tag) (children : List Node) : Prop where
  tag_eq : tag = Tag.ofRaw src raw.span raw.head
  sensitive : tag.sensitive = ElementName.isSensitive tag.name
  selfClosed : tag.selfClosing = true → children = []
  verbatim : tag.selfClosing = false → tag.sensitive = true →
    children =
      if src.slice raw.head.body.start raw.head.body.stop = [] then []
      else [.text (src.slice raw.head.body.start raw.head.body.stop)]
  body : tag.selfClosing = false → tag.sensitive = false → Body children
  blankBody : tag.selfClosing = false → tag.sensitive = false →
    (∀ n ∈ children, n.isMarker = true) →
    Raw.uncommented src raw.head.body.start raw.head.body.stop raw.children ≠ [] →
    ∃ b, children = [.marker .beforeClosingTag b]

structure Regular (src : Source) (tree : List Raw.Node) (doc : List Node) : Prop where
  top : TopLevel doc
  elements : ∀ e ∈ elementsIn doc, ∃ raw ∈ Raw.elementsIn tree, Reflects src raw e.1 e.2

section Pieces

variable (src : Source)

theorem content_mem_childPieces {n : Node} {cursor stop : Nat} {tree : List Raw.Node} :
    Piece.content n ∈ childPieces src cursor stop tree ↔
      ∃ r ∈ tree, Piece.content n ∈ nodePieces src r := by
  induction tree generalizing cursor with
  | nil => simp [childPieces, content_mem_spacePieces]
  | cons r tree ih => simp [childPieces, content_mem_spacePieces, ih]

theorem solid_nodePieces (r : Raw.Node) : Solid (nodePieces src r) := by
  cases r with
  | comment span =>
      intro n hn
      simp [nodePieces] at hn
  | text span =>
      intro n hn
      rw [nodePieces] at hn
      obtain ⟨t, rfl⟩ := content_of_mem_linePieces _ _ hn
      rfl
  | interpolation span inner =>
      intro n hn
      simp only [nodePieces, List.mem_singleton, Piece.content.injEq] at hn
      rw [hn]
      rfl
  | element span head children =>
      intro n hn
      simp only [nodePieces, List.mem_singleton, Piece.content.injEq] at hn
      rw [hn]
      rfl

theorem lined_nodePieces (r : Raw.Node) : Lined (nodePieces src r) := by
  intro t ht
  cases r with
  | comment span => simp [nodePieces] at ht
  | text span =>
      rw [nodePieces] at ht
      exact isLine_of_mem_linePieces _ _ _ (.inl rfl) ht
  | interpolation span inner => simp [nodePieces] at ht
  | element span head children => simp [nodePieces] at ht

theorem solid_childPieces (cursor stop : Nat) (tree : List Raw.Node) :
    Solid (joinSpaces (childPieces src cursor stop tree)) := by
  intro n hn
  rw [content_mem_joinSpaces, content_mem_childPieces] at hn
  obtain ⟨r, -, hr⟩ := hn
  exact solid_nodePieces src r n hr

theorem lined_childPieces (cursor stop : Nat) (tree : List Raw.Node) :
    Lined (joinSpaces (childPieces src cursor stop tree)) := by
  intro t ht
  rw [content_mem_joinSpaces, content_mem_childPieces] at ht
  obtain ⟨r, -, hr⟩ := ht
  exact lined_nodePieces src r t hr

theorem uncommented_eq_nil (stop : Nat) (tree : List Raw.Node) : ∀ cursor,
    childPieces src cursor stop tree = [] → Raw.uncommented src cursor stop tree = [] := by
  induction tree with
  | nil =>
      intro cursor h
      simpa [childPieces, spacePieces_eq_nil, Raw.uncommented] using h
  | cons r tree ih =>
      intro cursor h
      simp only [childPieces, List.append_eq_nil_iff, spacePieces_eq_nil] at h
      obtain ⟨⟨hgap, hr⟩, hrest⟩ := h
      simp only [Raw.uncommented, hgap, ih _ hrest, List.nil_append, List.append_nil]
      cases r with
      | comment span => rfl
      | text span =>
          rw [nodePieces] at hr
          exact (linePieces_eq_nil _ _ hr).2
      | interpolation span inner => simp [nodePieces] at hr
      | element span head children => simp [nodePieces] at hr

theorem bodyNodes_of_markers {ps : List Piece} (hs : Solid ps) (ha : Apart ps) (hne : ps ≠ [])
    (hm : ∀ n ∈ bodyNodes ps, n.isMarker = true) : ∃ b, bodyNodes ps = [.marker .beforeClosingTag b] := by
  cases ps with
  | nil => exact absurd rfl hne
  | cons p qs =>
      cases p with
      | content n =>
          have := hm n (by simp [bodyNodes, innerNodes])
          rw [hs n (by simp)] at this
          cases this
      | space b =>
          cases qs with
          | nil => exact ⟨b, rfl⟩
          | cons q qs =>
              obtain ⟨n, hn, hnm⟩ := content_next hs ha (i := 0) (b := b) rfl (by simp)
              rw [hm n (List.mem_of_getElem? hn)] at hnm
              cases hnm

theorem reflects_ofRaw (span : Span) (head : Raw.Header) (children : List Raw.Node) :
    Reflects src ⟨span, head, children⟩ (Tag.ofRaw src span head)
      (if head.selfClosing then []
        else if ElementName.isSensitive head.name then verbatimNodes src head.body
        else bodyNodes (joinSpaces (childPieces src head.body.start head.body.stop children))) where
  tag_eq := rfl
  sensitive := rfl
  selfClosed := by
    intro h
    exact if_pos h
  verbatim := by
    intro h hs
    have h' : ¬head.selfClosing = true := by simpa [Tag.ofRaw] using h
    rw [if_neg h', if_pos (show ElementName.isSensitive head.name = true from hs)]
    rfl
  body := by
    intro h hs
    rw [if_neg (by simpa [Tag.ofRaw] using h), if_neg (by simpa [Tag.ofRaw] using hs)]
    exact body_bodyNodes (solid_childPieces src _ _ _) (apart_joinSpaces _)
      (lined_childPieces src _ _ _)
  blankBody := by
    intro h hs hm hne
    rw [if_neg (by simpa [Tag.ofRaw] using h), if_neg (by simpa [Tag.ofRaw] using hs)] at hm ⊢
    refine bodyNodes_of_markers (solid_childPieces src _ _ _) (apart_joinSpaces _) ?_ hm
    intro hnil
    exact hne (uncommented_eq_nil src _ _ _ (joinSpaces_eq_nil.1 hnil))

theorem elements_of_isMarker {n : Node} (h : n.isMarker = true) : n.elements = [] := by
  cases n with
  | marker position blank => simp [Node.elements]
  | text content => simp [Node.isMarker] at h
  | expression raw location => simp [Node.isMarker] at h
  | element tag children => simp [Node.isMarker] at h

theorem elements_verbatimNodes {body : Span} : elementsIn (verbatimNodes src body) = [] := by
  simp only [verbatimNodes]
  split
  · rfl
  · simp [elementsIn, Node.elements]

mutual
theorem reflects_node (r : Raw.Node) : ∀ n, Piece.content n ∈ nodePieces src r →
    ∀ e ∈ n.elements, ∃ raw ∈ r.elements, Reflects src raw e.1 e.2 := by
  intro n hn e he
  cases r with
  | comment span => simp [nodePieces] at hn
  | text span =>
      rw [nodePieces] at hn
      obtain ⟨t, rfl⟩ := content_of_mem_linePieces _ _ hn
      simp [Node.elements] at he
  | interpolation span inner =>
      simp only [nodePieces, List.mem_singleton, Piece.content.injEq] at hn
      simp [hn, Node.elements] at he
  | element span head children =>
      simp only [nodePieces, List.mem_singleton, Piece.content.injEq] at hn
      rw [hn, Node.elements, List.mem_cons] at he
      rcases he with rfl | he
      · exact ⟨⟨span, head, children⟩, by simp [Raw.Node.elements], reflects_ofRaw ..⟩
      · have hbody : e ∈ elementsIn
            (bodyNodes (joinSpaces (childPieces src head.body.start head.body.stop children))) := by
          split at he
          · simp [elementsIn] at he
          · split at he
            · simp [elements_verbatimNodes] at he
            · exact he
        obtain ⟨m, hm, hem⟩ := mem_elementsIn.1 hbody
        rcases mem_bodyNodes hm with hmark | hc
        · simp [elements_of_isMarker hmark] at hem
        · obtain ⟨raw, hraw, hr⟩ := reflects_all children m (content_mem_joinSpaces.1 hc) e hem
          exact ⟨raw, by simp [Raw.Node.elements, hraw], hr⟩

theorem reflects_all (tree : List Raw.Node) {cursor stop : Nat} : ∀ n,
    Piece.content n ∈ childPieces src cursor stop tree →
    ∀ e ∈ n.elements, ∃ raw ∈ Raw.elementsIn tree, Reflects src raw e.1 e.2 := by
  intro n hn e he
  cases tree with
  | nil => simp [childPieces, content_mem_spacePieces] at hn
  | cons r tree =>
      simp only [childPieces, List.mem_append, content_mem_spacePieces, false_or] at hn
      rcases hn with hn | hn
      · obtain ⟨raw, hraw, hr⟩ := reflects_node r n hn e he
        exact ⟨raw, by simp [Raw.elementsIn, hraw], hr⟩
      · obtain ⟨raw, hraw, hr⟩ := reflects_all tree n hn e he
        exact ⟨raw, by simp [Raw.elementsIn, hraw], hr⟩
end

end Pieces

theorem regular_ofRaw (src : Source) (tree : List Raw.Node) : Regular src tree (ofRaw src tree) where
  top := topLevel_documentNodes (solid_childPieces src _ _ _) (apart_joinSpaces _)
    (lined_childPieces src _ _ _)
  elements := by
    intro e he
    obtain ⟨n, hn, hen⟩ := mem_elementsIn.1 he
    rcases mem_documentNodes (apart_joinSpaces _) hn with hmark | hc
    · simp [elements_of_isMarker hmark] at hen
    · exact reflects_all src tree n (content_mem_joinSpaces.1 hc) e hen

theorem eq_ofRaw_of_ok {src : Source} {tree : List Raw.Node} {doc : List Node}
    (h : ofRaw? src tree = .ok doc) : doc = ofRaw src tree := by
  simp only [ofRaw?] at h
  split at h
  · cases h
  · cases h
    rfl

-- Every document that a raw tree is turned into is regular.
theorem regular_of_accepted (src : Source) (tree : List Raw.Node) (doc : List Node)
    (h : ofRaw? src tree = .ok doc) : Regular src tree doc := by
  rw [eq_ofRaw_of_ok h]
  exact regular_ofRaw src tree

theorem regular_paragraph :
    ofRaw? ⟨[], ascii "<p> a <!---->\n\n<pre> b</pre></p>\n"⟩
        [.element ⟨0, 32⟩ ⟨ascii "p", [], false, ⟨0, 3⟩, some ⟨28, 32⟩⟩
            [.text ⟨3, 6⟩, .comment ⟨6, 13⟩,
              .element ⟨15, 28⟩ ⟨ascii "pre", [], false, ⟨15, 20⟩, some ⟨22, 28⟩⟩ []]] =
      .ok
        [.marker .documentStart false,
          .element ⟨ascii "p", [], false, false, ⟨1, 1, 0⟩⟩
            [.marker .beforeFirstChild false, .text (ascii "a"), .marker .betweenSiblings true,
              .element ⟨ascii "pre", [], false, true, ⟨3, 1, 15⟩⟩ [.text (ascii " b")]]] ∧
    Regular ⟨[], ascii "<p> a <!---->\n\n<pre> b</pre></p>\n"⟩
        [.element ⟨0, 32⟩ ⟨ascii "p", [], false, ⟨0, 3⟩, some ⟨28, 32⟩⟩
            [.text ⟨3, 6⟩, .comment ⟨6, 13⟩,
              .element ⟨15, 28⟩ ⟨ascii "pre", [], false, ⟨15, 20⟩, some ⟨22, 28⟩⟩ []]]
        [.marker .documentStart false,
          .element ⟨ascii "p", [], false, false, ⟨1, 1, 0⟩⟩
            [.marker .beforeFirstChild false, .text (ascii "a"), .marker .betweenSiblings true,
              .element ⟨ascii "pre", [], false, true, ⟨3, 1, 15⟩⟩ [.text (ascii " b")]]] :=
  ⟨rfl, regular_of_accepted _ _ _ rfl⟩

end MarkupFormat.Document
