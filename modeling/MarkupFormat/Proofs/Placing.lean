import MarkupFormat.Document.OfRaw
import MarkupFormat.Proofs.Bodies
import MarkupFormat.Raw.OfWritten

namespace MarkupFormat.Document

open Bytes

def Tag.unplaced (tag : Tag) : Tag :=
  { tag with
    attributes := tag.attributes.map fun a => { a with place := .start }
    location := .start }

mutual
def Node.unplaced : Node → Node
  | .marker position blank => .marker position blank
  | .text content => .text content
  | .expression raw _ => .expression raw .start
  | .element tag children => .element tag.unplaced (unplacedAll children)

def unplacedAll : List Node → List Node
  | [] => []
  | n :: ns => n.unplaced :: unplacedAll ns
end

theorem unplacedAll_eq_map (ns : List Node) : unplacedAll ns = ns.map Node.unplaced := by
  induction ns with
  | nil => rfl
  | cons n ns ih => simp [unplacedAll, ih]

def attributeOf (a : Written.WrittenAttribute) : Attribute Location :=
  ⟨a.name, a.value.kind, a.value.text, .start⟩

def Tag.ofWritten (tag : Written.OpenTag) (selfClosing : Bool) : Tag where
  name := tag.name
  attributes := tag.attributes.map attributeOf
  selfClosing := selfClosing
  sensitive := ElementName.isSensitive tag.name
  location := .start

def verbatimText (t : Bytes) : List Node :=
  if t = [] then [] else [.text t]

mutual
def piecesOf : Written.Node → List Piece
  | .comment _ => []
  | .text t => linePieces [] (runs t)
  | .interpolation inner => [.content (.expression inner .start)]
  | .selfClosed tag => [.content (.element (Tag.ofWritten tag true) [])]
  | .verbatim tag body =>
      [.content (.element (Tag.ofWritten tag false)
        (if ElementName.isSensitive tag.name then verbatimText body
          else bodyNodes (joinSpaces (spacePieces body))))]
  | .element tag children =>
      [.content (.element (Tag.ofWritten tag false)
        (if ElementName.isSensitive tag.name then verbatimText (Written.writeAll children)
          else bodyNodes (joinSpaces (piecesAll children))))]

def piecesAll : List Written.Node → List Piece
  | [] => []
  | n :: ns => piecesOf n ++ piecesAll ns
end

def ofWritten (ns : List Written.Node) : List Node :=
  documentNodes (joinSpaces (piecesAll ns))

def Piece.map (g : Node → Node) : Piece → Piece
  | .space b => .space b
  | .content n => .content (g n)

theorem map_joinSpaces (g : Node → Node) (ps : List Piece) :
    (joinSpaces ps).map (Piece.map g) = joinSpaces (ps.map (Piece.map g)) := by
  have hcons : ∀ p qs, (consPiece p qs).map (Piece.map g) =
      consPiece (p.map g) (qs.map (Piece.map g)) := by
    intro p qs
    cases p with
    | content n => rfl
    | space b =>
        cases qs with
        | nil => rfl
        | cons q qs => cases q <;> rfl
  induction ps with
  | nil => rfl
  | cons p ps ih =>
      change (consPiece p (joinSpaces ps)).map (Piece.map g) = consPiece (p.map g) (joinSpaces _)
      rw [hcons, ih]

section Map

variable {g : Node → Node} (hg : ∀ p b, g (.marker p b) = .marker p b)
include hg

theorem map_innerNodes (ps : List Piece) :
    (innerNodes ps).map g = innerNodes (ps.map (Piece.map g)) := by
  induction ps with
  | nil => rfl
  | cons p ps ih =>
      cases p with
      | content n => simp [innerNodes, Piece.map, ih]
      | space b =>
          cases ps with
          | nil => simp [innerNodes, Piece.map, hg]
          | cons q qs =>
              simp only [innerNodes, List.map_cons, Piece.map, hg] at ih ⊢
              rw [ih]

theorem map_bodyNodes (ps : List Piece) :
    (bodyNodes ps).map g = bodyNodes (ps.map (Piece.map g)) := by
  cases ps with
  | nil => rfl
  | cons p ps =>
      cases p with
      | content n => exact map_innerNodes hg (.content n :: ps)
      | space b =>
          cases ps with
          | nil => exact map_innerNodes hg [.space b]
          | cons q qs =>
              simp only [bodyNodes, List.map_cons, Piece.map, hg]
              rw [map_innerNodes hg]
              rfl

theorem map_trailingNodes (ps : List Piece) :
    (trailingNodes ps).map g = trailingNodes (ps.map (Piece.map g)) := by
  induction ps with
  | nil => rfl
  | cons p ps ih =>
      cases p with
      | content n => simp [trailingNodes, Piece.map, ih]
      | space b =>
          cases ps with
          | nil => rfl
          | cons q qs =>
              simp only [trailingNodes, List.map_cons, Piece.map, hg] at ih ⊢
              rw [ih]

theorem map_documentNodes (ps : List Piece) :
    (documentNodes ps).map g = documentNodes (ps.map (Piece.map g)) := by
  cases ps with
  | nil => simp [documentNodes, trailingNodes, hg]
  | cons p ps =>
      cases p with
      | content n =>
          simp only [documentNodes, List.map_cons, hg, Piece.map]
          rw [map_trailingNodes hg]
          rfl
      | space b =>
          simp only [documentNodes, List.map_cons, hg, Piece.map]
          rw [map_trailingNodes hg]

end Map

theorem map_linePieces {g : Node → Node} (hg : ∀ t, g (.text t) = .text t) (line : Bytes)
    (rs : List Bytes) : (linePieces line rs).map (Piece.map g) = linePieces line rs := by
  have htext : ∀ t, (textPieces t).map (Piece.map g) = textPieces t := by
    intro t
    unfold textPieces
    split <;> simp [Piece.map, hg]
  have hspace : ∀ t, (spacePieces t).map (Piece.map g) = spacePieces t := by
    intro t
    unfold spacePieces
    split <;> simp [Piece.map]
  induction rs generalizing line with
  | nil => exact htext line
  | cons r rs ih =>
      simp only [linePieces]
      split
      · exact ih _
      · split
        · simp [htext, hspace, ih]
        · exact ih _

section Located

variable {src : Source}

theorem slice_eq {x y z : Bytes} {start stop : Nat} (h : src.content = x ++ (y ++ z))
    (hstart : start = x.length) (hstop : stop = x.length + y.length) :
    src.slice start stop = y := by
  subst hstart hstop
  simp [Source.slice, h]

theorem slice_self (k : Nat) : src.slice k k = [] := by
  simp [Source.slice]

theorem unplaced_attributes (start : Nat) (as : List Written.WrittenAttribute) :
    ((Raw.locateAttributes start as).map (locateAttribute src)).map
        (fun a => { a with place := Location.start }) = as.map attributeOf := by
  induction as generalizing start with
  | nil => rfl
  | cons a as ih =>
      simp only [Raw.locateAttributes, List.map_cons, ih]
      rfl

theorem unplaced_tag (start : Nat) (tag : Written.OpenTag) (span openTag : Span)
    (closeTag : Option Span) :
    (Tag.ofRaw src span (Raw.Header.ofTag start tag openTag closeTag)).unplaced =
      Tag.ofWritten tag closeTag.isNone := by
  simp only [Tag.unplaced, Tag.ofRaw, Raw.Header.ofTag, unplaced_attributes]
  rfl

theorem span_locate (start : Nat) (n : Written.Node) :
    (Raw.locate start n).span = Span.ofLength start n.size := by
  cases n <;> simp [Raw.locate, Raw.Node.span, Written.Node.size, Span.ofLength]

theorem unplaced_verbatim {body : Span} :
    unplacedAll (verbatimNodes src body) = verbatimText (src.slice body.start body.stop) := by
  simp only [verbatimNodes, verbatimText]
  split <;> rfl

theorem unplaced_bodyNodes (ps : List Piece) :
    unplacedAll (bodyNodes (joinSpaces ps)) = bodyNodes (joinSpaces (ps.map (Piece.map Node.unplaced))) := by
  rw [unplacedAll_eq_map, map_bodyNodes (fun _ _ => rfl), map_joinSpaces]

theorem unplaced_open (start length : Nat) (tag : Written.OpenTag) (span : Span)
    (children : List Raw.Node) :
    (nodePieces src (.element span (Raw.Header.ofOpen start tag length) children)).map
        (Piece.map Node.unplaced) =
      [.content (.element (Tag.ofWritten tag false)
        (if ElementName.isSensitive tag.name then
          verbatimText (src.slice (start + tag.write.length + 1) (start + tag.write.length + 1 + length))
        else bodyNodes (joinSpaces
          ((childPieces src (start + tag.write.length + 1) (start + tag.write.length + 1 + length)
            children).map (Piece.map Node.unplaced)))))] := by
  have hbody : (Raw.Header.ofOpen start tag length).body =
      ⟨start + tag.write.length + 1, start + tag.write.length + 1 + length⟩ := rfl
  have hname : (Raw.Header.ofOpen start tag length).name = tag.name := rfl
  have hopen : (Raw.Header.ofOpen start tag length).selfClosing = false := rfl
  rw [nodePieces, hbody, hname, hopen, if_neg (by decide)]
  simp only [List.map_cons, List.map_nil, Piece.map, Node.unplaced, Raw.Header.ofOpen, unplaced_tag]
  by_cases hs : ElementName.isSensitive tag.name = true
  · rw [if_pos hs, if_pos hs, unplaced_verbatim]
    rfl
  · rw [if_neg hs, if_neg hs, unplaced_bodyNodes]
    rfl

mutual
theorem nodePieces_locate (n : Written.Node) {x z : Bytes} {start : Nat}
    (h : src.content = x ++ (n.write ++ z)) (hstart : start = x.length) :
    (nodePieces src (Raw.locate start n)).map (Piece.map Node.unplaced) = piecesOf n := by
  cases n with
  | text t =>
      have hs : src.slice start (start + t.length) = t :=
        slice_eq h hstart (by simp [hstart])
      simp only [Raw.locate, nodePieces, Span.ofLength, hs, piecesOf]
      exact map_linePieces (fun _ => rfl) _ _
  | comment t => rfl
  | interpolation inner =>
      have hs : src.slice (start + 2) (start + 2 + inner.length) = inner :=
        slice_eq (x := x ++ openDelimiter) (z := closeDelimiter ++ z)
          (by simpa [Written.Node.write] using h) (by simp [hstart, openDelimiter])
          (by simp [hstart, openDelimiter])
      simp only [Raw.locate, nodePieces, Span.ofLength, hs, piecesOf]
      rfl
  | selfClosed tag =>
      simp only [Raw.locate, nodePieces, piecesOf, List.map_cons, List.map_nil, Piece.map,
        Node.unplaced, unplaced_tag]
      rfl
  | verbatim tag body =>
      have hs : src.slice (start + tag.write.length + 1) (start + tag.write.length + 1 + body.length)
          = body :=
        slice_eq (x := x ++ tag.write ++ [Byte.greater]) (z := closingTag tag.name ++ z)
          (by simpa [Written.Node.write] using h) (by simp [hstart]; omega)
          (by simp [hstart]; omega)
      rw [Raw.locate, unplaced_open, hs, piecesOf, childPieces, hs]
      congr 5
      unfold spacePieces
      split <;> rfl
  | element tag children =>
      have hc : src.content = (x ++ tag.write ++ [Byte.greater]) ++
          (Written.writeAll children ++ (closingTag tag.name ++ z)) := by
        simpa [Written.Node.write] using h
      have hlen := Written.length_writeAll children
      have hs : src.slice (start + tag.write.length + 1)
          (start + tag.write.length + 1 + Written.sizeAll children) = Written.writeAll children :=
        slice_eq hc (by simp [hstart]; omega) (by simp [hstart, hlen]; omega)
      have hbody : start + tag.write.length + 1 = (x ++ tag.write ++ [Byte.greater]).length := by
        simp [hstart]
        omega
      have hk := childPieces_locate children hc hbody
      rw [Raw.locate, unplaced_open, hs, hk, piecesOf]

theorem childPieces_locate (ns : List Written.Node) {x z : Bytes} {start : Nat}
    (h : src.content = x ++ (Written.writeAll ns ++ z)) (hstart : start = x.length) :
    (childPieces src start (start + Written.sizeAll ns) (Raw.locateAll start ns)).map
      (Piece.map Node.unplaced) = piecesAll ns := by
  cases ns with
  | nil => simp [Raw.locateAll, childPieces, Written.sizeAll, slice_self, spacePieces, piecesAll]
  | cons n ns =>
      have hn : src.content = x ++ (n.write ++ (Written.writeAll ns ++ z)) := by
        simpa [Written.writeAll] using h
      have hns : src.content = (x ++ n.write) ++ (Written.writeAll ns ++ z) := by
        simpa [Written.writeAll] using h
      have hnext : start + n.size = (x ++ n.write).length := by
        simp [hstart, Written.Node.length_write]
      have hrest := childPieces_locate ns hns hnext
      simp only [Raw.locateAll, childPieces, span_locate, Span.ofLength, slice_self, spacePieces,
        if_true, List.nil_append, List.map_append, piecesAll, nodePieces_locate n hn hstart,
        Written.sizeAll, ← Nat.add_assoc, hrest]
end

theorem unplaced_ofRaw (src : Source) {ns : List Written.Node}
    (h : src.content = Written.writeAll ns) :
    unplacedAll (ofRaw src (Raw.locateAll 0 ns)) = ofWritten ns := by
  have hlen : src.length = 0 + Written.sizeAll ns := by
    rw [Source.length, h, Written.length_writeAll, Nat.zero_add]
  have hwhole : src.content = [] ++ (Written.writeAll ns ++ []) := by simpa using h
  have hk := childPieces_locate ns hwhole (rfl : 0 = _)
  rw [ofRaw, hlen, unplacedAll_eq_map, map_documentNodes (fun _ _ => rfl), map_joinSpaces, hk]
  rfl

end Located

end MarkupFormat.Document

namespace MarkupFormat.Written

open Bytes

mutual
def Node.Covered : Node → Prop
  | .verbatim tag body => ElementName.isSensitive tag.name = true ∨ allBlank body = true
  | .element tag children => ElementName.isSensitive tag.name = true ∨ CoveredAll children
  | .text _ => True
  | .comment _ => True
  | .interpolation _ => True
  | .selfClosed _ => True

def CoveredAll : List Node → Prop
  | [] => True
  | n :: ns => n.Covered ∧ CoveredAll ns
end

end MarkupFormat.Written

namespace MarkupFormat.Raw

open Bytes Written Document

section Located

variable {src : Source}

theorem fits_iff {inner outer : Span} :
    fits inner outer = true ↔
      outer.start ≤ inner.start ∧ inner.start ≤ inner.stop ∧ inner.stop ≤ outer.stop := by
  simp [fits, and_assoc]

theorem tagDefect?_self (start : Nat) (tag : OpenTag) :
    tagDefect? (Span.ofLength start (tag.write.length + 2))
      (Header.ofTag start tag (Span.ofLength start (tag.write.length + 2)) none) false = none := by
  simp [tagDefect?, fits, Header.ofTag, Span.ofLength]

theorem tagDefect?_open (start : Nat) (tag : OpenTag) (length : Nat) (hasChildren : Bool) :
    tagDefect?
        (Span.ofLength start (tag.write.length + 1 + length + (closingTag tag.name).length))
        (Header.ofOpen start tag length) hasChildren = none := by
  have h1 : fits ⟨start, start + tag.write.length + 1⟩
      (Span.ofLength start (tag.write.length + 1 + length + (closingTag tag.name).length)) = true :=
    fits_iff.2 ⟨by simp [Span.ofLength], by simp; omega, by simp [Span.ofLength]; omega⟩
  have h2 : fits (Span.ofLength (start + tag.write.length + 1 + length) (closingTag tag.name).length)
      ⟨start + tag.write.length + 1,
        (Span.ofLength start (tag.write.length + 1 + length + (closingTag tag.name).length)).stop⟩ =
      true :=
    fits_iff.2 ⟨by simp [Span.ofLength], by simp [Span.ofLength], by simp [Span.ofLength]; omega⟩
  simp [tagDefect?, Header.ofOpen, Header.ofTag, h1, h2]

theorem placeDefect?_eq_none {container : Span} {parent : Bytes} {cursor length : Nat}
    (h1 : container.start ≤ cursor) (h2 : cursor + length ≤ container.stop)
    (h3 : container.stop ≤ src.length) :
    placeDefect? src container parent cursor (Span.ofLength cursor length) = none := by
  have htext : ¬(cursor + length < cursor ∨ src.length < cursor + length) := by omega
  have hparent : ¬(cursor < container.start ∨ container.stop < cursor + length) := by omega
  rw [show Span.ofLength cursor length = ⟨cursor, cursor + length⟩ from rfl]
  simp only [placeDefect?, slice_self, Bool.or_eq_true, decide_eq_true_eq]
  rw [if_neg htext, if_neg hparent, if_neg (Nat.lt_irrefl cursor)]
  rfl

theorem isOpen_ofOpen (start : Nat) (tag : OpenTag) (length : Nat) :
    (Header.ofOpen start tag length).isOpen = !ElementName.isSensitive tag.name := rfl

theorem nodeDefect?_open (parent : Bytes) (start length : Nat) (tag : OpenTag) (children : List Node) :
    nodeDefect? src parent
        (.element (Span.ofLength start (tag.write.length + 1 + length + (closingTag tag.name).length))
          (Header.ofOpen start tag length) children) = none ↔
      ElementName.isSensitive tag.name = true ∨
        childrenDefect? src ⟨start + tag.write.length + 1, start + tag.write.length + 1 + length⟩
          tag.name (start + tag.write.length + 1) children = none := by
  rw [nodeDefect?, tagDefect?_open]
  simp only [isOpen_ofOpen]
  by_cases hs : ElementName.isSensitive tag.name = true
  · simp [hs]
  · simp [hs, Header.ofOpen, Header.body, Header.ofTag, Span.ofLength]

mutual
theorem nodeDefect?_locate (n : Written.Node) {x z parent : Bytes} {start : Nat}
    (h : src.content = x ++ (n.write ++ z)) (hstart : start = x.length) :
    nodeDefect? src parent (locate start n) = none ↔ n.Covered := by
  cases n with
  | text t => simp [locate, nodeDefect?, Written.Node.Covered]
  | comment t => simp [locate, nodeDefect?, Written.Node.Covered]
  | interpolation inner =>
      have hf : fits (Span.ofLength (start + 2) inner.length) (Span.ofLength start (inner.length + 4)) =
          true := by
        exact fits_iff.2
          ⟨by simp [Span.ofLength], by simp [Span.ofLength], by simp [Span.ofLength]; omega⟩
      simp [locate, nodeDefect?, hf, Written.Node.Covered]
  | selfClosed tag =>
      have := tagDefect?_self start tag
      simp only [locate, nodeDefect?, Written.Node.Covered, List.isEmpty_nil, Bool.not_true, this]
      simp [Header.isOpen, Header.ofTag]
  | verbatim tag body =>
      have hb : src.slice (start + tag.write.length + 1) (start + tag.write.length + 1 + body.length) =
          body :=
        slice_eq (x := x ++ tag.write ++ [Byte.greater]) (z := closingTag tag.name ++ z)
          (by simpa [Written.Node.write] using h) (by simp [hstart]; omega) (by simp [hstart]; omega)
      rw [locate, Written.Node.size, nodeDefect?_open]
      simp [childrenDefect?, hb, Written.Node.Covered]
  | element tag children =>
      have hc : src.content = (x ++ tag.write ++ [Byte.greater]) ++
          (writeAll children ++ (closingTag tag.name ++ z)) := by
        simpa [Written.Node.write] using h
      rw [locate, Written.Node.size, nodeDefect?_open, Written.Node.Covered,
        childrenDefect?_locate children hc (by simp [hstart]; omega) (by simp) (by simp)
          (by simp [Source.length, hc, hstart, length_writeAll]; omega)]

theorem childrenDefect?_locate (ns : List Written.Node) {x z parent : Bytes} {container : Span}
    {cursor : Nat} (h : src.content = x ++ (writeAll ns ++ z)) (hcursor : cursor = x.length)
    (h1 : container.start ≤ cursor) (h2 : container.stop = cursor + sizeAll ns)
    (h3 : container.stop ≤ src.length) :
    childrenDefect? src container parent cursor (locateAll cursor ns) = none ↔ CoveredAll ns := by
  cases ns with
  | nil =>
      have : src.slice cursor container.stop = [] := by
        rw [h2]
        exact slice_self cursor
      simp [locateAll, childrenDefect?, this, allBlank, CoveredAll]
  | cons n ns =>
      have hn : src.content = x ++ (n.write ++ (writeAll ns ++ z)) := by
        simpa [writeAll] using h
      have hns : src.content = (x ++ n.write) ++ (writeAll ns ++ z) := by
        simpa [writeAll] using h
      rw [sizeAll] at h2
      have hplace : placeDefect? src container parent cursor (Span.ofLength cursor n.size) = none :=
        placeDefect?_eq_none h1 (by omega) h3
      have hnode : nodeDefect? src parent (locate cursor n) = none ↔ n.Covered :=
        nodeDefect?_locate n hn hcursor
      have hrest : childrenDefect? src container parent (cursor + n.size)
          (locateAll (cursor + n.size) ns) = none ↔ CoveredAll ns :=
        childrenDefect?_locate ns hns (by simp [hcursor, Node.length_write]) (by omega) (by omega) h3
      rw [locateAll, childrenDefect?, span_locate, hplace, CoveredAll, ← hnode, ← hrest]
      cases nodeDefect? src parent (locate cursor n) with
      | some d => simp
      | none => simp [Span.ofLength]
end

theorem defect?_locateAll (src : Source) {ns : List Written.Node}
    (h : src.content = writeAll ns) :
    defect? src (locateAll 0 ns) = none ↔ CoveredAll ns := by
  refine childrenDefect?_locate ns (x := []) (z := []) (by simpa using h) rfl (Nat.le_refl 0) ?_
    (Nat.le_refl _)
  simp [Source.length, h, length_writeAll]

end Located

end MarkupFormat.Raw
