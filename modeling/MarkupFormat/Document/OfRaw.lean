import MarkupFormat.Document.Piece
import MarkupFormat.Raw.Defect

namespace MarkupFormat.Document

open Bytes

def locateAttribute (src : Source) (a : Attribute Span) : Attribute Location :=
  ⟨a.name, a.kind, a.value, src.location a.place.start⟩

def Tag.ofRaw (src : Source) (span : Span) (head : Raw.Header) : Tag where
  name := head.name
  attributes := head.attributes.map (locateAttribute src)
  selfClosing := head.selfClosing
  sensitive := ElementName.isSensitive head.name
  location := src.location span.start

def verbatimNodes (src : Source) (body : Span) : List Node :=
  let t := src.slice body.start body.stop
  if t = [] then [] else [.text t]

mutual
def nodePieces (src : Source) : Raw.Node → List Piece
  | .comment _ => []
  | .text span => linePieces [] (runs (src.slice span.start span.stop))
  | .interpolation span inner =>
      [.content (.expression (src.slice inner.start inner.stop) (src.location span.start))]
  | .element span head children =>
      let nodes :=
        if head.selfClosing then []
        else if ElementName.isSensitive head.name then verbatimNodes src head.body
        else bodyNodes (joinSpaces (childPieces src head.body.start head.body.stop children))
      [.content (.element (Tag.ofRaw src span head) nodes)]

def childPieces (src : Source) (cursor stop : Nat) : List Raw.Node → List Piece
  | [] => spacePieces (src.slice cursor stop)
  | n :: ns =>
      spacePieces (src.slice cursor n.span.start) ++ nodePieces src n
        ++ childPieces src n.span.stop stop ns
end

def ofRaw (src : Source) (tree : List Raw.Node) : List Node :=
  documentNodes (joinSpaces (childPieces src 0 src.length tree))

def ofRaw? (src : Source) (tree : List Raw.Node) : Except Raw.Defect (List Node) :=
  match Raw.defect? src tree with
  | some d => .error d
  | none => .ok (ofRaw src tree)

end MarkupFormat.Document
