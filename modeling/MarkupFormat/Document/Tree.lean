import MarkupFormat.Element
import MarkupFormat.Source

namespace MarkupFormat.Document

open Bytes

inductive Position where
  | documentStart
  | beforeFirstChild
  | betweenSiblings
  | beforeClosingTag
  deriving DecidableEq, Repr

def Position.name : Position → Bytes
  | .documentStart => ascii "document_start"
  | .beforeFirstChild => ascii "before_first_child"
  | .betweenSiblings => ascii "between_siblings"
  | .beforeClosingTag => ascii "before_closing_tag"

structure Tag where
  name : Bytes
  attributes : List (Attribute Location)
  selfClosing : Bool
  sensitive : Bool
  location : Location
  deriving DecidableEq, Repr

-- A marker is `blank` where the whitespace that it stands for held an empty line.
inductive Node where
  | marker (position : Position) (blank : Bool)
  | text (content : Bytes)
  | expression (raw : Bytes) (location : Location)
  | element (tag : Tag) (children : List Node)
  deriving Repr

def Node.isMarker : Node → Bool
  | .marker _ _ => true
  | _ => false

def outlineLine (depth : Nat) (parts : List Bytes) : Bytes :=
  spaces (2 * depth) ++ parts.flatten ++ [Byte.lf]

def quoted (t : Bytes) : Bytes :=
  Byte.quote :: t ++ [Byte.quote]

def flag (b : Bool) (t : Bytes) : Bytes :=
  if b then t else []

mutual
def Node.outline (depth : Nat) : Node → Bytes
  | .marker position blank =>
      outlineLine depth [ascii "marker ", position.name, flag blank (ascii " blank")]
  | .text content => outlineLine depth [ascii "text ", quoted content]
  | .expression raw _ => outlineLine depth [ascii "expr ", quoted raw]
  | .element tag children =>
      outlineLine depth
        [ascii "element ", tag.name, flag tag.sensitive (ascii " sensitive"),
          flag tag.selfClosing (ascii " self_closing")]
        ++ outlineAll (depth + 1) children

def outlineAll (depth : Nat) : List Node → Bytes
  | [] => []
  | n :: ns => n.outline depth ++ outlineAll depth ns
end

def outline (nodes : List Node) : Bytes :=
  outlineAll 0 nodes

end MarkupFormat.Document
