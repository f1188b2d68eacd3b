import MarkupFormat.Raw.Tree
import MarkupFormat.Written.Read

namespace MarkupFormat.Raw

open Written

def locateAttributes (start : Nat) : List WrittenAttribute → List (Attribute Span)
  | [] => []
  | a :: as =>
      ⟨a.name, a.value.kind, a.value.text,
        ⟨start + a.space.length, start + a.write.length⟩⟩
        :: locateAttributes (start + a.write.length) as

def Header.ofTag (start : Nat) (tag : OpenTag) (openTag : Span) (closeTag : Option Span) : Header where
  name := tag.name
  attributes := locateAttributes (start + 1 + tag.name.length) tag.attributes
  selfClosing := closeTag.isNone
  openTag := openTag
  closeTag := closeTag

def Header.ofOpen (start : Nat) (tag : OpenTag) (bodyLength : Nat) : Header :=
  let body := start + tag.write.length + 1
  Header.ofTag start tag ⟨start, body⟩
    (some (Span.ofLength (body + bodyLength) (closingTag tag.name).length))

mutual
def locate (start : Nat) : Written.Node → Raw.Node
  | .text t => .text (Span.ofLength start t.length)
  | .comment t => .comment (Span.ofLength start t.length)
  | .interpolation inner =>
      .interpolation (Span.ofLength start (inner.length + 4)) (Span.ofLength (start + 2) inner.length)
  | .selfClosed tag =>
      let span := Span.ofLength start (tag.write.length + 2)
      .element span (Header.ofTag start tag span none) []
  | .verbatim tag body =>
      .element (Span.ofLength start (Written.Node.verbatim tag body).size)
        (Header.ofOpen start tag body.length) []
  | .element tag children =>
      .element (Span.ofLength start (Written.Node.element tag children).size)
        (Header.ofOpen start tag (sizeAll children))
        (locateAll (start + tag.write.length + 1) children)

def locateAll (start : Nat) : List Written.Node → List Raw.Node
  | [] => []
  | n :: ns => locate start n :: locateAll (start + n.size) ns
end

def read (src : Source) : Except ReadError (List Raw.Node) :=
  (Written.read src.content).map (locateAll 0)

end MarkupFormat.Raw
