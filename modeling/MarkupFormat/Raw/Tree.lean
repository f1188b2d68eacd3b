import MarkupFormat.Element
import MarkupFormat.Source

namespace MarkupFormat.Raw

structure Header where
  name : Bytes
  attributes : List (Attribute Span)
  selfClosing : Bool
  openTag : Span
  closeTag : Option Span
  deriving DecidableEq, Repr

def Header.body (head : Header) : Span :=
  match head.closeTag with
  | none => ⟨head.openTag.stop, head.openTag.stop⟩
  | some close => ⟨head.openTag.stop, close.start⟩

inductive Node where
  | text (span : Span)
  | comment (span : Span)
  | interpolation (span inner : Span)
  | element (span : Span) (head : Header) (children : List Node)
  deriving Repr

def Node.span : Node → Span
  | .text span => span
  | .comment span => span
  | .interpolation span _ => span
  | .element span _ _ => span

end MarkupFormat.Raw
