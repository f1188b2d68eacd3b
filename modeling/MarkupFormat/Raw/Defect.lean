import MarkupFormat.Bytes.Blank
import MarkupFormat.Raw.Tree
import MarkupFormat.Report

namespace MarkupFormat.Raw

open Bytes

inductive Flaw where
  | outsideText
  | outsideParent
  | outOfOrder
  | uncovered
  | interpolationBody
  | openingTag
  | closingTag
  | selfClosedChildren
  | neverClosed
  deriving DecidableEq, Repr

def Flaw.code : Flaw → Bytes
  | .outsideText | .interpolationBody | .openingTag | .closingTag => ascii "S001"
  | .outOfOrder => ascii "S002"
  | .outsideParent => ascii "S003"
  | .uncovered => ascii "S004"
  | .selfClosedChildren | .neverClosed => ascii "S005"

structure Defect where
  flaw : Flaw
  offset : Nat
  element : Bytes
  deriving DecidableEq, Repr

def Defect.message (d : Defect) : Bytes :=
  match d.flaw with
  | .outsideText => ascii "node span is outside the source text"
  | .outsideParent => ascii "node lies outside its parent's body"
  | .outOfOrder => ascii "sibling nodes overlap or are out of order"
  | .uncovered => ascii "text between nodes is not covered by any node"
  | .interpolationBody => ascii "interpolation body is outside its node"
  | .openingTag => ascii "opening tag is outside its element"
  | .closingTag => ascii "closing tag is outside its element"
  | .selfClosedChildren => ascii "self-closing element has children"
  | .neverClosed => ascii "element <" ++ d.element ++ ascii "> is never closed"

def Defect.report (d : Defect) (src : Source) : Report where
  kind := .structural
  code := d.flaw.code
  message := d.message
  elementName := d.element
  attributeName := []
  snippet := []
  file := src.name
  location := src.location d.offset

def fits (inner outer : Span) : Bool :=
  outer.start ≤ inner.start && inner.start ≤ inner.stop && inner.stop ≤ outer.stop

def placeDefect? (src : Source) (container : Span) (parent : Bytes) (cursor : Nat) (span : Span) :
    Option Defect :=
  if span.stop < span.start || src.length < span.stop then some ⟨.outsideText, cursor, parent⟩
  else if span.start < container.start || container.stop < span.stop then
    some ⟨.outsideParent, span.start, parent⟩
  else if span.start < cursor then some ⟨.outOfOrder, span.start, parent⟩
  else if !allBlank (src.slice cursor span.start) then some ⟨.uncovered, cursor, parent⟩
  else none

def tagDefect? (span : Span) (head : Header) (hasChildren : Bool) : Option Flaw :=
  if !fits head.openTag span then some .openingTag
  else if head.selfClosing then if hasChildren then some .selfClosedChildren else none
  else
    match head.closeTag with
    | none => some .neverClosed
    | some close => if fits close ⟨head.openTag.stop, span.stop⟩ then none else some .closingTag

def Header.isOpen (head : Header) : Bool :=
  !head.selfClosing && !ElementName.isSensitive head.name

mutual
def nodeDefect? (src : Source) (parent : Bytes) : Node → Option Defect
  | .text _ => none
  | .comment _ => none
  | .interpolation span inner =>
      if fits inner span then none else some ⟨.interpolationBody, span.start, parent⟩
  | .element span head children =>
      match tagDefect? span head (!children.isEmpty) with
      | some flaw => some ⟨flaw, span.start, head.name⟩
      | none =>
          if head.isOpen then childrenDefect? src head.body head.name head.body.start children
          else none

def childrenDefect? (src : Source) (container : Span) (parent : Bytes) (cursor : Nat) :
    List Node → Option Defect
  | [] =>
      if allBlank (src.slice cursor container.stop) then none
      else some ⟨.uncovered, cursor, parent⟩
  | n :: ns =>
      match placeDefect? src container parent cursor n.span with
      | some d => some d
      | none =>
          match nodeDefect? src parent n with
          | some d => some d
          | none => childrenDefect? src container parent n.span.stop ns
end

def defect? (src : Source) (tree : List Node) : Option Defect :=
  childrenDefect? src ⟨0, src.length⟩ [] 0 tree

end MarkupFormat.Raw
