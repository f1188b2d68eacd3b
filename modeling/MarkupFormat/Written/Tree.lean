import MarkupFormat.Element
import MarkupFormat.Literal

namespace MarkupFormat.Written

open Bytes

inductive Value where
  | absent
  | expression (inner : Bytes)
  | quoted (body : Bytes)
  | word (text : Bytes)
  deriving DecidableEq, Repr

namespace Value

def write : Value → Bytes
  | .absent => []
  | .expression inner => Byte.equals :: openDelimiter ++ inner ++ closeDelimiter
  | .quoted body => Byte.equals :: Byte.quote :: body ++ [Byte.quote]
  | .word text => Byte.equals :: text

def isIntegerWord (t : Bytes) : Bool :=
  t ≠ [] && t.all Literal.isDigitOrUnderscore

def kind : Value → AttributeKind
  | .absent => .boolean
  | .expression _ => .expression
  | .quoted _ => .string
  | .word t =>
      if Literal.isBoolean t then .boolean
      else if isIntegerWord t then .integer
      else .string

def text : Value → Bytes
  | .absent => Literal.trueText
  | .expression inner => inner
  | .quoted body => Byte.quote :: body ++ [Byte.quote]
  | .word t =>
      if Literal.isBoolean t || isIntegerWord t then t
      else Byte.quote :: t ++ [Byte.quote]

end Value

structure WrittenAttribute where
  space : Bytes
  name : Bytes
  value : Value
  deriving DecidableEq, Repr

def WrittenAttribute.write (a : WrittenAttribute) : Bytes :=
  a.space ++ a.name ++ a.value.write

structure OpenTag where
  name : Bytes
  attributes : List WrittenAttribute
  space : Bytes
  deriving DecidableEq, Repr

def OpenTag.write (tag : OpenTag) : Bytes :=
  Byte.less :: tag.name ++ tag.attributes.flatMap WrittenAttribute.write ++ tag.space

inductive Node where
  | text (t : Bytes)
  | comment (t : Bytes)
  | interpolation (inner : Bytes)
  | selfClosed (tag : OpenTag)
  | verbatim (tag : OpenTag) (body : Bytes)
  | element (tag : OpenTag) (children : List Node)
  deriving Repr

mutual
def Node.write : Node → Bytes
  | .text t => t
  | .comment t => t
  | .interpolation inner => openDelimiter ++ inner ++ closeDelimiter
  | .selfClosed tag => tag.write ++ [Byte.slash, Byte.greater]
  | .verbatim tag body => tag.write ++ Byte.greater :: body ++ closingTag tag.name
  | .element tag children => tag.write ++ Byte.greater :: writeAll children ++ closingTag tag.name

def writeAll : List Node → Bytes
  | [] => []
  | n :: ns => n.write ++ writeAll ns
end

mutual
def Node.size : Node → Nat
  | .text t => t.length
  | .comment t => t.length
  | .interpolation inner => inner.length + 4
  | .selfClosed tag => tag.write.length + 2
  | .verbatim tag body => tag.write.length + 1 + body.length + (closingTag tag.name).length
  | .element tag children => tag.write.length + 1 + sizeAll children + (closingTag tag.name).length

def sizeAll : List Node → Nat
  | [] => 0
  | n :: ns => n.size + sizeAll ns
end

mutual
theorem Node.length_write (n : Node) : n.write.length = n.size := by
  cases n with
  | text t => rfl
  | comment t => rfl
  | interpolation inner => simp [Node.write, Node.size, openDelimiter, closeDelimiter]
  | selfClosed tag => simp [Node.write, Node.size]
  | verbatim tag body => simp [Node.write, Node.size]; omega
  | element tag children =>
      simp [Node.write, Node.size, length_writeAll children]; omega

theorem length_writeAll (ns : List Node) : (writeAll ns).length = sizeAll ns := by
  cases ns with
  | nil => rfl
  | cons n ns => simp [writeAll, sizeAll, Node.length_write n, length_writeAll ns]
end

theorem writeAll_append (a b : List Node) : writeAll (a ++ b) = writeAll a ++ writeAll b := by
  induction a with
  | nil => rfl
  | cons n a ih => simp [writeAll, ih]

end MarkupFormat.Written
