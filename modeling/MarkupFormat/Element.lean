import MarkupFormat.Bytes

namespace MarkupFormat

open Bytes

inductive AttributeKind where
  | string
  | integer
  | boolean
  | expression
  deriving DecidableEq, Repr

structure Attribute (Place : Type) where
  name : Bytes
  kind : AttributeKind
  value : Bytes
  place : Place
  deriving DecidableEq, Repr

namespace ElementName

def isMacro : Bytes → Bool
  | c :: _ :: _ => c = Byte.hash
  | _ => false

def isSensitive (name : Bytes) : Bool :=
  isMacro name || name = ascii "pre" || name = ascii "code"

end ElementName

def openDelimiter : Bytes :=
  [Byte.openBrace, Byte.openBrace]

def closeDelimiter : Bytes :=
  [Byte.closeBrace, Byte.closeBrace]

def closingTag (name : Bytes) : Bytes :=
  [Byte.less, Byte.slash] ++ name ++ [Byte.greater]

end MarkupFormat
