import MarkupFormat.Bytes

namespace MarkupFormat

open Bytes

inductive LiteralKind where
  | string
  | integer
  | boolean
  deriving DecidableEq, Repr

namespace Literal

def trueText : Bytes :=
  ascii "true"

def falseText : Bytes :=
  ascii "false"

def isBoolean (t : Bytes) : Bool :=
  t = trueText || t = falseText

def isDigitOrUnderscore (c : UInt8) : Bool :=
  Byte.isDigit c || c = Byte.underscore

def isInteger : Bytes → Bool
  | [] => false
  | c :: t => Byte.isDigit c && t.all isDigitOrUnderscore && (c :: t).getLast? ≠ some Byte.underscore

-- A backslash takes the next byte with it, whichever it is.
def isStringBody : Bytes → Bool
  | [] => true
  | [c] => c ≠ Byte.backslash && c ≠ Byte.quote && c ≠ Byte.lf
  | c :: d :: t =>
      if c = Byte.backslash then isStringBody t
      else c ≠ Byte.quote && c ≠ Byte.lf && !(c = Byte.hash && d = Byte.openBrace)
        && isStringBody (d :: t)

def isString : Bytes → Bool
  | [] => false
  | c :: t => c = Byte.quote && t.getLast? = some Byte.quote && isStringBody t.dropLast

def kind? (t : Bytes) : Option LiteralKind :=
  if isBoolean t then some .boolean
  else if isInteger t then some .integer
  else if isString t then some .string
  else none

end Literal

end MarkupFormat
