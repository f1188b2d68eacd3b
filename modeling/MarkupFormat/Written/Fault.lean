import MarkupFormat.Written.Tree

namespace MarkupFormat.Written

open Bytes

inductive Fault where
  | missingName
  | unterminatedTag
  | unterminatedComment
  | unterminatedInterpolation
  | unterminatedString
  | missingClosing (name : Bytes)
  | expectedClosing (name : Bytes)
  | unexpectedClosing
  deriving DecidableEq, Repr

def Fault.message : Fault → Bytes
  | .missingName => ascii "missing tag name"
  | .unterminatedTag => ascii "unterminated opening tag"
  | .unterminatedComment => ascii "unterminated comment"
  | .unterminatedInterpolation => ascii "unterminated interpolation"
  | .unterminatedString => ascii "unterminated attribute string"
  | .missingClosing name => ascii "missing " ++ closingTag name
  | .expectedClosing name => ascii "expected " ++ closingTag name
  | .unexpectedClosing => ascii "unexpected closing tag"

structure ReadError where
  fault : Fault
  offset : Nat
  deriving DecidableEq, Repr

def ReadError.message (e : ReadError) : Bytes :=
  e.fault.message ++ ascii " at offset " ++ decimal e.offset

-- While a text is read only its rest is at hand: `left` bytes follow the fault, or it lies beyond the
-- end.
structure Halt where
  fault : Fault
  left : Nat
  beyond : Nat := 0
  deriving DecidableEq, Repr

def Halt.located (h : Halt) (length : Nat) : ReadError :=
  ⟨h.fault, length + h.beyond - h.left⟩

end MarkupFormat.Written
