import MarkupFormat.Bytes.Blank
import MarkupFormat.Expression.Formatter
import MarkupFormat.Expression.Mode

namespace MarkupFormat.Expression

open Bytes

inductive NormalFault where
  | unexpected (c : UInt8)
  | unterminatedString
  | unexpectedEnd
  deriving DecidableEq, Repr

def NormalFault.message : NormalFault → Bytes
  | .unexpected c => ascii "unexpected token: " ++ [c]
  | .unterminatedString => ascii "unterminated string"
  | .unexpectedEnd => ascii "unexpected end of input"

def opener? (c : UInt8) : Option UInt8 :=
  if c = 93 then some 91
  else if c = 41 then some 40
  else if c = Byte.closeBrace then some Byte.openBrace
  else none

def isOpener (c : UInt8) : Bool :=
  c = 91 || c = 40 || c = Byte.openBrace

structure NormalState where
  opened : List UInt8
  last : Option UInt8
  pending : Bool
  mode : Mode
  deriving DecidableEq, Repr

namespace NormalState

def start : NormalState :=
  ⟨[], none, false, .code⟩

def gap (st : NormalState) (c : UInt8) : Bytes :=
  if st.pending && !st.last.any isOpener && (opener? c).isNone then [Byte.space] else []

def brackets (st : NormalState) (c : UInt8) : Except NormalFault (List UInt8) :=
  match opener? c with
  | some o =>
      match st.opened with
      | b :: bs => if b = o then .ok bs else .error (.unexpected c)
      | [] => .error (.unexpected c)
  | none => .ok (if isOpener c then c :: st.opened else st.opened)

def step (st : NormalState) (c : UInt8) : Except NormalFault (Bytes × NormalState) :=
  if st.mode ≠ .code then .ok ([c], { st with last := some c, mode := st.mode.next c })
  else if isBlank c then .ok ([], { st with pending := st.last.isSome })
  else
    (st.brackets c).map fun opened =>
      (st.gap c ++ [c], ⟨opened, some c, c = Byte.comma, st.mode.next c⟩)

def fault? (st : NormalState) : Option NormalFault :=
  if st.mode ≠ .code then some .unterminatedString
  else if st.opened ≠ [] then some .unexpectedEnd
  else none

end NormalState

def normalizeFrom (st : NormalState) : Bytes → Except NormalFault Bytes
  | [] =>
      match st.fault? with
      | some e => .error e
      | none => .ok []
  | c :: t =>
      match st.step c with
      | .error e => .error e
      | .ok (out, st') => (normalizeFrom st' t).map (out ++ ·)

def normalize (t : Bytes) : Except NormalFault Bytes :=
  normalizeFrom .start t

def normalizing : Formatter :=
  fun raw => (normalize raw).mapError NormalFault.message

def tabulated (table : List (Bytes × Bytes)) : Formatter :=
  fun raw => (normalizing raw).map fun t => (table.lookup t).getD t

end MarkupFormat.Expression
