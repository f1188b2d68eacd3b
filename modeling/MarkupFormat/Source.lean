import MarkupFormat.Bytes.Line

namespace MarkupFormat

open Bytes

structure Span where
  start : Nat
  stop : Nat
  deriving DecidableEq, Repr

def Span.ofLength (start length : Nat) : Span :=
  ⟨start, start + length⟩

-- Line and column count from one, the offset from zero, in words of 32 bits that wrap around.
structure Location where
  line : UInt32
  column : UInt32
  offset : UInt32
  deriving DecidableEq, Repr

def Location.start : Location :=
  ⟨1, 1, 0⟩

structure Place where
  line : Nat
  column : Nat
  offset : Nat
  deriving DecidableEq, Repr

namespace Place

def start : Place :=
  ⟨1, 1, 0⟩

def next (p : Place) (c : UInt8) : Place :=
  if c = Byte.lf then ⟨p.line + 1, 1, p.offset + 1⟩ else ⟨p.line, p.column + 1, p.offset + 1⟩

def location (p : Place) : Location :=
  ⟨.ofNat p.line, .ofNat p.column, .ofNat p.offset⟩

end Place

structure Source where
  name : Bytes
  content : Bytes
  deriving DecidableEq, Repr

namespace Source

def defaultName : Bytes :=
  ascii "<input>"

def length (src : Source) : Nat :=
  src.content.length

def slice (src : Source) (start stop : Nat) : Bytes :=
  (src.content.drop start).take (stop - start)

def lineCount (src : Source) : UInt32 :=
  .ofNat (src.content.count Byte.lf + 1)

-- Offsets beyond the end mean the end.
def place (src : Source) (offset : Nat) : Place :=
  (src.content.take offset).foldl Place.next .start

def location (src : Source) (offset : Nat) : Location :=
  (src.place offset).location

-- Only a line that a line feed ends may lose a carriage return.
def numberedLine (src : Source) : Nat → Bytes
  | 0 => []
  | n + 1 =>
      match (lines src.content).drop n with
      | [] => []
      | [l] => l
      | l :: _ :: _ => dropReturn l

def line (src : Source) (number : UInt32) : Bytes :=
  src.numberedLine number.toNat

def ofFile (path : Bytes) : Option Bytes → Except Bytes Source
  | some content => .ok ⟨path, content⟩
  | none => .error (ascii "Failed to open file: " ++ path)

end Source

end MarkupFormat
