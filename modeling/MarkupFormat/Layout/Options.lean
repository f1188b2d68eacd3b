import MarkupFormat.Report

namespace MarkupFormat.Layout

open Bytes

inductive Newline where
  | lf
  | crlf
  deriving DecidableEq, Repr

def Newline.text : Newline → Bytes
  | .lf => [Byte.lf]
  | .crlf => [Byte.cr, Byte.lf]

structure Options where
  lineLength : Int
  newline : Newline
  deriving DecidableEq, Repr

def Options.default : Options :=
  ⟨98, .lf⟩

def indentWidth : Nat :=
  2

def indent (depth : Nat) : Bytes :=
  spaces (indentWidth * depth)

-- A negative line length sets no limit.
def Options.exceeds (opts : Options) (width : Nat) : Bool :=
  0 ≤ opts.lineLength && opts.lineLength < width

def Options.report? (opts : Options) : Option Report :=
  if 1 ≤ opts.lineLength then none
  else
    some {
      kind := .options
      code := ascii "O001"
      message := ascii "line_length must be a positive integer, got " ++ decimalInt opts.lineLength
      elementName := []
      attributeName := []
      snippet := []
      file := []
      location := .start }

end MarkupFormat.Layout
