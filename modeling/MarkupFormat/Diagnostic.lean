import MarkupFormat.Report

namespace MarkupFormat

open Bytes

structure Palette where
  reset : Bytes
  bold : Bytes
  red : Bytes
  blue : Bytes
  deriving DecidableEq, Repr

def Palette.plain : Palette :=
  ⟨[], [], [], []⟩

def escapeSequence (rendition : String) : Bytes :=
  0x1b :: ascii "[" ++ ascii rendition ++ ascii "m"

def Palette.ansi : Palette :=
  ⟨escapeSequence "0", escapeSequence "1", escapeSequence "91", escapeSequence "94"⟩

namespace Diagnostic

def padLeft (width : Nat) (t : Bytes) : Bytes :=
  spaces (width - t.length) ++ t

def heading (p : Palette) (r : Report) : Bytes :=
  p.bold ++ p.red ++ ascii "error"
    ++ (if r.code = [] then [] else ascii "[" ++ r.code ++ ascii "]")
    ++ p.reset ++ p.bold ++ ascii ": " ++ r.message ++ p.reset ++ [Byte.lf]

def arrow (p : Palette) (src : Source) (r : Report) : Bytes :=
  p.blue ++ ascii "  --> " ++ p.reset
    ++ Report.place (if r.file = [] then src.name else r.file) r.location ++ [Byte.lf]

def caretPad (line : Bytes) (column : Nat) : Bytes :=
  (line.take (column - 1)).map fun c => if c = Byte.tab then Byte.tab else Byte.space

def excerpt (p : Palette) (src : Source) (loc : Location) : Bytes :=
  let line := src.line loc.line
  let number := decimal loc.line.toNat
  let width := max number.length 4
  if line = [] then []
  else
    p.blue ++ spaces width ++ ascii " |" ++ p.reset ++ [Byte.lf]
      ++ p.blue ++ padLeft width number ++ ascii " | " ++ p.reset ++ line ++ [Byte.lf]
      ++ p.blue ++ spaces width ++ ascii " | " ++ p.reset
      ++ caretPad line loc.column.toNat ++ p.red ++ ascii "^" ++ p.reset ++ [Byte.lf]

def note (p : Palette) (t : Bytes) : Bytes :=
  p.blue ++ ascii "     = " ++ p.reset ++ ascii "note: " ++ t ++ [Byte.lf]

def elementNote (p : Palette) (r : Report) : Bytes :=
  if r.elementName = [] then []
  else
    note p (ascii "in <" ++ r.elementName ++ ascii ">"
      ++ if r.attributeName = [] then []
        else ascii " attribute `" ++ r.attributeName ++ ascii "`")

def snippetNote (p : Palette) (r : Report) : Bytes :=
  if r.snippet = [] then [] else note p (ascii "snippet: " ++ r.snippet)

end Diagnostic

open Diagnostic in
def Report.diagnostic (r : Report) (src : Source) (p : Palette) : Bytes :=
  heading p r ++ arrow p src r ++ excerpt p src r.location ++ elementNote p r ++ snippetNote p r

end MarkupFormat
