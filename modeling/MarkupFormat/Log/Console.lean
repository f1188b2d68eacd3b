import MarkupFormat.Diagnostic
import MarkupFormat.Log.Record

namespace MarkupFormat.Log

open Bytes

structure Console where
  colors : Bool
  format : Format
  deriving DecidableEq, Repr

def Level.color : Level → Bytes
  | .trace => escapeSequence "90"
  | .debug => escapeSequence "36"
  | .info => escapeSequence "32"
  | .warn => escapeSequence "33"
  | .error => escapeSequence "31"
  | .fatal => escapeSequence "1;31"
  | .off => []

def Console.ofTerminal (terminal wanted : Bool) : Console :=
  ⟨terminal && wanted, .text⟩

def Console.shownLevel (c : Console) (level : Level) : Bytes :=
  if c.colors then level.color ++ paddedName level ++ Palette.ansi.reset else paddedName level

def Console.line (c : Console) (r : Record) (clock : Bytes) : Bytes :=
  match c.format with
  | .json => r.json ++ [Byte.lf]
  | .text =>
      clock ++ [Byte.space] ++ c.shownLevel r.entry.level ++ r.entry.rest ++ [Byte.lf]

end MarkupFormat.Log
