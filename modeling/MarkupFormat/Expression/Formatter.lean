import MarkupFormat.Bytes

namespace MarkupFormat.Expression

open Bytes

-- A formatter is a function of the snippet alone.
abbrev Formatter := Bytes → Except Bytes Bytes

def failing : Formatter :=
  fun _ => .error (ascii "syntax error before: end of input")

def scripted (refusals answers : List (Bytes × Bytes)) : Formatter :=
  fun raw =>
    match List.lookup raw refusals with
    | some message => .error message
    | none => .ok ((List.lookup raw answers).getD raw)

end MarkupFormat.Expression
