import MarkupFormat.Log.Level

namespace MarkupFormat.Log

open Bytes

structure Record where
  entry : Entry
  time : Int
  deriving DecidableEq, Repr

inductive Format where
  | text
  | json
  deriving DecidableEq, Repr

def escapeByte (c : UInt8) : Bytes :=
  if c = Byte.quote then [Byte.backslash, Byte.quote]
  else if c = Byte.backslash then [Byte.backslash, Byte.backslash]
  else if c = Byte.lf then ascii "\\n"
  else if c = Byte.cr then ascii "\\r"
  else if c = Byte.tab then ascii "\\t"
  else [c]

-- Of the control characters only tabs and line ends are escaped.
def escape (t : Bytes) : Bytes :=
  t.flatMap escapeByte

def padRight (width : Nat) (t : Bytes) : Bytes :=
  t ++ spaces (width - t.length)

def paddedName (level : Level) : Bytes :=
  padRight 5 level.name

def Entry.rest (e : Entry) : Bytes :=
  ascii " [" ++ e.topic ++ ascii "] " ++ e.message

def Record.text (r : Record) (clock : Bytes) : Bytes :=
  clock ++ [Byte.space] ++ paddedName r.entry.level ++ r.entry.rest

def jsonField (name value : Bytes) : Bytes :=
  Byte.quote :: name ++ ascii "\":" ++ value

def jsonString (t : Bytes) : Bytes :=
  Byte.quote :: escape t ++ [Byte.quote]

def Record.json (r : Record) : Bytes :=
  Byte.openBrace :: [Byte.comma].intercalate
    [jsonField (ascii "ts") (decimalInt r.time),
      jsonField (ascii "level") (Byte.quote :: r.entry.level.name ++ [Byte.quote]),
      jsonField (ascii "module") (jsonString r.entry.topic),
      jsonField (ascii "msg") (jsonString r.entry.message)]
    ++ [Byte.closeBrace]

def Record.write (r : Record) (format : Format) (clock : Bytes) : Bytes :=
  match format with
  | .text => r.text clock
  | .json => r.json

end MarkupFormat.Log
