import MarkupFormat.Source

namespace MarkupFormat

open Bytes

inductive ReportKind where
  | structural
  | expression
  | options
  deriving DecidableEq, Repr

structure Report where
  kind : ReportKind
  code : Bytes
  message : Bytes
  elementName : Bytes
  attributeName : Bytes
  snippet : Bytes
  file : Bytes
  location : Location
  deriving DecidableEq, Repr

namespace Report

def place (file : Bytes) (loc : Location) : Bytes :=
  file ++ ascii ":" ++ decimal loc.line.toNat ++ ascii ":" ++ decimal loc.column.toNat

def summary (r : Report) : Bytes :=
  place (if r.file = [] then Source.defaultName else r.file) r.location
    ++ ascii ": error[" ++ r.code ++ ascii "]: " ++ r.message

end Report

end MarkupFormat
