import MarkupFormat.Bytes

namespace MarkupFormat.Log

open Bytes

inductive Level where
  | trace
  | debug
  | info
  | warn
  | error
  | fatal
  | off
  deriving DecidableEq, Repr

namespace Level

def all : List Level :=
  [trace, debug, info, warn, error, fatal, off]

def rank : Level → Nat
  | trace => 0
  | debug => 1
  | info => 2
  | warn => 3
  | error => 4
  | fatal => 5
  | off => 6

instance : LE Level :=
  ⟨fun a b => a.rank ≤ b.rank⟩

instance (a b : Level) : Decidable (a ≤ b) :=
  inferInstanceAs (Decidable (a.rank ≤ b.rank))

instance : Min Level :=
  ⟨fun a b => if a ≤ b then a else b⟩

def name : Level → Bytes
  | trace => ascii "TRACE"
  | debug => ascii "DEBUG"
  | info => ascii "INFO"
  | warn => ascii "WARN"
  | error => ascii "ERROR"
  | fatal => ascii "FATAL"
  | off => ascii "OFF"

def ofName (t : Bytes) : Level :=
  (all.find? fun l => t = l.name || t = l.name.map Byte.toLower).getD info

end Level

structure Entry where
  level : Level
  topic : Bytes
  message : Bytes
  deriving DecidableEq, Repr

end MarkupFormat.Log
