import MarkupFormat.Bytes.Line
import MarkupFormat.Log.Level

namespace MarkupFormat.Log

open Bytes

structure Filter where
  default : Level
  topics : List (Bytes × Level)
  deriving DecidableEq, Repr

inductive Rule where
  | default (level : Level)
  | topic (name : Bytes) (level : Level)
  deriving DecidableEq, Repr

def Rule.ofText? (t : Bytes) : Option Rule :=
  match cutAt (startsWith [Byte.equals]) t with
  | ([], []) => none
  | (name, []) => some (.topic name .trace)
  | (name, _ :: level) =>
      if name = ascii "*" then some (.default (.ofName level))
      else some (.topic name (.ofName level))

namespace Filter

def empty : Filter :=
  ⟨.info, []⟩

def apply (f : Filter) : Rule → Filter
  | .default level => { f with default := level }
  | .topic name level => { f with topics := (name, level) :: f.topics.filter (·.1 ≠ name) }

def parse (f : Filter) (spec : Bytes) : Filter :=
  ((split Byte.comma spec).filterMap Rule.ofText?).foldl apply { f with topics := [] }

def level (f : Filter) (topic : Bytes) : Level :=
  (f.topics.lookup topic).getD f.default

def allows (f : Filter) (level : Level) (topic : Bytes) : Bool :=
  f.level topic ≤ level

def minLevel (f : Filter) : Level :=
  (f.topics.map Prod.snd).foldl min f.default

end Filter

def heard (level : Level) (entries : List Entry) : List Entry :=
  entries.filter fun e => level ≤ e.level

end MarkupFormat.Log
