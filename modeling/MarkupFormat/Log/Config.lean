import MarkupFormat.Log.Record

namespace MarkupFormat.Log

open Bytes

-- `rules` is the text of a filter, and `file` the path of a log file; each is empty if there is none.
structure Config where
  level : Level
  format : Format
  rules : Bytes
  file : Bytes
  console : Bool
  colors : Bool
  deriving DecidableEq, Repr

def Config.default : Config :=
  ⟨.warn, .text, [], [], true, true⟩

structure Request where
  level : Option Level
  rules : Option Bytes
  file : Option Bytes
  format : Option Format
  verbosity : Nat
  noColor : Bool
  deriving DecidableEq, Repr

namespace Request

def empty : Request :=
  ⟨none, none, none, none, 0, false⟩

def value? (option : String) (argument : Bytes) : Option Bytes :=
  if startsWith (ascii option) argument then some (argument.drop (ascii option).length) else none

def isVerboseByte (c : UInt8) : Bool :=
  c = 118

-- Arguments are shorter than 2^31 bytes, so their count is that of a word of 32 bits with a sign.
def verboseCount : Bytes → Nat
  | c :: d :: t => if c = Byte.dash && (d :: t).all isVerboseByte then t.length + 1 else 0
  | _ => 0

def formatOfName (t : Bytes) : Format :=
  if t = ascii "json" || t = ascii "JSON" then .json else .text

def note (r : Request) (argument : Bytes) : Request :=
  match value? "--log-level=" argument, value? "--log-filter=" argument,
      value? "--log-file=" argument, value? "--log-format=" argument with
  | some t, _, _, _ => { r with level := some (.ofName t) }
  | _, some t, _, _ => { r with rules := some t }
  | _, _, some t, _ => { r with file := some t }
  | _, _, _, some t => { r with format := some (formatOfName t) }
  | none, none, none, none =>
      if argument = ascii "--no-color" then { r with noColor := true }
      else if argument = ascii "-q" || argument = ascii "--quiet" then
        { r with level := some .error }
      else if argument = ascii "--verbose" then { r with verbosity := max r.verbosity 1 }
      else { r with verbosity := max r.verbosity (verboseCount argument) }

def verboseLevel? : Nat → Option Level
  | 0 => none
  | 1 => some .info
  | 2 => some .debug
  | _ => some .trace

def chosenLevel? (r : Request) : Option Level :=
  r.level <|> verboseLevel? r.verbosity

def heededEnvironment (r : Request) (environment : Bytes) : Bytes :=
  if r.chosenLevel?.isSome || r.rules.isSome then [] else environment

def isRules (t : Bytes) : Bool :=
  t.contains Byte.equals || t.contains Byte.comma

def config (r : Request) (environment : Bytes) : Config :=
  let env := r.heededEnvironment environment
  { level :=
      r.chosenLevel?.getD
        (if env = [] || isRules env then Config.default.level else .ofName env)
    format := r.format.getD Config.default.format
    rules := r.rules.getD (if isRules env then env else [])
    file := r.file.getD []
    console := true
    colors := !r.noColor }

end Request

def Config.ofArguments (arguments : List Bytes) (environment : Bytes) : Config :=
  (arguments.foldl Request.note .empty).config environment

end MarkupFormat.Log
