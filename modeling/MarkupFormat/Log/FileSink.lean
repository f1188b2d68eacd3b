import MarkupFormat.Directory
import MarkupFormat.Log.Record

namespace MarkupFormat.Log

open Bytes

-- How many bytes are written at once of those that wait and of the new ones after them.
abbrev Buffering := Bytes → Bytes → Nat

-- `position` is where the next byte goes, or none if that is always the end.
structure FileSink where
  name : Bytes
  format : Format
  position : Option Nat
  pending : Bytes
  deriving DecidableEq, Repr

namespace FileSink

def open? (dir : Directory) (path : Bytes) (append : Bool) : Option (FileSink × Directory) :=
  (dir.nameOf? path).map fun name =>
    if append then (⟨name, .text, none, []⟩, dir.put name (dir.content name))
    else (⟨name, .text, some 0, []⟩, dir.put name [])

-- Where nothing is written the file stays as it is, even if it has become shorter than the position.
def emit (sink : FileSink) (dir : Directory) (out rest : Bytes) : FileSink × Directory :=
  if out = [] then ({ sink with pending := rest }, dir)
  else
    match sink.position with
    | none => ({ sink with pending := rest }, dir.put sink.name (dir.content sink.name ++ out))
    | some p =>
        ({ sink with pending := rest, position := some (p + out.length) },
          dir.put sink.name (Directory.overwrite (dir.content sink.name) p out))

def flush (sink : FileSink) (dir : Directory) : FileSink × Directory :=
  sink.emit dir sink.pending []

def send (buffering : Buffering) (sink : FileSink) (dir : Directory) (t : Bytes) : FileSink × Directory :=
  let n := buffering sink.pending t
  sink.emit dir ((sink.pending ++ t).take n) ((sink.pending ++ t).drop n)

def line (format : Format) (r : Record) (clock : Bytes) : Bytes :=
  r.write format clock ++ [Byte.lf]

def write (buffering : Buffering) (sink : FileSink) (dir : Directory) (r : Record) (clock : Bytes) :
    FileSink × Directory :=
  let (sink, dir) := sink.send buffering dir (r.write sink.format clock)
  let (sink, dir) := sink.send buffering dir [Byte.lf]
  if Level.error ≤ r.entry.level then sink.flush dir else (sink, dir)

end FileSink

structure FileSession where
  dir : Directory
  sink : Option FileSink

inductive FileStep where
  | put (path content : Bytes)
  | openSink (path : Bytes) (append : Bool)
  | setFormat (format : Format)
  | write (record : Record) (clock : Bytes)
  | flush
  | close
  deriving DecidableEq, Repr

namespace FileSession

def close (s : FileSession) : FileSession :=
  match s.sink with
  | some sink => ⟨(sink.flush s.dir).2, none⟩
  | none => s

def openSink (s : FileSession) (path : Bytes) (append : Bool) : FileSession :=
  match FileSink.open? s.close.dir path append with
  | some (sink, dir) => ⟨dir, some sink⟩
  | none => s.close

def step (buffering : Buffering) (s : FileSession) : FileStep → FileSession
  | .put path content => { s with dir := s.dir.writePath path content }
  | .openSink path append => s.openSink path append
  | .setFormat format => { s with sink := s.sink.map fun sink => { sink with format := format } }
  | .write r clock =>
      match s.sink with
      | some sink => ⟨(sink.write buffering s.dir r clock).2, some (sink.write buffering s.dir r clock).1⟩
      | none => s
  | .flush =>
      match s.sink with
      | some sink => ⟨(sink.flush s.dir).2, some (sink.flush s.dir).1⟩
      | none => s
  | .close => s.close

end FileSession

end MarkupFormat.Log
