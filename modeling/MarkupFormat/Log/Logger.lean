import MarkupFormat.Log.Config
import MarkupFormat.Log.Console
import MarkupFormat.Log.FileSink
import MarkupFormat.Log.Filter

namespace MarkupFormat.Log

open Bytes

inductive Sink where
  | console (c : Console)
  | file (f : FileSink)
  | null
  | capture (number : Nat)
  deriving DecidableEq, Repr

inductive Signal where
  | record (r : Record)
  | flush
  deriving DecidableEq, Repr

structure Logger where
  level : Level
  filter : Filter
  sinks : List Sink
  deriving DecidableEq, Repr

-- The logger with all that its sinks act on.
structure World where
  logger : Logger
  dir : Directory
  shown : Bytes
  captured : List (Nat × Signal)

structure Host where
  terminal : Bool
  buffering : Buffering

def Logger.fresh (terminal : Bool) : Logger :=
  ⟨.warn, { Filter.empty with default := .warn }, [.console (Console.ofTerminal terminal true)]⟩

def Logger.shouldLog (l : Logger) (level : Level) (topic : Bytes) : Bool :=
  l.level ≤ level && l.filter.allows level topic

namespace World

def deliver (buffering : Buffering) (clock : Bytes) (signal : Signal) (w : World) (sink : Sink) : World :=
  let keep (s : Sink) : Logger := { w.logger with sinks := w.logger.sinks ++ [s] }
  match sink, signal with
  | .console c, .record r =>
      { w with logger := keep sink, shown := w.shown ++ c.line r clock }
  | .file f, .record r =>
      let (f, dir) := f.write buffering w.dir r clock
      { w with logger := keep (.file f), dir := dir }
  | .file f, .flush =>
      let (f, dir) := f.flush w.dir
      { w with logger := keep (.file f), dir := dir }
  | .capture n, _ => { w with logger := keep sink, captured := w.captured ++ [(n, signal)] }
  | .console _, .flush | .null, _ => { w with logger := keep sink }

def issue (buffering : Buffering) (clock : Bytes) (w : World) (signal : Signal) : World :=
  w.logger.sinks.foldl (deliver buffering clock signal) { w with logger := { w.logger with sinks := [] } }

def addSink (w : World) (sink : Sink) : World :=
  { w with logger := { w.logger with sinks := w.logger.sinks ++ [sink] } }

def release (w : World) : Sink → World
  | .file f => { w with dir := (f.flush w.dir).2 }
  | _ => w

def clearSinks (w : World) : World :=
  let w' := w.logger.sinks.foldl release w
  { w' with logger := { w'.logger with sinks := [] } }

def configured (config : Config) : Logger :=
  let filter : Filter := { Filter.empty with default := config.level }
  if config.rules = [] then ⟨config.level, filter, []⟩
  else ⟨(filter.parse config.rules).minLevel, filter.parse config.rules, []⟩

def addConsole (terminal : Bool) (config : Config) (w : World) : World :=
  if config.console then
    w.addSink (.console { Console.ofTerminal terminal config.colors with format := config.format })
  else w

def addFile (config : Config) (w : World) : World :=
  if config.file = [] then w
  else
    match FileSink.open? w.dir config.file true with
    | some (f, dir) => { w with dir := dir }.addSink (.file { f with format := config.format })
    | none =>
        { w with shown :=
            w.shown ++ ascii "warning: could not open log file: " ++ config.file ++ [Byte.lf] }

def init (terminal : Bool) (config : Config) (w : World) : World :=
  addFile config (addConsole terminal config { w.clearSinks with logger := configured config })

end World

inductive LogStep where
  | init (config : Config)
  | addSink (sink : Sink)
  | clearSinks
  | setLevel (level : Level)
  | setFilter (rules : Bytes)
  | log (r : Record)
  | logIfHeard (r : Record)
  | flush
  deriving DecidableEq, Repr

def World.step (host : Host) (clock : Bytes) (w : World) : LogStep → World
  | .init config => w.init host.terminal config
  | .addSink sink => w.addSink sink
  | .clearSinks => w.clearSinks
  | .setLevel level =>
      { w with logger :=
          { w.logger with level := level, filter := { w.logger.filter with default := level } } }
  | .setFilter rules =>
      let filter := w.logger.filter.parse rules
      { w with logger :=
          { w.logger with level := min w.logger.level filter.minLevel, filter := filter } }
  | .log r => w.issue host.buffering clock (.record r)
  | .logIfHeard r =>
      if w.logger.shouldLog r.entry.level r.entry.topic then w.issue host.buffering clock (.record r) else w
  | .flush => w.issue host.buffering clock .flush

def World.fresh (host : Host) (dir : Directory) : World :=
  ⟨Logger.fresh host.terminal, dir, [], []⟩

def World.run (host : Host) (w : World) (steps : List (Bytes × LogStep)) : World :=
  steps.foldl (fun w s => w.step host s.1 s.2) w

end MarkupFormat.Log
