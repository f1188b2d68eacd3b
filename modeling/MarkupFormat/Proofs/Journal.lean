import MarkupFormat.Log.Logger
import MarkupFormat.Proofs.Entries
import MarkupFormat.Proofs.LogFiles

namespace MarkupFormat.Log

open Bytes

namespace LogStep

def Removes : LogStep → Prop
  | .init _ | .clearSinks => True
  | .addSink _ | .setLevel _ | .setFilter _ | .log _ | .logIfHeard _ | .flush => False

def signal? (l : Logger) : LogStep → Option Signal
  | .log r => some (.record r)
  | .logIfHeard r => if l.shouldLog r.entry.level r.entry.topic then some (.record r) else none
  | .flush => some .flush
  | .init _ | .addSink _ | .clearSinks | .setLevel _ | .setFilter _ => none

theorem signal?_of_removes {s : LogStep} (hs : s.Removes) (l : Logger) : s.signal? l = none := by
  cases s with
  | init | clearSinks => rfl
  | addSink | setLevel | setFilter | log | logIfHeard | flush => exact hs.elim

end LogStep

namespace FileSink

def idle (f : FileSink) : FileSink :=
  ⟨f.name, f.format, none, []⟩

theorem Continues.idle {f : FileSink} {dir : Directory} {after : FileSink × Directory}
    (h : Continues f dir after) : after.1.idle = f.idle := by
  rw [FileSink.idle, h.name, h.format]
  rfl

def receive (buffering : Buffering) (f : FileSink) (dir : Directory) (clock : Bytes) :
    Signal → FileSink × Directory
  | .record r => f.write buffering dir r clock
  | .flush => f.flush dir

def text (format : Format) (clock : Bytes) : Signal → Bytes
  | .record r => line format r clock
  | .flush => []

theorem receive_continues (buffering : Buffering) (f : FileSink) (dir : Directory) (clock : Bytes)
    (signal : Signal) : Continues f dir (f.receive buffering dir clock signal) := by
  cases signal with
  | record r => exact f.write_continues buffering dir r clock
  | flush => exact f.flush_continues dir

theorem receive_appends (buffering : Buffering) {f : FileSink} {dir : Directory} (h : f.AtEnd dir) (clock : Bytes)
    (signal : Signal) :
    Appends f dir (text f.format clock signal) (f.receive buffering dir clock signal) := by
  cases signal with
  | record r => exact write_appends h buffering r clock
  | flush => exact flush_appends h

end FileSink

namespace Sink

def idle : Sink → Sink
  | .file f => .file f.idle
  | .console c => .console c
  | .null => .null
  | .capture n => .capture n

-- What a sink shows on the console for a signal.
def shown (clock : Bytes) : Signal → Sink → Bytes
  | .record r, .console c => c.line r clock
  | .flush, _ | .record _, .file _ | .record _, .null | .record _, .capture _ => []

-- What a sink keeps of a signal for whoever added it.
def captured (signal : Signal) : Sink → List (Nat × Signal)
  | .capture n => [(n, signal)]
  | .console _ | .file _ | .null => []

theorem shown_idle (clock : Bytes) (signal : Signal) (sink : Sink) :
    sink.idle.shown clock signal = sink.shown clock signal := by
  cases sink <;> cases signal <;> rfl

theorem captured_idle (signal : Signal) (sink : Sink) : sink.idle.captured signal = sink.captured signal := by
  cases sink <;> rfl

end Sink

-- What happens to the sinks, which are numbered in the order in which they were added.
inductive Event where
  | received (number : Nat) (clock : Bytes) (signal : Signal)
  | removed (number : Nat)
  | opened (path : Bytes)
  | refused (path : Bytes)

namespace Event

def number? : Event → Option Nat
  | .received i _ _ | .removed i => some i
  | .opened _ | .refused _ => none

def receipt? : Event → Option (Nat × Signal)
  | .received i _ signal => some (i, signal)
  | .removed _ | .opened _ | .refused _ => none

def shown (roster : List Sink) : Event → Bytes
  | .received i clock signal => roster[i]?.elim [] (Sink.shown clock signal)
  | .refused path => ascii "warning: could not open log file: " ++ path ++ [Byte.lf]
  | .removed _ | .opened _ => []

def captured (roster : List Sink) : Event → List (Nat × Signal)
  | .received i _ signal => roster[i]?.elim [] (Sink.captured signal)
  | .removed _ | .opened _ | .refused _ => []

-- What the sink of a number adds to its file.
def written (number : Nat) (format : Format) : Event → Bytes
  | .received i clock signal => if i = number then FileSink.text format clock signal else []
  | .removed _ | .opened _ | .refused _ => []

-- The events fill a list by what each sink adds to it for what it receives.
structure Fills {α : Type} (part : Bytes → Signal → Sink → List α) (gives : List Sink → Event → List α) : Prop where
  idle : ∀ clock signal sink, part clock signal sink.idle = part clock signal sink
  received : ∀ roster i clock signal, gives roster (.received i clock signal) = roster[i]?.elim [] (part clock signal)
  removed : ∀ roster i, gives roster (.removed i) = []
  others : ∀ roster roster' e, e.number? = none → gives roster e = gives roster' e

theorem fills_shown : Fills Sink.shown shown where
  idle := Sink.shown_idle
  received _ _ _ _ := rfl
  removed _ _ := rfl
  others _ _ e h := by
    cases e with
    | received | removed => cases h
    | opened | refused => rfl

theorem fills_captured : Fills (fun _ => Sink.captured) captured where
  idle _ := Sink.captured_idle
  received _ _ _ _ := rfl
  removed _ _ := rfl
  others _ _ e h := by
    cases e with
    | received | removed => cases h
    | opened | refused => rfl

theorem Fills.append {α : Type} {part : Bytes → Signal → Sink → List α} {gives : List Sink → Event → List α}
    (hfills : Fills part gives) {roster : List Sink} {e : Event} (h : ∀ i ∈ e.number?, i < roster.length)
    (more : List Sink) : gives (roster ++ more) e = gives roster e := by
  cases e with
  | received i clock signal =>
      rw [hfills.received, hfills.received, List.getElem?_append_left (h i rfl)]
  | removed i => rw [hfills.removed, hfills.removed]
  | opened | refused => exact hfills.others _ _ _ rfl

section Files

variable (buffering : Buffering)

-- Files are written by the sinks as they have become, so a state is of the sinks and of the directory.
def serve (st : List Sink × Directory) (i : Nat) (clock : Bytes) (signal : Signal) : List Sink × Directory :=
  match st.1[i]? with
  | some (.file f) =>
      let (f, dir) := f.receive buffering st.2 clock signal
      (st.1.set i (.file f), dir)
  | _ => st

-- A sink that is removed writes what still waits.
def act (st : List Sink × Directory) : Event → List Sink × Directory
  | .received i clock signal => serve buffering st i clock signal
  | .removed i => serve buffering st i [] .flush
  | .opened path => (st.1, ((FileSink.open? st.2 path true).map Prod.snd).getD st.2)
  | .refused _ => st

end Files

section Files

variable {buffering : Buffering}

theorem length_serve (buffering : Buffering) (st : List Sink × Directory) (i : Nat) (clock : Bytes) (signal : Signal) :
    (serve buffering st i clock signal).1.length = st.1.length := by
  unfold serve
  split
  · exact List.length_set
  · rfl

theorem serve_append (buffering : Buffering) {st : List Sink × Directory} {i : Nat} (h : i < st.1.length)
    (clock : Bytes) (signal : Signal) (more : List Sink) : serve buffering (st.1 ++ more, st.2) i clock signal =
      ((serve buffering st i clock signal).1 ++ more, (serve buffering st i clock signal).2) := by
  simp only [serve, List.getElem?_append_left h]
  split
  · rw [List.set_append_left i _ h]
  · rfl

theorem length_act (st : List Sink × Directory) (e : Event) : (act buffering st e).1.length = st.1.length := by
  cases e with
  | received i clock signal => exact length_serve buffering st i clock signal
  | removed i => exact length_serve buffering st i [] .flush
  | opened | refused => rfl

theorem length_foldl_act (journal : List Event) : ∀ st : List Sink × Directory,
    (journal.foldl (act buffering) st).1.length = st.1.length := by
  induction journal with
  | nil => exact fun _ => rfl
  | cons e journal ih => exact fun st => (ih (act buffering st e)).trans (length_act st e)

theorem act_append {st : List Sink × Directory} {e : Event} (h : ∀ i ∈ e.number?, i < st.1.length)
    (more : List Sink) : act buffering (st.1 ++ more, st.2) e =
      ((act buffering st e).1 ++ more, (act buffering st e).2) := by
  cases e with
  | received i clock signal => exact serve_append buffering (h i rfl) clock signal more
  | removed i => exact serve_append buffering (h i rfl) [] .flush more
  | opened | refused => rfl

-- Sinks that are added later take no part in what has happened before.
theorem foldl_act_append (buffering : Buffering) (more : List Sink) (journal : List Event) :
    ∀ st : List Sink × Directory, (∀ e ∈ journal, ∀ i ∈ e.number?, i < st.1.length) →
    journal.foldl (act buffering) (st.1 ++ more, st.2) =
      ((journal.foldl (act buffering) st).1 ++ more, (journal.foldl (act buffering) st).2) := by
  induction journal with
  | nil => exact fun _ _ => rfl
  | cons e journal ih =>
      intro st h
      rw [List.forall_mem_cons] at h
      rw [List.foldl_cons, List.foldl_cons, act_append h.1]
      refine ih (act buffering st e) ?_
      rw [length_act]
      exact h.2

-- The sink of a number writes at the end of its file, and no other sink writes that file.
structure Alone (st : List Sink × Directory) (number : Nat) (name : Bytes) (format : Format) (text : Bytes) :
    Prop where
  sink : ∃ f, st.1[number]? = some (.file f) ∧ f.name = name ∧ f.format = format ∧ f.AtEnd st.2 ∧
    st.2.content name ++ f.pending = text
  only : ∀ i f, st.1[i]? = some (.file f) → f.name = name → i = number

variable {st : List Sink × Directory} {number : Nat} {name : Bytes} {format : Format} {text : Bytes}

theorem alone_serve (buffering : Buffering) (h : Alone st number name format text) (i : Nat) (clock : Bytes)
    (signal : Signal) : Alone (serve buffering st i clock signal) number name format
      (text ++ if i = number then FileSink.text format clock signal else []) := by
  obtain ⟨f, hf, hname, hformat, hend, htext⟩ := h.sink
  simp only [serve]
  split
  · next g hg =>
      have hlt : i < st.1.length := (List.getElem?_eq_some_iff.1 hg).1
      have hserved := g.receive_continues buffering st.2 clock signal
      have honly : ∀ j k, (st.1.set i (.file (g.receive buffering st.2 clock signal).1))[j]? = some (.file k) →
          k.name = name → j = number := by
        intro j k hk hkname
        rw [List.getElem?_set] at hk
        split at hk
        · next hij =>
            rw [Option.some.injEq, Sink.file.injEq] at hk
            exact hij ▸ h.only i g hg (hserved.name ▸ hk ▸ hkname)
        · exact h.only j k hk hkname
      refine ⟨?_, honly⟩
      by_cases hi : i = number
      · subst hi
        cases hf.symm.trans hg
        have happends := FileSink.receive_appends buffering hend clock signal
        obtain ⟨out, hcontent, hpending⟩ := happends.content
        refine ⟨_, List.getElem?_set_self hlt, hserved.name.trans hname, hserved.format.trans hformat,
          happends.atEnd, ?_⟩
        rw [hname] at hcontent
        rw [hcontent, List.append_assoc, hpending, ← List.append_assoc, htext, hformat, if_pos rfl]
      · have hother : g.name ≠ name := fun hsame => hi (h.only i g hg hsame)
        refine ⟨f, ?_, hname, hformat, hend.of_content ?_, ?_⟩
        · rw [List.getElem?_set_ne hi, hf]
        · rw [hname, hserved.others name hother]
        · rw [hserved.others name hother, htext, if_neg hi, List.append_nil]
  · next hnot =>
      have hi : i ≠ number := fun hi => hnot f (hi ▸ hf)
      rw [if_neg hi, List.append_nil]
      exact h

theorem alone_act (h : Alone st number name format text) (e : Event) :
    Alone (act buffering st e) number name format (text ++ e.written number format) := by
  cases e with
  | received i clock signal => exact alone_serve buffering h i clock signal
  | removed i =>
      have hserved := alone_serve buffering h i [] .flush
      rwa [FileSink.text, ite_self] at hserved
  | opened path =>
      obtain ⟨f, hf, hname, hformat, hend, htext⟩ := h.sink
      have hcontent : (act buffering st (.opened path)).2.content name = st.2.content name := by
        simp only [act, FileSink.open?]
        cases st.2.nameOf? path with
        | none => rfl
        | some file => exact st.2.content_put_content file name
      refine ⟨⟨f, hf, hname, hformat, hend.of_content (hname ▸ hcontent), ?_⟩, h.only⟩
      rw [written, List.append_nil, hcontent, htext]
  | refused => rwa [written, List.append_nil]

theorem alone_foldl_act (buffering : Buffering) (journal : List Event) :
    ∀ {st : List Sink × Directory} {text : Bytes}, Alone st number name format text →
      Alone (journal.foldl (act buffering) st) number name format
        (text ++ journal.flatMap (written number format)) := by
  induction journal with
  | nil => exact fun h => (List.append_nil _).symm ▸ h
  | cons e journal ih =>
      intro st text h
      rw [List.foldl_cons, List.flatMap_cons, ← List.append_assoc]
      exact ih (alone_act h e)

end Files

end Event

namespace World

variable {buffering : Buffering} {host : Host} {clock : Bytes} {signal : Signal}

def signals (host : Host) : World → List (Bytes × LogStep) → List Signal
  | _, [] => []
  | w, s :: steps => (s.2.signal? w.logger).toList ++ signals host (w.step host s.1 s.2) steps

theorem step_of_signal {w : World} {s : LogStep} (h : s.signal? w.logger = some signal) :
    w.step host clock s = w.issue host.buffering clock signal := by
  cases s with
  | log r => exact Option.some.inj h ▸ rfl
  | logIfHeard r =>
      rw [LogStep.signal?, Option.ite_none_right_eq_some] at h
      rw [step, if_pos h.1, Option.some.inj h.2]
  | flush => exact Option.some.inj h ▸ rfl
  | init | addSink | clearSinks | setLevel | setFilter => cases h

theorem step_of_unheard {w : World} {r : Record} (h : (LogStep.logIfHeard r).signal? w.logger = none) :
    w.step host clock (.logIfHeard r) = w := by
  rw [LogStep.signal?, ite_eq_right_iff] at h
  exact if_neg fun hheard => nomatch h hheard

def idle (w : World) : List Sink :=
  w.logger.sinks.map Sink.idle

theorem length_idle (w : World) : w.idle.length = w.logger.sinks.length :=
  List.length_map _

section Issued

theorem deliver_file (w : World) (f : FileSink) : deliver buffering clock signal w (.file f) =
    { w with
      logger := { w.logger with
        sinks := w.logger.sinks ++ [.file (f.receive buffering w.dir clock signal).1] }
      dir := (f.receive buffering w.dir clock signal).2 } := by
  cases signal <;> rfl

theorem sinks_deliver {sink : Sink} (h : ∀ f, sink ≠ .file f) (w : World) :
    (deliver buffering clock signal w sink).logger.sinks = w.logger.sinks ++ [sink] ∧
      (deliver buffering clock signal w sink).dir = w.dir := by
  cases sink with
  | file f => exact absurd rfl (h f)
  | console | null | capture => cases signal <;> exact ⟨rfl, rfl⟩

theorem idle_deliver (w : World) (sink : Sink) :
    (deliver buffering clock signal w sink).idle = w.idle ++ [sink.idle] := by
  cases sink with
  | file f =>
      rw [deliver_file, idle, List.map_append, List.map_singleton, Sink.idle,
        (f.receive_continues buffering w.dir clock signal).idle]
      rfl
  | console | null | capture => rw [idle, (sinks_deliver (by simp) w).1, List.map_append]; rfl

theorem idle_issue (w : World) : (w.issue buffering clock signal).idle = w.idle := by
  have hfold := list_foldl_append idle _ (@idle_deliver buffering clock signal) w.logger.sinks
    { w with logger := { w.logger with sinks := [] } }
  rwa [← List.map_eq_flatMap] at hfold

theorem shown_issue (w : World) : (w.issue buffering clock signal).shown =
    w.shown ++ w.logger.sinks.flatMap (Sink.shown clock signal) := by
  refine list_foldl_append shown _ (fun w sink => ?_) w.logger.sinks _
  cases sink <;> cases signal <;> simp [deliver, Sink.shown]

theorem captured_issue (w : World) : (w.issue buffering clock signal).captured =
    w.captured ++ w.logger.sinks.flatMap (Sink.captured signal) := by
  refine list_foldl_append captured _ (fun w sink => ?_) w.logger.sinks _
  cases sink <;> cases signal <;> simp [deliver, Sink.captured]

theorem length_deliver (w : World) (sink : Sink) :
    (deliver buffering clock signal w sink).logger.sinks.length = w.logger.sinks.length + 1 := by
  rw [← length_idle, idle_deliver, List.length_append, length_idle]
  rfl

theorem act_received (gone sinks : List Sink) (w : World) (sink : Sink) :
    Event.act buffering (gone ++ w.logger.sinks ++ sink :: sinks, w.dir)
        (.received (gone ++ w.logger.sinks).length clock signal) =
      (gone ++ (deliver buffering clock signal w sink).logger.sinks ++ sinks,
        (deliver buffering clock signal w sink).dir) := by
  have hhead : (gone ++ w.logger.sinks ++ sink :: sinks)[(gone ++ w.logger.sinks).length]? = some sink := by
    simp
  simp only [Event.act, Event.serve, hhead]
  split
  · next f hf =>
      cases hf
      rw [deliver_file]
      simp
  · next hnot =>
      obtain ⟨hsinks, hdir⟩ := sinks_deliver (fun f hf => hnot f (congrArg some hf)) w
      rw [hsinks, hdir]
      simp

-- The sinks in force are served one after another, each in its place after those that are gone.
theorem foldl_act_received (buffering : Buffering) (clock : Bytes) (signal : Signal) (gone sinks : List Sink) :
    ∀ w : World,
    ((List.range' (gone ++ w.logger.sinks).length sinks.length).map (Event.received · clock signal)).foldl
        (Event.act buffering) (gone ++ w.logger.sinks ++ sinks, w.dir) =
      (gone ++ (sinks.foldl (deliver buffering clock signal) w).logger.sinks,
        (sinks.foldl (deliver buffering clock signal) w).dir) := by
  induction sinks with
  | nil => simp
  | cons sink sinks ih =>
      intro w
      have htail := ih (deliver buffering clock signal w sink)
      rw [List.length_append, length_deliver, ← Nat.add_assoc, ← List.length_append] at htail
      rw [List.length_cons, List.range'_succ, List.map_cons, List.foldl_cons, act_received]
      exact htail

end Issued

section Removed

def Settled (sinks : List Sink) : Prop :=
  ∀ f, .file f ∈ sinks → f.pending = []

theorem settled_append {sinks more : List Sink} (h : Settled sinks) (hmore : Settled more) :
    Settled (sinks ++ more) := fun f hf =>
  (List.mem_append.1 hf).elim (h f) (hmore f)

theorem act_removed (gone sinks : List Sink) (w : World) (sink : Sink) : ∃ left, Settled [left] ∧
    Event.act buffering (gone ++ sink :: sinks, w.dir) (.removed gone.length) =
      (gone ++ [left] ++ sinks, (release w sink).dir) := by
  have hhead : (gone ++ sink :: sinks)[gone.length]? = some sink := by simp
  simp only [Event.act, Event.serve, hhead]
  cases sink with
  | file f =>
      refine ⟨.file (f.flush w.dir).1, ?_, by simp [FileSink.receive, release]⟩
      intro g hg
      cases List.mem_singleton.1 hg
      exact f.flush_pending w.dir
  | console c => exact ⟨.console c, by simp [Settled], by simp [release]⟩
  | null => exact ⟨.null, by simp [Settled], by simp [release]⟩
  | capture n => exact ⟨.capture n, by simp [Settled], by simp [release]⟩

-- Sinks that are removed have nothing left to write.
theorem foldl_act_removed (buffering : Buffering) (sinks : List Sink) : ∀ (gone : List Sink) (w : World),
    ∃ settled, Settled settled ∧
      ((List.range' gone.length sinks.length).map Event.removed).foldl (Event.act buffering) (gone ++ sinks, w.dir) =
        (gone ++ settled, (sinks.foldl release w).dir) := by
  induction sinks with
  | nil => exact fun gone w => ⟨[], by simp [Settled], rfl⟩
  | cons sink sinks ih =>
      intro gone w
      obtain ⟨left, hleft, hact⟩ := act_removed gone sinks w sink
      obtain ⟨settled, hsettled, htail⟩ := ih (gone ++ [left]) (release w sink)
      refine ⟨left :: settled, settled_append hleft hsettled, ?_⟩
      rw [List.length_append, List.append_assoc gone [left] settled] at htail
      rw [List.length_cons, List.range'_succ, List.map_cons, List.foldl_cons, hact]
      exact htail

-- Sinks that are removed leave nothing but their files.
theorem clearSinks_leaves (w : World) : w.clearSinks.shown = w.shown ∧ w.clearSinks.captured = w.captured ∧
    w.clearSinks.dir.nameOf? = w.dir.nameOf? := by
  have hfold : ∀ (sinks : List Sink) (w : World), (sinks.foldl release w).shown = w.shown ∧
      (sinks.foldl release w).captured = w.captured ∧
        (sinks.foldl release w).dir.nameOf? = w.dir.nameOf? := by
    intro sinks
    induction sinks with
    | nil => exact fun _ => ⟨rfl, rfl, rfl⟩
    | cons sink sinks ih =>
        intro w
        obtain ⟨hshown, hcaptured, hopens⟩ := ih (release w sink)
        rw [List.foldl_cons, hshown, hcaptured, hopens]
        cases sink with
        | file f => exact ⟨rfl, rfl, (f.flush_continues w.dir).nameOf?⟩
        | console | null | capture => exact ⟨rfl, rfl, rfl⟩
  exact hfold w.logger.sinks w

end Removed

section Added

def openings (w : World) : LogStep → List Event
  | .init config =>
      if config.file = [] then []
      else if (w.dir.nameOf? config.file).isSome then [.opened config.file]
      else [.refused config.file]
  | .addSink _ | .clearSinks | .setLevel _ | .setFilter _ | .log _ | .logIfHeard _ | .flush => []

def added (host : Host) (w : World) : LogStep → List Sink
  | .init config => (w.init host.terminal config).logger.sinks
  | .addSink sink => [sink]
  | .clearSinks | .setLevel _ | .setFilter _ | .log _ | .logIfHeard _ | .flush => []

theorem number?_of_mem_openings {w : World} {s : LogStep} {e : Event} (he : e ∈ w.openings s) :
    e.number? = none := by
  cases s with
  | init config =>
      rw [openings] at he
      split at he
      · cases he
      · split at he <;> rw [List.mem_singleton.1 he] <;> rfl
  | addSink | clearSinks | setLevel | setFilter | log | logIfHeard | flush => cases he

theorem captured_openings (w : World) (s : LogStep) (roster : List Sink) :
    (w.openings s).flatMap (Event.captured roster) = [] := by
  rw [List.flatMap_eq_nil_iff]
  intro e he
  have hnumber := number?_of_mem_openings he
  cases e with
  | received | removed => cases hnumber
  | opened | refused => rfl

theorem openings_congr {w v : World} (h : w.dir.nameOf? = v.dir.nameOf?) (s : LogStep) :
    w.openings s = v.openings s := by
  cases s with
  | init config => simp only [openings, h]
  | addSink | clearSinks | setLevel | setFilter | log | logIfHeard | flush => rfl

theorem added_of_signal {w : World} {s : LogStep} (h : s.signal? w.logger = some signal) :
    w.added host s = [] := by
  cases s with
  | init | addSink => cases h
  | clearSinks | setLevel | setFilter | log | logIfHeard | flush => rfl

theorem openings_of_signal {w : World} {s : LogStep} (h : s.signal? w.logger = some signal) :
    w.openings s = [] := by
  cases s with
  | init => cases h
  | addSink | clearSinks | setLevel | setFilter | log | logIfHeard | flush => rfl

theorem addConsole_leaves (terminal : Bool) (config : Config) (w : World) :
    (addConsole terminal config w).shown = w.shown ∧ (addConsole terminal config w).captured = w.captured ∧
      (addConsole terminal config w).dir = w.dir := by
  unfold addConsole
  split <;> exact ⟨rfl, rfl, rfl⟩

theorem addFile_leaves (buffering : Buffering) (config : Config) (w : World) (roster sinks : List Sink) :
    (addFile config w).shown = w.shown ++ (w.openings (.init config)).flatMap (Event.shown roster) ∧
      (addFile config w).captured = w.captured ∧
        (w.openings (.init config)).foldl (Event.act buffering) (sinks, w.dir) = (sinks, (addFile config w).dir) := by
  unfold addFile openings
  by_cases hfile : config.file = []
  · simp [hfile]
  · cases hname : w.dir.nameOf? config.file <;>
      simp [hfile, hname, FileSink.open?, Event.shown, Event.act, addSink]

theorem init_leaves (terminal : Bool) (buffering : Buffering) (w : World) (config : Config)
    (roster sinks : List Sink) :
    (w.init terminal config).shown = w.shown ++ (w.openings (.init config)).flatMap (Event.shown roster) ∧
      (w.init terminal config).captured = w.captured ∧
        (w.openings (.init config)).foldl (Event.act buffering) (sinks, w.clearSinks.dir) =
          (sinks, (w.init terminal config).dir) := by
  obtain ⟨hshown, hcaptured, hopens⟩ := w.clearSinks_leaves
  obtain ⟨hshown', hcaptured', hdir'⟩ :=
    addConsole_leaves terminal config { w.clearSinks with logger := configured config }
  obtain ⟨hshown'', hcaptured'', hdir''⟩ := addFile_leaves buffering config
    (addConsole terminal config { w.clearSinks with logger := configured config }) roster sinks
  have hopenings := openings_congr (congrArg Directory.nameOf? hdir' |>.trans hopens) (.init config)
  rw [hopenings, hshown', hshown] at hshown''
  rw [hopenings, hdir'] at hdir''
  exact ⟨hshown'', hcaptured''.trans (hcaptured'.trans hcaptured), hdir''⟩

end Added

section Steps

variable {w : World} {s : LogStep}

theorem shown_step (host : Host) (clock : Bytes) (w : World) (s : LogStep) (roster : List Sink) :
    (w.step host clock s).shown = w.shown ++
      ((s.signal? w.logger).toList.flatMap (fun signal => w.logger.sinks.flatMap (Sink.shown clock signal)) ++
        (w.openings s).flatMap (Event.shown roster)) := by
  cases h : s.signal? w.logger with
  | some signal =>
      rw [step_of_signal h, shown_issue, openings_of_signal h]
      simp
  | none =>
      cases s with
      | log | flush => cases h
      | logIfHeard r =>
          rw [step_of_unheard h]
          exact (List.append_nil _).symm
      | init config => exact (init_leaves host.terminal host.buffering w config roster []).1
      | clearSinks => exact w.clearSinks_leaves.1.trans (List.append_nil _).symm
      | addSink | setLevel | setFilter => exact (List.append_nil _).symm

theorem captured_step (host : Host) (clock : Bytes) (w : World) (s : LogStep) :
    (w.step host clock s).captured = w.captured ++
      (s.signal? w.logger).toList.flatMap (fun signal => w.logger.sinks.flatMap (Sink.captured signal)) := by
  cases h : s.signal? w.logger with
  | some signal =>
      rw [step_of_signal h, captured_issue]
      simp
  | none =>
      cases s with
      | log | flush => cases h
      | logIfHeard r =>
          rw [step_of_unheard h]
          exact (List.append_nil _).symm
      | init config =>
          exact (init_leaves host.terminal host.buffering w config [] []).2.1.trans (List.append_nil _).symm
      | clearSinks => exact w.clearSinks_leaves.2.1.trans (List.append_nil _).symm
      | addSink | setLevel | setFilter => exact (List.append_nil _).symm

theorem sinks_of_no_signal (host : Host) (clock : Bytes) (h : s.signal? w.logger = none) (hs : ¬s.Removes) :
    (w.step host clock s).logger.sinks = w.logger.sinks ++ w.added host s ∧
      (w.step host clock s).dir = w.dir ∧ w.openings s = [] := by
  cases s with
  | log | flush => cases h
  | logIfHeard r =>
      rw [step_of_unheard h]
      exact ⟨(List.append_nil _).symm, rfl, rfl⟩
  | init | clearSinks => exact absurd trivial hs
  | addSink sink => exact ⟨rfl, rfl, rfl⟩
  | setLevel | setFilter => exact ⟨(List.append_nil _).symm, rfl, rfl⟩

theorem sinks_of_removes (hs : s.Removes) : (w.step host clock s).logger.sinks = w.added host s := by
  cases s with
  | init | clearSinks => rfl
  | addSink | setLevel | setFilter | log | logIfHeard | flush => exact hs.elim

theorem dir_of_removes (hs : s.Removes) (sinks : List Sink) :
    (w.openings s).foldl (Event.act buffering) (sinks, w.clearSinks.dir) =
      (sinks, (w.step host clock s).dir) := by
  cases s with
  | init config => exact (init_leaves host.terminal buffering w config [] sinks).2.2
  | clearSinks => rfl
  | addSink | setLevel | setFilter | log | logIfHeard | flush => exact hs.elim

theorem idle_step (hs : ¬s.Removes) :
    (w.step host clock s).idle = w.idle ++ (w.added host s).map Sink.idle := by
  cases h : s.signal? w.logger with
  | some signal => rw [step_of_signal h, idle_issue, added_of_signal h, List.map_nil, List.append_nil]
  | none => rw [idle, (sinks_of_no_signal host clock h hs).1, List.map_append]; rfl

theorem idle_of_removes (hs : s.Removes) : (w.step host clock s).idle = (w.added host s).map Sink.idle := by
  rw [idle, sinks_of_removes hs]

end Steps

end World

end MarkupFormat.Log
