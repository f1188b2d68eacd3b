import MarkupFormat.Log.FileSink
import MarkupFormat.Proofs.Entries

namespace MarkupFormat

namespace Directory

variable {dir : Directory} {name other : Bytes}

theorem content?_put_ne (h : name ≠ other) (t : Bytes) : (dir.put name t).content? other = dir.content? other := by
  have hne : (other == name) = false := beq_eq_false_iff_ne.2 (Ne.symm h)
  rw [content?, put, List.lookup_cons, hne]
  exact lookup_filter_ne h dir.files

theorem content_put_self (dir : Directory) (name t : Bytes) : (dir.put name t).content name = t := by
  rw [content, content?_put_self, Option.getD_some]

theorem content_put_ne (h : name ≠ other) (t : Bytes) : (dir.put name t).content other = dir.content other := by
  rw [content, content?_put_ne h, content]

theorem content_put_content (dir : Directory) (name other : Bytes) :
    (dir.put name (dir.content name)).content other = dir.content other := by
  by_cases h : name = other
  · rw [h, content_put_self]
  · rw [content_put_ne h]

theorem readPath?_eq {path : Bytes} (h : dir.nameOf? path = some name) :
    dir.readPath? path = dir.content? name := by
  rw [readPath?, h, Option.bind_some]

theorem overwrite_length (old t : Bytes) : overwrite old old.length t = old ++ t := by
  simp [overwrite]

theorem nameOf?_writePath (path t : Bytes) : (dir.writePath path t).nameOf? = dir.nameOf? := by
  unfold writePath
  split <;> rfl

theorem content?_writePath {path : Bytes} (h : dir.nameOf? path ≠ some name) (t : Bytes) :
    (dir.writePath path t).content? name = dir.content? name := by
  unfold writePath
  split
  · next file hfile =>
      refine content?_put_ne ?_ t
      rintro rfl
      exact h hfile
  · rfl

end Directory

namespace Log

open Bytes

namespace FileSink

-- What the sink writes goes to the end of its file.
def AtEnd (sink : FileSink) (dir : Directory) : Prop :=
  ∀ p, sink.position = some p → p = (dir.content sink.name).length

structure Keeps (sink : FileSink) (dir : Directory) (base given : Bytes) : Prop where
  atEnd : AtEnd sink dir
  content : ∃ written, dir.content? sink.name = some (base ++ written) ∧ written ++ sink.pending = given

theorem AtEnd.of_content {sink : FileSink} {dir dir' : Directory} (h : AtEnd sink dir)
    (hcontent : dir'.content sink.name = dir.content sink.name) : AtEnd sink dir' := by
  intro p hp
  rw [hcontent]
  exact h p hp

theorem Keeps.of_content {sink : FileSink} {dir dir' : Directory} {base given : Bytes}
    (h : Keeps sink dir base given) (hcontent : dir'.content? sink.name = dir.content? sink.name) :
    Keeps sink dir' base given where
  atEnd := h.atEnd.of_content (congrArg (Option.getD · []) hcontent)
  content := hcontent ▸ h.content

theorem Keeps.settled {sink : FileSink} {dir : Directory} {base given : Bytes} (h : Keeps sink dir base given)
    (hpending : sink.pending = []) : dir.content? sink.name = some (base ++ given) := by
  obtain ⟨written, hcontent, rfl⟩ := h.content
  rwa [hpending, List.append_nil]

theorem emit_cases (sink : FileSink) (dir : Directory) (out rest : Bytes) :
    out = [] ∧ sink.emit dir out rest = ({ sink with pending := rest }, dir) ∨
      ∃ position content, sink.emit dir out rest =
        ({ sink with pending := rest, position := position }, dir.put sink.name content) := by
  unfold emit
  by_cases hout : out = []
  · exact .inl ⟨hout, if_pos hout⟩
  · rw [if_neg hout]
    cases sink.position with
    | none => exact .inr ⟨_, _, rfl⟩
    | some p => exact .inr ⟨_, _, rfl⟩

structure Continues (sink : FileSink) (dir : Directory) (after : FileSink × Directory) : Prop where
  name : after.1.name = sink.name
  format : after.1.format = sink.format
  nameOf? : after.2.nameOf? = dir.nameOf?
  others : ∀ other, sink.name ≠ other → after.2.content other = dir.content other
  stays : dir.content? sink.name ≠ none → after.2.content? sink.name ≠ none

theorem Continues.trans {sink : FileSink} {dir : Directory} {after later : FileSink × Directory}
    (h : Continues sink dir after) (h' : Continues after.1 after.2 later) : Continues sink dir later where
  name := h'.name.trans h.name
  format := h'.format.trans h.format
  nameOf? := h'.nameOf?.trans h.nameOf?
  others other hne := (h'.others other (h.name ▸ hne)).trans (h.others other hne)
  stays hfile := h.name ▸ h'.stays (h.name.symm ▸ h.stays hfile)

-- The sink is given a text: some of what waits and of the text after it goes to the end of the file, and
-- the rest waits.
structure Appends (sink : FileSink) (dir : Directory) (t : Bytes) (after : FileSink × Directory) : Prop where
  atEnd : AtEnd after.1 after.2
  content : ∃ out, after.2.content sink.name = dir.content sink.name ++ out ∧
    out ++ after.1.pending = sink.pending ++ t

section Steps

variable (buffering : Buffering) (sink : FileSink) (dir : Directory)

-- The line of a record, before it is known whether the record is an error.
def sendLine (r : Record) (clock : Bytes) : FileSink × Directory :=
  let sent := sink.send buffering dir (r.write sink.format clock)
  sent.1.send buffering sent.2 [Byte.lf]

theorem write_eq (r : Record) (clock : Bytes) : sink.write buffering dir r clock =
    if Level.error ≤ r.entry.level then
      (sink.sendLine buffering dir r clock).1.flush (sink.sendLine buffering dir r clock).2
    else sink.sendLine buffering dir r clock := rfl

theorem emit_continues (out rest : Bytes) : Continues sink dir (sink.emit dir out rest) := by
  rcases emit_cases sink dir out rest with ⟨-, h⟩ | ⟨position, content, h⟩
  · rw [h]
    exact ⟨rfl, rfl, rfl, fun _ _ => rfl, id⟩
  · rw [h]
    refine ⟨rfl, rfl, rfl, fun _ hne => Directory.content_put_ne hne content, fun _ => ?_⟩
    rw [Directory.content?_put_self]
    exact Option.some_ne_none content

theorem flush_continues : Continues sink dir (sink.flush dir) :=
  emit_continues sink dir sink.pending []

theorem flush_pending : (sink.flush dir).1.pending = [] := by
  rcases emit_cases sink dir sink.pending [] with ⟨-, h⟩ | ⟨position, content, h⟩ <;> rw [flush, h]

theorem write_pending {r : Record} (h : Level.error ≤ r.entry.level) (clock : Bytes) :
    (sink.write buffering dir r clock).1.pending = [] := by
  rw [write_eq, if_pos h]
  exact flush_pending _ _

theorem send_continues (t : Bytes) : Continues sink dir (sink.send buffering dir t) :=
  emit_continues sink dir _ _

theorem sendLine_continues (r : Record) (clock : Bytes) :
    Continues sink dir (sink.sendLine buffering dir r clock) :=
  (send_continues buffering sink dir _).trans (send_continues buffering _ _ [Byte.lf])

theorem write_continues (r : Record) (clock : Bytes) :
    Continues sink dir (sink.write buffering dir r clock) := by
  have hline := sendLine_continues buffering sink dir r clock
  rw [write_eq]
  split
  · exact hline.trans (flush_continues _ _)
  · exact hline

end Steps

section Appends

variable {sink : FileSink} {dir : Directory} (h : AtEnd sink dir)
include h

theorem emit_appends {out rest t : Bytes} (hsplit : out ++ rest = sink.pending ++ t) :
    Appends sink dir t (sink.emit dir out rest) := by
  by_cases hout : out = []
  · rw [hout] at hsplit
    simp only [emit, hout, if_true]
    exact ⟨h, [], (List.append_nil _).symm, hsplit⟩
  · simp only [emit, if_neg hout]
    cases hposition : sink.position with
    | none => exact ⟨nofun, out, Directory.content_put_self _ _ _, hsplit⟩
    | some p =>
        have hp := h p hposition
        have hcontent : Directory.overwrite (dir.content sink.name) p out = dir.content sink.name ++ out := by
          rw [hp, Directory.overwrite_length]
        refine ⟨?_, out, ?_, hsplit⟩
        · rintro _ ⟨⟩
          rw [Directory.content_put_self, hcontent, List.length_append, hp]
        · rw [Directory.content_put_self, hcontent]

theorem flush_appends : Appends sink dir [] (sink.flush dir) :=
  emit_appends h rfl

theorem send_appends (buffering : Buffering) (t : Bytes) : Appends sink dir t (sink.send buffering dir t) :=
  emit_appends h (List.take_append_drop _ _)

end Appends

theorem Appends.trans {sink : FileSink} {dir : Directory} {t u : Bytes} {after later : FileSink × Directory}
    (hsame : after.1.name = sink.name) (h : Appends sink dir t after) (h' : Appends after.1 after.2 u later) :
    Appends sink dir (t ++ u) later := by
  obtain ⟨out, hcontent, hpending⟩ := h.content
  obtain ⟨out', hcontent', hpending'⟩ := h'.content
  refine ⟨h'.atEnd, out ++ out', ?_, ?_⟩
  · rw [hsame] at hcontent'
    rw [hcontent', hcontent, List.append_assoc]
  · rw [List.append_assoc, hpending', ← List.append_assoc, hpending, List.append_assoc]

theorem write_appends {sink : FileSink} {dir : Directory} (h : AtEnd sink dir) (buffering : Buffering) (r : Record)
    (clock : Bytes) : Appends sink dir (line sink.format r clock) (sink.write buffering dir r clock) := by
  have hsent := send_appends h buffering (r.write sink.format clock)
  have hline : Appends sink dir (line sink.format r clock) (sink.sendLine buffering dir r clock) :=
    hsent.trans (send_continues buffering sink dir _).name (send_appends hsent.atEnd buffering [Byte.lf])
  rw [write_eq]
  split
  · have hflushed := hline.trans (sendLine_continues buffering sink dir r clock).name (flush_appends hline.atEnd)
    rwa [List.append_nil] at hflushed
  · exact hline

theorem Keeps.append {sink : FileSink} {dir : Directory} {base given t : Bytes} {after : FileSink × Directory}
    (h : Keeps sink dir base given) (hcontinues : Continues sink dir after) (happends : Appends sink dir t after) :
    Keeps after.1 after.2 base (given ++ t) := by
  obtain ⟨written, hfile, hgiven⟩ := h.content
  obtain ⟨out, hcontent, hpending⟩ := happends.content
  have hold : dir.content sink.name = base ++ written := by rw [Directory.content, hfile, Option.getD_some]
  obtain ⟨new, hnew⟩ := Option.ne_none_iff_exists'.1 (hcontinues.stays (hfile ▸ Option.some_ne_none _))
  rw [Directory.content, hnew, Option.getD_some, hold] at hcontent
  refine ⟨happends.atEnd, written ++ out, ?_, ?_⟩
  · rw [hcontinues.name, hnew, hcontent, List.append_assoc]
  · rw [List.append_assoc, hpending, ← List.append_assoc, hgiven]

section Keeps

variable {sink : FileSink} {dir : Directory} {base given : Bytes} (h : Keeps sink dir base given)
include h

theorem Keeps.write (buffering : Buffering) (r : Record) (clock : Bytes) :
    Keeps (sink.write buffering dir r clock).1 (sink.write buffering dir r clock).2
      base (given ++ line sink.format r clock) :=
  h.append (write_continues buffering sink dir r clock) (write_appends h.atEnd buffering r clock)

theorem Keeps.flush : Keeps (sink.flush dir).1 (sink.flush dir).2 base given := by
  have hkeeps := h.append (flush_continues sink dir) (flush_appends h.atEnd)
  rwa [List.append_nil] at hkeeps

end Keeps

theorem open?_keeps {dir dir' : Directory} {path : Bytes} {append : Bool} {sink : FileSink}
    (h : open? dir path append = some (sink, dir')) :
    dir.nameOf? path = some sink.name ∧ sink.format = .text ∧ dir'.nameOf? = dir.nameOf? ∧
      Keeps sink dir' (if append then dir.content sink.name else []) [] := by
  obtain ⟨name, hname, heq⟩ := Option.map_eq_some_iff.1 h
  cases append with
  | true =>
      cases heq
      exact ⟨hname, rfl, rfl, nofun, [], by simp [Directory.content?_put_self], rfl⟩
  | false =>
      cases heq
      refine ⟨hname, rfl, rfl, ?_, [], by simp [Directory.content?_put_self], rfl⟩
      rintro p ⟨⟩
      rw [Directory.content_put_self]
      rfl

end FileSink

namespace FileStep

def lineIn : Option Format → FileStep → Bytes
  | some f, .write r clock => FileSink.line f r clock
  | _, _ => []

def formatAfter : Option Format → FileStep → Option Format
  | some _, .setFormat f => some f
  | _, .close => none
  | f, _ => f

theorem lineIn_none (step : FileStep) : step.lineIn none = [] := by
  cases step <;> rfl

theorem formatAfter_none (step : FileStep) : step.formatAfter none = none := by
  cases step <;> rfl

def LeavesAlone (dir : Directory) (path : Bytes) : FileStep → Prop
  | .put other _ => dir.nameOf? other ≠ dir.nameOf? path
  | .openSink _ _ => False
  | .setFormat _ | .write _ _ | .flush | .close => True

theorem LeavesAlone.congr {dir dir' : Directory} {path : Bytes} {step : FileStep}
    (h : step.LeavesAlone dir path) (hname : dir'.nameOf? = dir.nameOf?) : step.LeavesAlone dir' path := by
  cases step with
  | put other t =>
      rw [LeavesAlone, hname]
      exact h
  | openSink => exact h
  | setFormat | write | flush | close => trivial

def Settles : FileStep → Prop
  | .write r _ => Level.error ≤ r.entry.level
  | .flush | .close => True
  | .put _ _ | .openSink _ _ | .setFormat _ => False

end FileStep

def linesGiven : Option Format → List FileStep → Bytes
  | _, [] => []
  | f, step :: steps => step.lineIn f ++ linesGiven (step.formatAfter f) steps

def formatGiven (f : Option Format) (steps : List FileStep) : Option Format :=
  steps.foldl FileStep.formatAfter f

namespace FileSession

def run (buffering : Buffering) (s : FileSession) (steps : List FileStep) : FileSession :=
  steps.foldl (step buffering) s

inductive Stands (s : FileSession) (name base given : Bytes) : Option Format → Prop
  | opened {sink : FileSink} {format : Format} : s.sink = some sink → sink.name = name → sink.format = format →
      sink.Keeps s.dir base given → Stands s name base given (some format)
  | closed : s.sink = none → s.dir.content? name = some (base ++ given) → Stands s name base given none

variable {buffering : Buffering} {s : FileSession} {name base given : Bytes} {f : Option Format}

theorem Stands.content (h : Stands s name base given f) :
    ∃ written, s.dir.content? name = some (base ++ written) ∧ written <+: given := by
  cases h with
  | opened _ hname _ hkeeps =>
      obtain ⟨written, hcontent, hgiven⟩ := hkeeps.content
      exact ⟨written, hname ▸ hcontent, ⟨_, hgiven⟩⟩
  | closed _ hcontent => exact ⟨given, hcontent, List.prefix_rfl⟩

theorem nameOf?_close (s : FileSession) : s.close.dir.nameOf? = s.dir.nameOf? := by
  unfold close
  split
  · exact (FileSink.flush_continues _ _).nameOf?
  · rfl

theorem nameOf?_step (s : FileSession) (step : FileStep) : (s.step buffering step).dir.nameOf? = s.dir.nameOf? := by
  cases step with
  | put path t => exact Directory.nameOf?_writePath path t
  | openSink path append =>
      simp only [FileSession.step, openSink]
      split
      · next hopen => exact (FileSink.open?_keeps hopen).2.2.1.trans (nameOf?_close s)
      · exact nameOf?_close s
  | setFormat f => rfl
  | write r clock =>
      simp only [FileSession.step]
      split
      · exact (FileSink.write_continues _ _ _ r clock).nameOf?
      · rfl
  | flush =>
      simp only [FileSession.step]
      split
      · exact (FileSink.flush_continues _ _).nameOf?
      · rfl
  | close => exact nameOf?_close s

theorem nameOf?_run (steps : List FileStep) : ∀ s : FileSession,
    (s.run buffering steps).dir.nameOf? = s.dir.nameOf? := by
  induction steps with
  | nil => exact fun _ => rfl
  | cons step steps ih => exact fun s => (ih (s.step buffering step)).trans (nameOf?_step s step)

theorem Stands.settled (h : Stands s name base given f)
    (hpending : ∀ sink, s.sink = some sink → sink.pending = []) : s.dir.content? name = some (base ++ given) := by
  cases h with
  | opened hsink hname _ hkeeps => exact hname ▸ hkeeps.settled (hpending _ hsink)
  | closed _ hcontent => exact hcontent

theorem Stands.unchanged (h : Stands s name base given f) : Stands s name base (given ++ []) f := by
  rwa [List.append_nil]

theorem step_of_closed {step : FileStep} {path : Bytes} (hsink : s.sink = none)
    (hname : s.dir.nameOf? path = some name) (halone : step.LeavesAlone s.dir path) :
    (s.step buffering step).sink = none ∧ (s.step buffering step).dir.content? name = s.dir.content? name := by
  cases step with
  | put other t => exact ⟨hsink, Directory.content?_writePath (hname ▸ halone) t⟩
  | openSink => exact halone.elim
  | setFormat g => simp [FileSession.step, hsink]
  | write r clock => simp [FileSession.step, hsink]
  | flush => simp [FileSession.step, hsink]
  | close => simp [FileSession.step, close, hsink]

theorem stands_step {step : FileStep} {path : Bytes} (h : Stands s name base given f)
    (hname : s.dir.nameOf? path = some name) (halone : step.LeavesAlone s.dir path) :
    Stands (s.step buffering step) name base (given ++ step.lineIn f) (step.formatAfter f) := by
  cases h with
  | @opened sink format hsink hfile hformat hkeeps =>
      cases step with
      | put other t =>
          have hother : s.dir.nameOf? other ≠ some sink.name := hfile ▸ hname ▸ halone
          have hkeeps' := hkeeps.of_content (Directory.content?_writePath hother t)
          have hstands : Stands (s.step buffering (.put other t)) name base given (some format) :=
            .opened hsink hfile hformat hkeeps'
          exact hstands.unchanged
      | openSink => exact halone.elim
      | setFormat g =>
          have hstands : Stands ⟨s.dir, some { sink with format := g }⟩ name base given (some g) :=
            .opened rfl hfile rfl ⟨hkeeps.atEnd, hkeeps.content⟩
          simp only [FileSession.step, hsink]
          exact hstands.unchanged
      | write r clock =>
          obtain ⟨hsame, hsameFormat, -⟩ := sink.write_continues buffering s.dir r clock
          have hwritten := hkeeps.write buffering r clock
          rw [hformat] at hwritten
          simp only [FileSession.step, hsink]
          exact .opened rfl (hsame.trans hfile) (hsameFormat.trans hformat) hwritten
      | flush =>
          obtain ⟨hsame, hsameFormat, -⟩ := sink.flush_continues s.dir
          have hstands : Stands ⟨(sink.flush s.dir).2, some (sink.flush s.dir).1⟩ name base given (some format) :=
            .opened rfl (hsame.trans hfile) (hsameFormat.trans hformat) hkeeps.flush
          simp only [FileSession.step, hsink]
          exact hstands.unchanged
      | close =>
          obtain ⟨hsame, -, -⟩ := sink.flush_continues s.dir
          have hcontent := hkeeps.flush.settled (sink.flush_pending s.dir)
          rw [hsame, hfile] at hcontent
          have hstands : Stands ⟨(sink.flush s.dir).2, none⟩ name base given none := .closed rfl hcontent
          simp only [FileSession.step, close, hsink]
          exact hstands.unchanged
  | closed hsink hcontent =>
      obtain ⟨hsink', hcontent'⟩ := step_of_closed hsink hname halone
      have hstands : Stands (s.step buffering step) name base given none := .closed hsink' (hcontent'.trans hcontent)
      rw [step.lineIn_none, step.formatAfter_none]
      exact hstands.unchanged

theorem pending_of_settles {step : FileStep} (h : step.Settles) {sink : FileSink}
    (hsink : (s.step buffering step).sink = some sink) : sink.pending = [] := by
  cases step with
  | put | openSink | setFormat => exact h.elim
  | write r clock =>
      simp only [FileSession.step] at hsink
      split at hsink
      · cases hsink
        exact FileSink.write_pending _ _ _ h clock
      · next hnone => exact absurd (hnone.symm.trans hsink) nofun
  | flush =>
      simp only [FileSession.step] at hsink
      split at hsink
      · cases hsink
        exact FileSink.flush_pending _ _
      · next hnone => exact absurd (hnone.symm.trans hsink) nofun
  | close =>
      simp only [FileSession.step, close] at hsink
      split at hsink
      · cases hsink
      · next hnone => exact absurd (hnone.symm.trans hsink) nofun

theorem stands_run {path : Bytes} (steps : List FileStep) : ∀ {s : FileSession} {given : Bytes} {f : Option Format},
    Stands s name base given f → s.dir.nameOf? path = some name →
    (∀ step ∈ steps, step.LeavesAlone s.dir path) →
    Stands (s.run buffering steps) name base (given ++ linesGiven f steps) (formatGiven f steps) := by
  induction steps with
  | nil => exact fun h _ _ => h.unchanged
  | cons step steps ih =>
      intro s given f h hname halone
      rw [List.forall_mem_cons] at halone
      have hstep : Stands (s.step buffering step) _ _ _ _ := stands_step h hname halone.1
      have hopens : (s.step buffering step).dir.nameOf? = s.dir.nameOf? := nameOf?_step s step
      rw [linesGiven, ← List.append_assoc]
      refine ih hstep ((congrFun hopens path).trans hname) fun later hlater => ?_
      exact (halone.2 later hlater).congr hopens

theorem Stands.rebase (h : Stands s name base given f) (hpending : ∀ sink, s.sink = some sink → sink.pending = []) :
    Stands s name (base ++ given) [] f := by
  have hcontent := h.settled hpending
  cases h with
  | @opened sink _ hsink hname hformat hkeeps =>
      refine .opened hsink hname hformat ⟨hkeeps.atEnd, [], ?_, hpending sink hsink⟩
      rw [hname, hcontent, List.append_nil]
  | closed hsink _ => exact .closed hsink (by rw [hcontent, List.append_nil])

theorem run_append (s : FileSession) (before after : List FileStep) :
    s.run buffering (before ++ after) = (s.run buffering before).run buffering after :=
  List.foldl_append

theorem Stands.holds_lines {path : Bytes} {steps : List FileStep} (h : Stands s name base [] f)
    (hname : s.dir.nameOf? path = some name) (halone : ∀ step ∈ steps, step.LeavesAlone s.dir path) :
    ∃ written, (s.run buffering steps).dir.content? name = some (base ++ written) ∧ written <+: linesGiven f steps ∧
      ∀ earlier step later, steps = earlier ++ step :: later → step.Settles →
        linesGiven f (earlier ++ [step]) <+: written := by
  obtain ⟨written, hcontent, hprefix⟩ := (stands_run steps h hname halone).content
  refine ⟨written, hcontent, hprefix, ?_⟩
  intro earlier step later hsteps hsettles
  have hsplit : steps = (earlier ++ [step]) ++ later := by rw [hsteps, List.append_cons]
  have hfirst : Stands (s.run buffering (earlier ++ [step])) name base (linesGiven f (earlier ++ [step]))
      (formatGiven f (earlier ++ [step])) :=
    stands_run (earlier ++ [step]) h hname fun l hl => halone l (by rw [hsplit]; exact List.mem_append_left _ hl)
  have hpending : ∀ sink, (s.run buffering (earlier ++ [step])).sink = some sink → sink.pending = [] := by
    rw [run_append]
    exact fun sink hsink => pending_of_settles hsettles hsink
  have hopens : (s.run buffering (earlier ++ [step])).dir.nameOf? = s.dir.nameOf? := nameOf?_run _ s
  have halone' : ∀ l ∈ later, l.LeavesAlone (s.run buffering (earlier ++ [step])).dir path := fun l hl =>
    (halone l (by rw [hsplit]; exact List.mem_append_right _ hl)).congr hopens
  have hlast : Stands ((s.run buffering (earlier ++ [step])).run buffering later) _ _ _ _ :=
    stands_run later (hfirst.rebase hpending) ((congrFun hopens path).trans hname) halone'
  obtain ⟨more, hmore, -⟩ := hlast.content
  rw [← run_append, ← hsplit, hcontent, Option.some.injEq, List.append_assoc, List.append_cancel_left_eq] at hmore
  exact ⟨more, hmore.symm⟩

theorem sink_close (s : FileSession) : s.close.sink = none := by
  unfold close
  split
  · rfl
  · assumption

theorem stands_openSink {path : Bytes} {append : Bool} (h : (s.openSink path append).sink ≠ none) :
    ∃ name, s.dir.nameOf? path = some name ∧
      Stands (s.openSink path append) name (if append then s.close.dir.content name else []) [] (some .text) := by
  cases hopen : FileSink.open? s.close.dir path append with
  | none =>
      simp only [openSink, hopen] at h
      exact absurd s.sink_close h
  | some opened =>
      obtain ⟨hname, hformat, -, hkeeps⟩ := FileSink.open?_keeps hopen
      rw [nameOf?_close s] at hname
      refine ⟨opened.1.name, hname, ?_⟩
      simp only [openSink, hopen]
      exact .opened rfl rfl hformat hkeeps

end FileSession

-- In any history of a session that has opened the file of a path, as long as nobody opens it again or
-- writes it past the sink, it holds its base and then a first part of the lines of all records written
-- since, each in the format in force. The base is what the file held when the sink before had been
-- closed if the sink appends to it, and nothing otherwise. After a flush, an error or a close the file
-- holds all lines that have been written, and it keeps them.
theorem file_holds_lines (buffering : Buffering) (dir : Directory) (before since : List FileStep) (path : Bytes)
    (append : Bool)
    (hopen : (FileSession.run buffering ⟨dir, none⟩ (before ++ [.openSink path append])).sink ≠ none)
    (halone : ∀ step ∈ since, step.LeavesAlone dir path) :
    let closed := FileSession.run buffering ⟨dir, none⟩ (before ++ [.close])
    let base := if append then (closed.dir.readPath? path).getD [] else []
    let s := FileSession.run buffering ⟨dir, none⟩ (before ++ .openSink path append :: since)
    ∃ written, s.dir.readPath? path = some (base ++ written) ∧ written <+: linesGiven (some .text) since ∧
      (∀ earlier step, since = earlier ++ [step] → step.Settles → written = linesGiven (some .text) since) ∧
      ∀ earlier step later, since = earlier ++ step :: later → step.Settles →
        linesGiven (some .text) (earlier ++ [step]) <+: written := by
  intro closed base s
  have hname : ∀ {name}, dir.nameOf? path = some name → ∀ steps,
      (FileSession.run buffering ⟨dir, none⟩ steps).dir.nameOf? path = some name := fun h steps =>
    (congrFun (FileSession.nameOf?_run steps _) path).trans h
  have halone' : ∀ steps, ∀ step ∈ since, step.LeavesAlone (FileSession.run buffering ⟨dir, none⟩ steps).dir path :=
    fun steps step hstep => (halone step hstep).congr (FileSession.nameOf?_run steps _)
  have hrunOpen : FileSession.run buffering ⟨dir, none⟩ (before ++ [.openSink path append]) =
      (FileSession.run buffering ⟨dir, none⟩ before).openSink path append := FileSession.run_append _ before _
  have hrunClose : FileSession.run buffering ⟨dir, none⟩ (before ++ [.close]) =
      (FileSession.run buffering ⟨dir, none⟩ before).close := FileSession.run_append _ before _
  have hrun : FileSession.run buffering ⟨dir, none⟩ (before ++ .openSink path append :: since) =
      (FileSession.run buffering ⟨dir, none⟩ (before ++ [.openSink path append])).run buffering since := by
    rw [← FileSession.run_append, List.append_assoc]
    rfl
  rw [hrunOpen] at hopen
  obtain ⟨name, hfile, hstands⟩ := FileSession.stands_openSink hopen
  rw [FileSession.nameOf?_run before _] at hfile
  have hbase : base = if append then (FileSession.run buffering ⟨dir, none⟩ before).close.dir.content name else [] := by
    simp only [base, closed]
    rw [Directory.readPath?_eq (hname hfile _), hrunClose]
    rfl
  rw [← hbase, ← hrunOpen] at hstands
  obtain ⟨written, hcontent, hprefix, hsettled⟩ := hstands.holds_lines (hname hfile _) (halone' _)
  refine ⟨written, ?_, hprefix, ?_, hsettled⟩
  · rw [Directory.readPath?_eq (hname hfile _), hrun]
    exact hcontent
  · intro earlier step hsince hsettles
    have hlines := (hsettled earlier step [] hsince hsettles).length_le
    rw [← hsince] at hlines
    exact hprefix.eq_of_length_le hlines

def folder : Directory :=
  ⟨fun path => if path = ascii "/d/a" then some (ascii "a") else none, []⟩

-- Lines as short as these wait until they are flushed.
def patient : Buffering := fun _ _ => 0

def waiting : List FileStep :=
  [.put (ascii "/d/a") (ascii "x"), .openSink (ascii "/d/a") true,
    .write ⟨⟨.info, ascii "m", ascii "one"⟩, 0⟩ (ascii "1")]

theorem file_holds_lines_reopened :
    let start : FileSession := ⟨folder, none⟩
    let two : FileStep := .write ⟨⟨.info, ascii "m", ascii "two"⟩, 0⟩ (ascii "2")
    let three : FileStep := .write ⟨⟨.error, ascii "m", ascii "three"⟩, 3⟩ (ascii "3")
    (start.run patient (waiting ++ [.openSink (ascii "/d/a") true])).sink ≠ none ∧
      (∀ step ∈ [two, .setFormat .json, three], step.LeavesAlone folder (ascii "/d/a")) ∧
      (start.run patient (waiting ++ .openSink (ascii "/d/a") true :: [two, .setFormat .json, three])).dir.readPath?
          (ascii "/d/a") =
        some (ascii "x1 INFO  [m] one\n2 INFO  [m] two\n" ++
          ascii "\x7b\"ts\":3,\"level\":\"ERROR\",\"module\":\"m\",\"msg\":\"three\"\x7d\n") := by
  intro start two three
  have hopen : (start.run patient (waiting ++ [.openSink (ascii "/d/a") true])).sink ≠ none := by decide
  have halone : ∀ step ∈ [two, .setFormat .json, three], step.LeavesAlone folder (ascii "/d/a") := by
    simp [two, three, FileStep.LeavesAlone]
  have hbase : (((start.run patient (waiting ++ [.close])).dir.readPath? (ascii "/d/a")).getD []) =
      ascii "x1 INFO  [m] one\n" := by decide
  have hlines : linesGiven (some .text) [two, .setFormat .json, three] = ascii "2 INFO  [m] two\n" ++
      ascii "\x7b\"ts\":3,\"level\":\"ERROR\",\"module\":\"m\",\"msg\":\"three\"\x7d\n" := by decide
  obtain ⟨written, hread, -, hwhole, -⟩ := file_holds_lines patient folder waiting _ _ true hopen halone
  rw [hwhole [two, .setFormat .json] three rfl (Nat.le_refl 4), hlines, if_pos rfl, hbase, ← List.append_assoc] at hread
  exact ⟨hopen, halone, hread⟩

end Log
end MarkupFormat
