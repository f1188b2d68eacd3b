import MarkupFormat.Proofs.Journal

namespace MarkupFormat.Log

open Bytes

structure Ledger where
  world : World
  roster : List Sink
  journal : List Event

namespace Ledger

def start (w : World) : Ledger :=
  ⟨w, w.logger.sinks, []⟩

def first (l : Ledger) : Nat :=
  l.roster.length - l.world.logger.sinks.length

def inForce (l : Ledger) : List Nat :=
  List.range' l.first l.world.logger.sinks.length

def receipts (l : Ledger) : List (Nat × Signal) :=
  l.journal.filterMap Event.receipt?

def receivedBy (l : Ledger) (i : Nat) : List Signal :=
  (l.receipts.filter (·.1 = i)).map Prod.snd

def deliver (buffering : Buffering) (clock : Bytes) (signal : Signal) (l : Ledger) (entry : Sink × Nat) : Ledger :=
  { l with
    world := l.world.deliver buffering clock signal entry.1
    journal := l.journal ++ [.received entry.2 clock signal] }

def issue (buffering : Buffering) (clock : Bytes) (l : Ledger) (signal : Signal) : Ledger :=
  (l.world.logger.sinks.zipIdx l.first).foldl (deliver buffering clock signal)
    { l with world := { l.world with logger := { l.world.logger with sinks := [] } } }

def removals (l : Ledger) : LogStep → List Event
  | .init _ | .clearSinks => l.inForce.map .removed
  | .addSink _ | .setLevel _ | .setFilter _ | .log _ | .logIfHeard _ | .flush => []

-- What a step adds to the journal.
def told (l : Ledger) (clock : Bytes) (s : LogStep) : List Event :=
  (s.signal? l.world.logger).toList.flatMap (fun signal => l.inForce.map (.received · clock signal)) ++
    l.removals s ++ l.world.openings s

def step (host : Host) (clock : Bytes) (l : Ledger) (s : LogStep) : Ledger :=
  match s.signal? l.world.logger with
  | some signal => l.issue host.buffering clock signal
  | none =>
      { l with
        world := l.world.step host clock s
        roster := l.roster ++ l.world.added host s
        journal := l.journal ++ l.removals s ++ l.world.openings s }

def run (host : Host) (l : Ledger) (steps : List (Bytes × LogStep)) : Ledger :=
  steps.foldl (fun l s => l.step host s.1 s.2) l

section Steps

variable {host : Host} {clock : Bytes} {signal : Signal} {l : Ledger} {s : LogStep}

theorem issue_eq (buffering : Buffering) (l : Ledger) (clock : Bytes) (signal : Signal) :
    l.issue buffering clock signal = ⟨l.world.issue buffering clock signal, l.roster,
      l.journal ++ l.inForce.map (.received · clock signal)⟩ := by
  have hfold : ∀ (entries : List (Sink × Nat)) (l : Ledger), entries.foldl (deliver buffering clock signal) l =
      ⟨(entries.map Prod.fst).foldl (World.deliver buffering clock signal) l.world, l.roster,
        l.journal ++ (entries.map Prod.snd).map (.received · clock signal)⟩ := by
    intro entries
    induction entries with
    | nil => simp
    | cons entry entries ih =>
        intro l
        rw [List.foldl_cons, ih]
        simp [deliver]
  rw [issue, hfold, List.zipIdx_map_fst, List.zipIdx_map_snd]
  rfl

theorem removals_of_removes (hs : s.Removes) : l.removals s = l.inForce.map .removed := by
  cases s with
  | init | clearSinks => rfl
  | addSink | setLevel | setFilter | log | logIfHeard | flush => exact hs.elim

theorem removals_of_not_removes (hs : ¬s.Removes) : l.removals s = [] := by
  cases s with
  | init | clearSinks => exact absurd trivial hs
  | addSink | setLevel | setFilter | log | logIfHeard | flush => rfl

theorem mem_removals {e : Event} (h : e ∈ l.removals s) : ∃ i ∈ l.inForce, e = .removed i := by
  by_cases hs : s.Removes
  · rw [removals_of_removes hs] at h
    obtain ⟨i, hi, rfl⟩ := List.mem_map.1 h
    exact ⟨i, hi, rfl⟩
  · rw [removals_of_not_removes hs] at h
    cases h

theorem told_of_signal (h : s.signal? l.world.logger = some signal) :
    l.told clock s = l.inForce.map (.received · clock signal) := by
  have hs : ¬s.Removes := fun hs => by
    rw [LogStep.signal?_of_removes hs] at h
    cases h
  rw [told, h, removals_of_not_removes hs, World.openings_of_signal h, List.append_nil, List.append_nil]
  exact List.flatMap_singleton _ _

theorem told_of_no_signal (h : s.signal? l.world.logger = none) :
    l.told clock s = l.removals s ++ l.world.openings s := by
  rw [told, h]
  rfl

theorem step_eq (host : Host) (clock : Bytes) (l : Ledger) (s : LogStep) : l.step host clock s =
    ⟨l.world.step host clock s, l.roster ++ l.world.added host s, l.journal ++ l.told clock s⟩ := by
  cases h : s.signal? l.world.logger with
  | some signal =>
      rw [World.step_of_signal h, World.added_of_signal h, List.append_nil, told_of_signal h, ← issue_eq]
      simp only [step, h]
  | none =>
      rw [told_of_no_signal h, ← List.append_assoc]
      simp only [step, h]

theorem inForce_of_mem_told {e : Event} (h : e ∈ l.told clock s) : ∀ i ∈ e.number?, i ∈ l.inForce := by
  intro i hi
  rcases List.mem_append.1 h with h | hopened
  · rcases List.mem_append.1 h with hreceived | hremoved
    · obtain ⟨signal, -, hreceived⟩ := List.mem_flatMap.1 hreceived
      obtain ⟨j, hj, rfl⟩ := List.mem_map.1 hreceived
      exact Option.some.inj hi ▸ hj
    · obtain ⟨j, hj, rfl⟩ := mem_removals hremoved
      exact Option.some.inj hi ▸ hj
  · rw [World.number?_of_mem_openings hopened] at hi
    cases hi

theorem receipts_step (l : Ledger) (s : LogStep) : (l.step host clock s).receipts =
    l.receipts ++ (s.signal? l.world.logger).toList.flatMap fun signal => l.inForce.map (·, signal) := by
  rw [step_eq, receipts, List.filterMap_append]
  refine congrArg (l.receipts ++ ·) ?_
  cases h : s.signal? l.world.logger with
  | some signal =>
      rw [told_of_signal h, List.filterMap_map, Option.toList_some, List.flatMap_singleton, ← List.filterMap_eq_map]
      rfl
  | none =>
      rw [told_of_no_signal h, Option.toList_none, List.flatMap_nil, List.filterMap_eq_nil_iff]
      intro e he
      rcases List.mem_append.1 he with hremoved | hopened
      · obtain ⟨i, -, rfl⟩ := mem_removals hremoved
        rfl
      · cases e with
        | received i clock signal => cases World.number?_of_mem_openings hopened
        | removed | opened | refused => rfl

theorem first_of_removes (hs : s.Removes) : (l.step host clock s).first = l.roster.length := by
  have hidle : (l.world.step host clock s).idle.length = _ := congrArg List.length (World.idle_of_removes hs)
  rw [World.length_idle, List.length_map] at hidle
  rw [step_eq, first, hidle, List.length_append, Nat.add_sub_cancel]

end Steps

-- The sinks in force are the last ones of the roster, and nothing happens to sinks outside it.
structure Sound (l : Ledger) : Prop where
  ends : ∃ gone, l.roster.map Sink.idle = gone ++ l.world.idle
  known : ∀ e ∈ l.journal, ∀ i ∈ e.number?, i < l.roster.length

theorem first_of_ends {l : Ledger} {gone : List Sink} (h : l.roster.map Sink.idle = gone ++ l.world.idle) :
    l.first = gone.length := by
  rw [first, ← l.roster.length_map Sink.idle, h, List.length_append, World.length_idle, Nat.add_sub_cancel]

theorem sound_start (w : World) : (start w).Sound :=
  ⟨⟨[], rfl⟩, fun _ h => nomatch h⟩

section Sound

variable {host : Host} {clock : Bytes} {l : Ledger} {s : LogStep} {i : Nat} (h : l.Sound)
include h

theorem Sound.first_add : l.first + l.world.logger.sinks.length = l.roster.length := by
  obtain ⟨gone, hgone⟩ := h.ends
  rw [first_of_ends hgone, ← World.length_idle, ← List.length_append, ← hgone, List.length_map]

theorem Sound.idle_drop_first : (l.roster.drop l.first).map Sink.idle = l.world.idle := by
  obtain ⟨gone, hgone⟩ := h.ends
  rw [List.map_drop, hgone, first_of_ends hgone, List.drop_left]

theorem Sound.mem_inForce_iff : i ∈ l.inForce ↔ l.first ≤ i ∧ i < l.roster.length := by
  rw [inForce, List.mem_range'_1, h.first_add]

theorem Sound.first_step (hs : ¬s.Removes) : (l.step host clock s).first = l.first := by
  have hadd := h.first_add
  have hidle : (l.world.step host clock s).idle.length = _ := congrArg List.length (World.idle_step hs)
  rw [World.length_idle, List.length_append, List.length_map, World.length_idle] at hidle
  rw [step_eq, first, hidle, List.length_append]
  omega

theorem Sound.known_told (clock : Bytes) (s : LogStep) :
    ∀ e ∈ l.journal ++ l.told clock s, ∀ i ∈ e.number?, i < l.roster.length := by
  intro e he i hi
  rcases List.mem_append.1 he with hold | hnew
  · exact h.known e hold i hi
  · exact (h.mem_inForce_iff.1 (inForce_of_mem_told hnew i hi)).2

theorem Sound.known_removals (s : LogStep) :
    ∀ e ∈ l.journal ++ l.removals s, ∀ i ∈ e.number?, i < l.roster.length := by
  intro e he
  have htold : e ∈ l.journal ++ l.told [] s := by
    rcases List.mem_append.1 he with hold | hremoved
    · exact List.mem_append_left _ hold
    · exact List.mem_append_right _ (List.mem_append_left _ (List.mem_append_right _ hremoved))
  exact h.known_told [] s e htold

theorem Sound.step : (l.step host clock s).Sound := by
  rw [step_eq]
  constructor
  case ends =>
    obtain ⟨gone, hgone⟩ := h.ends
    rw [List.map_append]
    by_cases hs : s.Removes
    · exact ⟨l.roster.map Sink.idle, by rw [World.idle_of_removes hs]⟩
    · exact ⟨gone, by rw [World.idle_step hs, hgone, List.append_assoc]⟩
  case known =>
    rw [List.length_append]
    exact fun e he i hi => Nat.lt_add_right _ (h.known_told clock s e he i hi)

theorem Sound.run (steps : List (Bytes × LogStep)) : (l.run host steps).Sound := by
  induction steps generalizing l with
  | nil => exact h
  | cons s steps ih => exact ih h.step

end Sound

theorem nodup_inForce (l : Ledger) : l.inForce.Nodup :=
  List.nodup_range'

theorem receipts_of {is : List Nat} (h : is.Nodup) (i : Nat) (signal : Signal) :
    ((is.map (·, signal)).filter (·.1 = i)).map Prod.snd = if i ∈ is then [signal] else [] := by
  have hfilter : is.filter (· = i) = if i ∈ is then [i] else [] := by
    rw [List.filter_eq, h.count]
    split <;> rfl
  have hcomp : ((fun r : Nat × Signal => decide (r.1 = i)) ∘ fun j => (j, signal)) = fun j => decide (j = i) := rfl
  rw [List.filter_map, hcomp, hfilter]
  split <;> rfl

section Received

variable {host : Host} {clock : Bytes} {l : Ledger} {s : LogStep} {i : Nat}

theorem receivedBy_step : (l.step host clock s).receivedBy i =
    l.receivedBy i ++ if i ∈ l.inForce then (s.signal? l.world.logger).toList else [] := by
  rw [receivedBy, receipts_step, List.filter_append, List.map_append]
  cases s.signal? l.world.logger with
  | some signal =>
      rw [Option.toList_some, List.flatMap_singleton, receipts_of l.nodup_inForce]
      rfl
  | none =>
      rw [Option.toList_none, ite_self]
      rfl

theorem receivedBy_eq_nil (h : l.Sound) (hi : l.roster.length ≤ i) : l.receivedBy i = [] := by
  rw [receivedBy, List.map_eq_nil_iff, List.filter_eq_nil_iff]
  intro receipt hreceipt heq
  obtain ⟨e, he, hreceipt⟩ := List.mem_filterMap.1 hreceipt
  cases e with
  | received j clock signal =>
      cases hreceipt
      have hlt := h.known _ he j rfl
      have hji : j = i := of_decide_eq_true heq
      omega
  | removed | opened | refused => cases hreceipt

theorem receivedBy_run_of_lt_first (h : l.Sound) (hi : i < l.first) (steps : List (Bytes × LogStep)) :
    (l.run host steps).receivedBy i = l.receivedBy i := by
  induction steps generalizing l with
  | nil => rfl
  | cons s steps ih =>
      have hfirst : i < (l.step host s.1 s.2).first := by
        by_cases hs : s.2.Removes
        · rw [first_of_removes hs]
          have hadd := h.first_add
          omega
        · rwa [h.first_step hs]
      have hout : i ∉ l.inForce := fun hmem => absurd (h.mem_inForce_iff.1 hmem).1 (Nat.not_le_of_lt hi)
      rw [run, List.foldl_cons, ← run, ih h.step hfirst, receivedBy_step, if_neg hout, List.append_nil]

theorem receivedBy_run_of_inForce (h : l.Sound) (hi : i ∈ l.inForce) (during : List (Bytes × LogStep))
    (hduring : ∀ s ∈ during, ¬s.2.Removes) :
    (l.run host during).receivedBy i = l.receivedBy i ++ l.world.signals host during ∧
      i ∈ (l.run host during).inForce := by
  induction during generalizing l with
  | nil => exact ⟨(List.append_nil _).symm, hi⟩
  | cons s during ih =>
      rw [List.forall_mem_cons] at hduring
      have hin : i ∈ (l.step host s.1 s.2).inForce := by
        rw [h.step.mem_inForce_iff, h.first_step hduring.1, step_eq, List.length_append]
        have hbounds := h.mem_inForce_iff.1 hi
        omega
      obtain ⟨hreceived, hrun⟩ := ih h.step hin hduring.2
      refine ⟨?_, hrun⟩
      rw [run, List.foldl_cons, ← run, hreceived, receivedBy_step, if_pos hi, step_eq, List.append_assoc]
      rfl

theorem run_append (l : Ledger) (steps steps' : List (Bytes × LogStep)) :
    l.run host (steps ++ steps') = (l.run host steps).run host steps' :=
  List.foldl_append

theorem run_concat (l : Ledger) (steps : List (Bytes × LogStep)) (s : Bytes × LogStep) :
    l.run host (steps ++ [s]) = (l.run host steps).step host s.1 s.2 :=
  l.run_append steps [s]

theorem added_inForce (h : l.Sound) (hold : l.roster.length ≤ i)
    (hadded : i < (l.step host clock s).roster.length) :
    i ∈ (l.step host clock s).inForce ∧ (l.step host clock s).receivedBy i = [] := by
  have hadd := h.first_add
  have hfirst : (l.step host clock s).first ≤ i := by
    by_cases hs : s.Removes
    · rwa [first_of_removes hs]
    · rw [h.first_step hs]
      omega
  have hout : i ∉ l.inForce := fun hmem => absurd (h.mem_inForce_iff.1 hmem).2 (Nat.not_lt_of_le hold)
  refine ⟨h.step.mem_inForce_iff.2 ⟨hfirst, hadded⟩, ?_⟩
  rw [receivedBy_step, if_neg hout, List.append_nil, receivedBy_eq_nil h hold]

theorem receivedBy_lifetime (h : l.Sound) (hi : i ∈ l.inForce) {during after : List (Bytes × LogStep)}
    (hduring : ∀ s ∈ during, ¬s.2.Removes) (hafter : ∀ s ∈ after.head?, s.2.Removes) :
    (l.run host (during ++ after)).receivedBy i = l.receivedBy i ++ l.world.signals host during := by
  obtain ⟨hreceived, hin⟩ := receivedBy_run_of_inForce h hi during hduring
  rw [run_append, ← hreceived]
  cases after with
  | nil => rfl
  | cons s after =>
      have hs : s.2.Removes := hafter s rfl
      have hgone : i < ((l.run host during).step host s.1 s.2).first := by
        rw [first_of_removes hs]
        exact ((h.run during).mem_inForce_iff.1 hin).2
      have hsilent := LogStep.signal?_of_removes hs (l.run host during).world.logger
      rw [run, List.foldl_cons, ← run, receivedBy_run_of_lt_first (h.run during).step hgone, receivedBy_step,
        hsilent, Option.toList_none, ite_self, List.append_nil]

end Received

theorem flatMap_range' {α : Type} (g : Sink → List α) (sinks : List Sink) : ∀ gone : List Sink,
    (List.range' gone.length sinks.length).flatMap (fun i => (gone ++ sinks)[i]?.elim [] g) = sinks.flatMap g := by
  induction sinks with
  | nil => exact fun _ => rfl
  | cons sink sinks ih =>
      intro gone
      have htail := ih (gone ++ [sink])
      rw [List.length_append, List.append_assoc] at htail
      have hhead : (gone ++ sink :: sinks)[gone.length]? = some sink := by simp
      rw [List.length_cons, List.range'_succ, List.flatMap_cons, List.flatMap_cons, hhead]
      exact congrArg (g sink ++ ·) htail

theorem Sound.flatMap_inForce {α : Type} {l : Ledger} (h : l.Sound) {g : Sink → List α}
    (hg : ∀ sink, g sink.idle = g sink) :
    l.inForce.flatMap (fun i => l.roster[i]?.elim [] g) = l.world.logger.sinks.flatMap g := by
  obtain ⟨gone, hgone⟩ := h.ends
  have hroster : ∀ i : Nat, l.roster[i]?.elim [] g = (gone ++ l.world.idle)[i]?.elim [] g := by
    intro i
    rw [← hgone, List.getElem?_map]
    cases l.roster[i]? with
    | none => rfl
    | some sink => exact (hg sink).symm
  have hrange := flatMap_range' g l.world.idle gone
  rw [World.length_idle, ← first_of_ends hgone, World.idle, List.flatMap_map] at hrange
  simp only [inForce, hroster, World.idle, hrange, hg]

section Fills

variable {α : Type} {part : Bytes → Signal → Sink → List α} {gives : List Sink → Event → List α} {l : Ledger}
  (h : l.Sound) (hfills : Event.Fills part gives)
include h hfills

theorem Sound.flatMap_journal (more : List Sink) :
    l.journal.flatMap (gives (l.roster ++ more)) = l.journal.flatMap (gives l.roster) :=
  List.flatMap_congr fun e he => hfills.append (h.known e he) more

theorem Sound.flatMap_received (more : List Sink) (clock : Bytes) (signal : Signal) :
    (l.inForce.map (Event.received · clock signal)).flatMap (gives (l.roster ++ more)) =
      l.world.logger.sinks.flatMap (part clock signal) := by
  rw [List.flatMap_map, ← h.flatMap_inForce (hfills.idle clock signal)]
  refine List.flatMap_congr fun i hi => ?_
  rw [hfills.received, List.getElem?_append_left (h.mem_inForce_iff.1 hi).2]

theorem Sound.flatMap_told (more : List Sink) (clock : Bytes) (s : LogStep) :
    (l.told clock s).flatMap (gives (l.roster ++ more)) =
      (s.signal? l.world.logger).toList.flatMap (fun signal => l.world.logger.sinks.flatMap (part clock signal)) ++
        (l.world.openings s).flatMap (gives (l.roster ++ more)) := by
  have hremovals : (l.removals s).flatMap (gives (l.roster ++ more)) = [] := by
    rw [List.flatMap_eq_nil_iff]
    intro e he
    obtain ⟨i, -, rfl⟩ := mem_removals he
    exact hfills.removed _ i
  rw [Ledger.told, List.flatMap_append, List.flatMap_append, hremovals, List.append_nil, List.flatMap_assoc]
  simp only [h.flatMap_received hfills more clock]

end Fills

-- What the journal tells is all that a world has shown, kept and written since it was `w`.
structure Accounts (host : Host) (w : World) (l : Ledger) : Prop where
  sound : l.Sound
  shown : l.world.shown = w.shown ++ l.journal.flatMap (Event.shown l.roster)
  captured : l.world.captured = w.captured ++ l.journal.flatMap (Event.captured l.roster)
  files : ∃ gone, World.Settled gone ∧ l.journal.foldl (Event.act host.buffering) (l.roster, w.dir) =
    (gone ++ l.world.logger.sinks, l.world.dir)

theorem accounts_start (host : Host) (w : World) : Accounts host w (start w) where
  sound := sound_start w
  shown := (List.append_nil _).symm
  captured := (List.append_nil _).symm
  files := ⟨[], fun _ h => (nomatch h), rfl⟩

section Accounts

variable {host : Host} {w : World} {clock : Bytes} {l : Ledger} {s : LogStep} (h : Accounts host w l)
include h

theorem Accounts.first_eq {gone : List Sink} {dir : Directory}
    (hfiles : l.journal.foldl (Event.act host.buffering) (l.roster, w.dir) = (gone ++ l.world.logger.sinks, dir)) :
    l.first = gone.length := by
  have hlength := congrArg (List.length ∘ Prod.fst) hfiles
  have hadd := h.sound.first_add
  simp only [Function.comp_apply, Event.length_foldl_act, List.length_append] at hlength
  omega

theorem Accounts.shown_step : (l.step host clock s).world.shown =
    w.shown ++ (l.step host clock s).journal.flatMap (Event.shown (l.step host clock s).roster) := by
  rw [step_eq, World.shown_step host clock l.world s (l.roster ++ l.world.added host s), h.shown,
    List.flatMap_append, h.sound.flatMap_journal Event.fills_shown, h.sound.flatMap_told Event.fills_shown,
    List.append_assoc]

theorem Accounts.captured_step : (l.step host clock s).world.captured =
    w.captured ++ (l.step host clock s).journal.flatMap (Event.captured (l.step host clock s).roster) := by
  rw [step_eq, World.captured_step, h.captured, List.flatMap_append, h.sound.flatMap_journal Event.fills_captured,
    h.sound.flatMap_told Event.fills_captured, World.captured_openings, List.append_nil, List.append_assoc]

theorem Accounts.files_of_signal {signal : Signal} (hsignal : s.signal? l.world.logger = some signal) :
    ∃ gone, World.Settled gone ∧
      (l.journal ++ l.told clock s).foldl (Event.act host.buffering) (l.roster, w.dir) =
        (gone ++ (l.world.step host clock s).logger.sinks, (l.world.step host clock s).dir) := by
  obtain ⟨gone, hsettled, hfiles⟩ := h.files
  have hserved := World.foldl_act_received host.buffering clock signal gone
    l.world.logger.sinks { l.world with logger := { l.world.logger with sinks := [] } }
  simp only [List.append_nil] at hserved
  refine ⟨gone, hsettled, ?_⟩
  rw [List.foldl_append, hfiles, told_of_signal hsignal, World.step_of_signal hsignal, inForce, h.first_eq hfiles]
  exact hserved

theorem Accounts.files_of_removes (hs : s.Removes) :
    ∃ gone, World.Settled gone ∧
      (l.journal ++ l.removals s).foldl (Event.act host.buffering) (l.roster, w.dir) =
        (gone, l.world.clearSinks.dir) := by
  obtain ⟨gone, hsettled, hfiles⟩ := h.files
  obtain ⟨settled, hsettled', hremoved⟩ :=
    World.foldl_act_removed host.buffering l.world.logger.sinks gone l.world
  refine ⟨gone ++ settled, World.settled_append hsettled hsettled', ?_⟩
  rw [List.foldl_append, hfiles, removals_of_removes hs, inForce, h.first_eq hfiles]
  exact hremoved

theorem Accounts.files_step : ∃ gone, World.Settled gone ∧
    (l.step host clock s).journal.foldl (Event.act host.buffering) ((l.step host clock s).roster, w.dir) =
      (gone ++ (l.step host clock s).world.logger.sinks, (l.step host clock s).world.dir) := by
  have hlater := fun journal => Event.foldl_act_append host.buffering (l.world.added host s) journal (l.roster, w.dir)
  rw [step_eq]
  cases hsignal : s.signal? l.world.logger with
  | some signal =>
      rw [World.added_of_signal hsignal, List.append_nil]
      exact h.files_of_signal hsignal
  | none =>
      rw [told_of_no_signal hsignal, ← List.append_assoc, List.foldl_append, hlater _ (h.sound.known_removals s)]
      by_cases hs : s.Removes
      · obtain ⟨gone, hsettled, hfiles⟩ := h.files_of_removes hs
        rw [hfiles, World.sinks_of_removes hs]
        exact ⟨gone, hsettled, World.dir_of_removes hs _⟩
      · obtain ⟨gone, hsettled, hfiles⟩ := h.files
        obtain ⟨hsinks, hdir, hopenings⟩ := World.sinks_of_no_signal host clock hsignal hs
        refine ⟨gone, hsettled, ?_⟩
        rw [removals_of_not_removes hs, List.append_nil, hfiles, hopenings, hsinks, hdir, List.append_assoc]
        rfl

theorem Accounts.step : Accounts host w (l.step host clock s) :=
  ⟨h.sound.step, h.shown_step, h.captured_step, h.files_step⟩

theorem Accounts.run (steps : List (Bytes × LogStep)) : Accounts host w (l.run host steps) := by
  induction steps generalizing l with
  | nil => exact h
  | cons s steps ih => exact ih h.step

-- A sink that alone writes the end of its file adds what it receives, all of it once it is removed.
theorem Accounts.file_content {i : Nat} {f : FileSink} (hf : l.roster[i]? = some (.file f))
    (hend : f.AtEnd w.dir) (hother : ∀ j g, l.roster[j]? = some (.file g) → g.name = f.name → j = i) :
    ∃ waiting, l.world.dir.content f.name ++ waiting =
        w.dir.content f.name ++ f.pending ++ l.journal.flatMap (Event.written i f.format) ∧
      (i < l.first → waiting = []) := by
  obtain ⟨gone, hsettled, hfiles⟩ := h.files
  have hstart : Event.Alone (l.roster, w.dir) i f.name f.format (w.dir.content f.name ++ f.pending) :=
    ⟨⟨f, hf, rfl, rfl, hend, rfl⟩, hother⟩
  have halone := Event.alone_foldl_act host.buffering l.journal hstart
  rw [hfiles] at halone
  obtain ⟨g, hg, -, -, -, hcontent⟩ := halone.sink
  refine ⟨g.pending, hcontent, fun hi => hsettled g ?_⟩
  rw [h.first_eq hfiles] at hi
  rw [List.getElem?_append_left hi] at hg
  exact List.mem_of_getElem? hg

end Accounts

theorem world_run (host : Host) (steps : List (Bytes × LogStep)) : ∀ l : Ledger,
    (l.run host steps).world = l.world.run host steps := by
  induction steps with
  | nil => exact fun _ => rfl
  | cons s steps ih =>
      intro l
      rw [run, List.foldl_cons, ← run, ih, step_eq]
      rfl

end Ledger

def World.ledger (host : Host) (w : World) (steps : List (Bytes × LogStep)) : Ledger :=
  (Ledger.start w).run host steps

-- Whatever is done with a logger, the sinks that are there at the start and those that a step adds
-- receive what is issued from then on until the sinks are removed or the history ends, each signal
-- once and in order. One signal is received by the sinks in force, in the order in which they were
-- added. The ledger that says so is that of the world itself: the sinks of the world are the last of
-- its roster, the console shows the lines that consoles have received and no others, the captures
-- have kept what they have received, and the files are what the sinks make of it, one receipt after
-- another.
theorem delivered_in_order (host : Host) (w : World) (steps : List (Bytes × LogStep)) :
    let l := w.ledger host steps
    let files := l.journal.foldl (Event.act host.buffering) (l.roster, w.dir)
    (l.world = w.run host steps ∧ (l.roster.drop l.first).map Sink.idle = l.world.idle) ∧
      (l.world.shown = w.shown ++ l.journal.flatMap (Event.shown l.roster) ∧
        l.world.captured = w.captured ++ l.journal.flatMap (Event.captured l.roster) ∧
        l.world.logger.sinks = files.1.drop l.first ∧ l.world.dir = files.2 ∧
        ∀ i f, l.roster[i]? = some (.file f) → f.AtEnd w.dir →
          (∀ j g, l.roster[j]? = some (.file g) → g.name = f.name → j = i) →
            ∃ waiting, l.world.dir.content f.name ++ waiting =
                w.dir.content f.name ++ f.pending ++ l.journal.flatMap (Event.written i f.format) ∧
              (i < l.first → waiting = [])) ∧
      (∀ during rest, (∀ t ∈ during, ¬t.2.Removes) → (∀ t ∈ rest.head?, t.2.Removes) →
        ∀ i < w.logger.sinks.length,
          (w.ledger host (during ++ rest)).receivedBy i = w.signals host during) ∧
      ∀ s, let l' := w.ledger host (steps ++ [s])
        l'.roster = l.roster ++ l.world.added host s.2 ∧ l'.journal = l.journal ++ l.told s.1 s.2 ∧
          l'.receipts = l.receipts ++ (s.2.signal? l.world.logger).toList.flatMap (fun signal =>
            l.inForce.map (·, signal)) ∧
          ∀ during rest, (∀ t ∈ during, ¬t.2.Removes) → (∀ t ∈ rest.head?, t.2.Removes) →
            ∀ i, l.roster.length ≤ i → i < l'.roster.length →
              (w.ledger host (steps ++ [s] ++ (during ++ rest))).receivedBy i =
                l'.world.signals host during := by
  intro l files
  have hstart := Ledger.sound_start w
  have haccounts : Ledger.Accounts host w l := (Ledger.accounts_start host w).run steps
  have hfiles : l.world.logger.sinks = files.1.drop l.first ∧ l.world.dir = files.2 := by
    obtain ⟨gone, -, hfold⟩ := haccounts.files
    have hend : files = (gone ++ l.world.logger.sinks, l.world.dir) := hfold
    rw [hend, haccounts.first_eq hfold, List.drop_left]
    exact ⟨rfl, rfl⟩
  refine ⟨⟨Ledger.world_run host steps _, haccounts.sound.idle_drop_first⟩,
    ⟨haccounts.shown, haccounts.captured, hfiles.1, hfiles.2, fun _ _ => haccounts.file_content⟩, ?_, ?_⟩
  · intro during rest hduring hrest i hi
    have hfirst : (Ledger.start w).first = 0 := Nat.sub_self _
    exact Ledger.receivedBy_lifetime hstart (hstart.mem_inForce_iff.2 ⟨hfirst ▸ i.zero_le, hi⟩) hduring hrest
  · intro s l'
    have hl' : l' = l.step host s.1 s.2 := Ledger.run_concat _ steps s
    refine ⟨by rw [hl', Ledger.step_eq], by rw [hl', Ledger.step_eq], by rw [hl', Ledger.receipts_step], ?_⟩
    intro during rest hduring hrest i hold hadded
    have hsound : l'.Sound := hstart.run (steps ++ [s])
    obtain ⟨hin, hnone⟩ : i ∈ l'.inForce ∧ l'.receivedBy i = [] := by
      rw [hl'] at hadded ⊢
      exact Ledger.added_inForce haccounts.sound hold hadded
    have hlife : (l'.run host (during ++ rest)).receivedBy i = _ :=
      Ledger.receivedBy_lifetime hsound hin hduring hrest
    rw [World.ledger, Ledger.run_append, ← World.ledger, hlife, hnone, List.nil_append]

theorem delivered_in_order_removed :
    let host : Host := ⟨false, patient⟩
    let said (level : Level) (message : String) : Record := ⟨⟨level, ascii "m", ascii message⟩, 0⟩
    let w := World.fresh host folder
    let start : Bytes × LogStep := ([], .init { Config.default with file := ascii "/d/a", colors := false })
    let during := [(ascii "1", .log (said .trace "a")), (ascii "2", .logIfHeard (said .info "b")),
      (ascii "3", .setLevel .debug), (ascii "4", .logIfHeard (said .info "c")), (ascii "5", .flush)]
    let rest := [(ascii "6", .clearSinks), (ascii "7", .log (said .fatal "d"))]
    (∀ t ∈ during, ¬t.2.Removes) ∧ (∀ t ∈ rest.head?, t.2.Removes) ∧
      (∀ i, 1 ≤ i → i < 3 → (w.ledger host ([start] ++ (during ++ rest))).receivedBy i =
        [.record (said .trace "a"), .record (said .info "c"), .flush]) ∧
      (w.run host ([start] ++ (during ++ rest))).shown = ascii "1 TRACE [m] a\n4 INFO  [m] c\n" ∧
      (w.run host ([start] ++ (during ++ rest))).dir.content (ascii "a") =
        ascii "1 TRACE [m] a\n4 INFO  [m] c\n" := by
  intro host said w start during rest
  have hduring : ∀ t ∈ during, ¬t.2.Removes := by simp [during, LogStep.Removes]
  have hrest : ∀ t ∈ rest.head?, t.2.Removes := by simp [rest, LogStep.Removes]
  obtain ⟨-, -, -, hadded⟩ := delivered_in_order host w []
  obtain ⟨-, -, -, hreceived⟩ := hadded start
  obtain ⟨⟨hworld, -⟩, ⟨hshown, -, -, -, hfile⟩, -⟩ := delivered_in_order host w ([start] ++ (during ++ rest))
  refine ⟨hduring, hrest, ?_, ?_, ?_⟩
  · intro i hold hnew
    exact (hreceived during rest hduring hrest i hold hnew).trans (by decide)
  · rw [← hworld, hshown]
    decide
  · have hroster : (w.ledger host ([start] ++ (during ++ rest))).roster =
        [.console ⟨false, .text⟩, .console ⟨false, .text⟩, .file ⟨ascii "a", .text, none, []⟩] := by decide
    rw [hroster] at hfile
    have honly : ∀ (j : Nat) g, [Sink.console ⟨false, .text⟩, .console ⟨false, .text⟩,
        .file ⟨ascii "a", .text, none, []⟩][j]? = some (.file g) → g.name = ascii "a" → j = 2 := by
      intro j g hj _
      match j with
      | 0 | 1 => simp at hj
      | 2 => rfl
      | j + 3 => simp at hj
    obtain ⟨waiting, hcontent, hwaiting⟩ := hfile 2 ⟨ascii "a", .text, none, []⟩ rfl nofun honly
    rw [hwaiting (by decide), List.append_nil, hworld] at hcontent
    exact hcontent.trans (by decide)

end MarkupFormat.Log
