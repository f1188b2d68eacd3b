import MarkupFormat.Log.Logger
import MarkupFormat.Proofs.Filters

namespace MarkupFormat.Log

open Bytes

def Logger.Agrees (l : Logger) : Prop :=
  ∀ level topic, l.shouldLog level topic = l.filter.allows level topic

theorem Logger.agrees_iff {l : Logger} (h : l.filter.Single) :
    l.Agrees ↔ l.level ≤ l.filter.minLevel := by
  rw [Filter.le_minLevel_iff_forall h]
  constructor
  · intro hagrees topic
    have hallows : l.filter.allows (l.filter.level topic) topic = true :=
      decide_eq_true (Level.le_refl _)
    have hshould := (hagrees (l.filter.level topic) topic).trans hallows
    exact of_decide_eq_true (Bool.and_eq_true_iff.1 hshould).1
  · intro hle level topic
    rw [shouldLog, Bool.and_eq_right_iff_imp]
    intro hallows
    exact decide_eq_true (Level.le_trans (hle topic) (of_decide_eq_true hallows))

namespace World

section Kept

variable {buffering : Buffering} {clock : Bytes} {w : World}

def SameRules (w v : World) : Prop :=
  w.logger.level = v.logger.level ∧ w.logger.filter = v.logger.filter

theorem SameRules.trans {u v : World} (h : SameRules w v) (h' : SameRules v u) : SameRules w u :=
  ⟨h.1.trans h'.1, h.2.trans h'.2⟩

theorem sameRules_foldl {α : Type} {g : World → α → World} (h : ∀ w a, SameRules (g w a) w) (as : List α) :
    ∀ w, SameRules (as.foldl g w) w := by
  induction as with
  | nil => exact fun _ => ⟨rfl, rfl⟩
  | cons a as ih => exact fun w => (ih (g w a)).trans (h w a)

theorem sameRules_deliver (signal : Signal) (w : World) (sink : Sink) :
    SameRules (deliver buffering clock signal w sink) w := by
  cases sink <;> cases signal <;> exact ⟨rfl, rfl⟩

theorem sameRules_issue (signal : Signal) : SameRules (w.issue buffering clock signal) w :=
  (sameRules_foldl (sameRules_deliver signal) _ _).trans ⟨rfl, rfl⟩

theorem sameRules_release (w : World) (sink : Sink) : SameRules (release w sink) w := by
  cases sink <;> exact ⟨rfl, rfl⟩

theorem sameRules_clearSinks : SameRules w.clearSinks w :=
  sameRules_foldl sameRules_release w.logger.sinks w

theorem sameRules_addConsole (terminal : Bool) (config : Config) :
    SameRules (addConsole terminal config w) w := by
  unfold addConsole
  split <;> exact ⟨rfl, rfl⟩

theorem sameRules_addFile (config : Config) : SameRules (addFile config w) w := by
  unfold addFile
  split
  · exact ⟨rfl, rfl⟩
  · split <;> exact ⟨rfl, rfl⟩

theorem rules_init (terminal : Bool) (config : Config) :
    (w.init terminal config).logger.level = (configured config).level ∧
      (w.init terminal config).logger.filter = (configured config).filter :=
  (sameRules_addFile config).trans (sameRules_addConsole terminal config)

end Kept

end World

def LogStep.raised (last : Option Level) : LogStep → Option Level
  | .init _ | .setFilter _ => none
  | .setLevel level => some level
  | .addSink _ | .clearSinks | .log _ | .logIfHeard _ | .flush => last

def lastRaised (steps : List (Bytes × LogStep)) : Option Level :=
  steps.foldl (fun last s => s.2.raised last) none

structure Logger.Follows (l : Logger) (last : Option Level) : Prop where
  single : l.filter.Single
  unraised : last = none → l.level ≤ l.filter.minLevel
  raised : ∀ level, last = some level → l.level = level ∧ l.filter.default = level

theorem Logger.Follows.of_sameRules {w v : World} {last : Option Level} (h : v.logger.Follows last)
    (hw : w.SameRules v) : w.logger.Follows last := by
  obtain ⟨hlevel, hfilter⟩ := hw
  constructor
  case single =>
    rw [hfilter]
    exact h.single
  case unraised =>
    rw [hlevel, hfilter]
    exact h.unraised
  case raised =>
    rw [hlevel, hfilter]
    exact h.raised

theorem follows_fresh (terminal : Bool) : (Logger.fresh terminal).Follows none :=
  ⟨.nil, fun _ => Level.le_refl _, nofun⟩

theorem follows_configured (config : Config) : (World.configured config).Follows none := by
  unfold World.configured
  split
  · exact ⟨.nil, fun _ => Level.le_refl _, nofun⟩
  · exact ⟨Filter.single_parse _ _, fun _ => Level.le_refl _, nofun⟩

theorem follows_step {w : World} {last : Option Level} (h : w.logger.Follows last) (host : Host)
    (clock : Bytes) (s : LogStep) : (w.step host clock s).logger.Follows (s.raised last) := by
  cases s with
  | init config =>
      obtain ⟨hlevel, hfilter⟩ := World.rules_init (w := w) host.terminal config
      obtain ⟨hsingle, hbelow, -⟩ := follows_configured config
      refine ⟨?_, fun _ => ?_, nofun⟩
      · rw [World.step, hfilter]
        exact hsingle
      · rw [World.step, hlevel, hfilter]
        exact hbelow rfl
  | addSink sink => exact h.of_sameRules ⟨rfl, rfl⟩
  | clearSinks => exact h.of_sameRules World.sameRules_clearSinks
  | setLevel level => exact ⟨h.single, nofun, fun l hl => ⟨Option.some.inj hl, Option.some.inj hl⟩⟩
  | setFilter rules =>
      refine ⟨Filter.single_parse _ _, fun _ => ?_, nofun⟩
      exact (Level.le_min_iff.1 (Level.le_refl _)).2
  | log r => exact h.of_sameRules (World.sameRules_issue _)
  | logIfHeard r =>
      rw [World.step]
      split
      · exact h.of_sameRules (World.sameRules_issue _)
      · exact h
  | flush => exact h.of_sameRules (World.sameRules_issue _)

theorem follows_run (host : Host) (steps : List (Bytes × LogStep)) :
    ∀ {w : World} {last : Option Level}, w.logger.Follows last →
    (w.run host steps).logger.Follows (steps.foldl (fun last s => s.2.raised last) last) := by
  induction steps with
  | nil => exact fun h => h
  | cons s steps ih => exact fun h => ih (follows_step h host s.1 s.2)

theorem Logger.Follows.le_minLevel_iff {l : Logger} {last : Option Level} (h : l.Follows last) :
    l.level ≤ l.filter.minLevel ↔ ∀ level, last = some level → ∀ rule ∈ l.filter.topics, level ≤ rule.2 := by
  rw [Filter.le_minLevel_iff]
  cases last with
  | none =>
      have hbelow := Filter.le_minLevel_iff.1 (h.unraised rfl)
      exact iff_of_true hbelow nofun
  | some level =>
      obtain ⟨hlevel, hdefault⟩ := h.raised level rfl
      rw [hlevel, hdefault]
      constructor
      · rintro ⟨-, hrules⟩ l hl
        rw [← Option.some.inj hl]
        exact hrules
      · exact fun hrules => ⟨Level.le_refl _, hrules level rfl⟩

def Logger.after (host : Host) (dir : Directory) (steps : List (Bytes × LogStep)) : Logger :=
  ((World.fresh host dir).run host steps).logger

-- In every history the level check agrees with the filter exactly as long as the level is not above
-- the lowest level of the filter, and that holds unless the level was set after the rules and above
-- one of them.
theorem agrees_iff_unraised (host : Host) (dir : Directory) (steps : List (Bytes × LogStep)) :
    let l := Logger.after host dir steps
    ((∀ level topic, l.shouldLog level topic = l.filter.allows level topic) ↔
        l.level ≤ l.filter.minLevel) ∧
      (l.level ≤ l.filter.minLevel ↔
        ∀ level, lastRaised steps = some level → ∀ rule ∈ l.filter.topics, level ≤ rule.2) := by
  have hfollows := follows_run host steps (w := World.fresh host dir) (follows_fresh host.terminal)
  exact ⟨Logger.agrees_iff hfollows.single, hfollows.le_minLevel_iff⟩

def raisedLogger : Logger :=
  Logger.after ⟨false, fun _ _ => 0⟩ ⟨fun _ => none, []⟩ [([], .setFilter (ascii "a=trace")), ([], .setLevel .warn)]

theorem unheard_after_raise :
    ¬raisedLogger.level ≤ raisedLogger.filter.minLevel ∧
      raisedLogger.filter.allows .trace (ascii "a") = true ∧
      raisedLogger.shouldLog .trace (ascii "a") = false := by
  decide

end MarkupFormat.Log
