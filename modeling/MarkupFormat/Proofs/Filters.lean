import Mathlib.Data.Fintype.EquivFin
import Mathlib.Data.List.Basic
import MarkupFormat.Log.Filter

namespace MarkupFormat.Log

open Bytes

namespace Level

theorem mem_all (l : Level) : l ∈ all := by
  cases l <;> decide

protected theorem le_refl (a : Level) : a ≤ a :=
  Nat.le_refl _

protected theorem le_trans {a b c : Level} (h : a ≤ b) (h' : b ≤ c) : a ≤ c :=
  Nat.le_trans h h'

theorem le_min_iff {a b c : Level} : a ≤ min b c ↔ a ≤ b ∧ a ≤ c := by
  have hmin : min b c = if b ≤ c then b else c := rfl
  rw [hmin]
  split
  · next h => exact ⟨fun ha => ⟨ha, Level.le_trans ha h⟩, And.left⟩
  · next h =>
      have hle : c ≤ b := Nat.le_of_lt (Nat.lt_of_not_le h)
      exact ⟨fun ha => ⟨Level.le_trans ha hle, ha⟩, And.right⟩

theorem le_foldl_min_iff {a : Level} (ls : List Level) : ∀ {b : Level},
    a ≤ ls.foldl min b ↔ a ≤ b ∧ ∀ l ∈ ls, a ≤ l := by
  induction ls with
  | nil => simp
  | cons l ls ih =>
      intro b
      rw [List.foldl_cons, ih, le_min_iff, List.forall_mem_cons, and_assoc]

theorem min_mem (a b : Level) : min a b = a ∨ min a b = b := by
  have hmin : min a b = if a ≤ b then a else b := rfl
  rw [hmin]
  split
  · exact .inl rfl
  · exact .inr rfl

theorem foldl_min_mem (ls : List Level) : ∀ b : Level, ls.foldl min b ∈ b :: ls := by
  induction ls with
  | nil => simp
  | cons l ls ih =>
      intro b
      rw [List.foldl_cons]
      rcases List.mem_cons.1 (ih (min b l)) with h | h
      · rw [h]
        rcases min_mem b l with hm | hm <;> simp [hm]
      · exact List.mem_cons_of_mem _ (List.mem_cons_of_mem _ h)

end Level

namespace Filter

theorem le_minLevel_iff {f : Filter} {a : Level} :
    a ≤ f.minLevel ↔ a ≤ f.default ∧ ∀ rule ∈ f.topics, a ≤ rule.2 := by
  rw [minLevel, Level.le_foldl_min_iff, List.forall_mem_map]

def Single (f : Filter) : Prop :=
  (f.topics.map Prod.fst).Nodup

theorem single_apply {f : Filter} (h : f.Single) (r : Rule) : (f.apply r).Single := by
  cases r with
  | default level => exact h
  | topic name level =>
      have hsub : ((f.topics.filter (·.1 ≠ name)).map Prod.fst).Sublist (f.topics.map Prod.fst) :=
        List.filter_sublist.map _
      refine List.nodup_cons.2 ⟨?_, h.sublist hsub⟩
      simp

theorem single_parse (f : Filter) (spec : Bytes) : (f.parse spec).Single := by
  have hfold : ∀ (rs : List Rule) (g : Filter), g.Single → (rs.foldl apply g).Single := by
    intro rs
    induction rs with
    | nil => exact fun _ h => h
    | cons r rs ih => exact fun g h => ih _ (single_apply h r)
  exact hfold _ _ .nil

theorem level_of_mem {f : Filter} (h : f.Single) {rule : Bytes × Level} (hrule : rule ∈ f.topics) :
    f.level rule.1 = rule.2 := by
  obtain ⟨before, after, hsplit⟩ := List.append_of_mem hrule
  have hlookup : f.topics.lookup rule.1 = some rule.2 := by
    refine List.lookup_eq_some_iff.2 ⟨before, after, hsplit, fun r hr => ?_⟩
    rw [Single, hsplit, List.map_append, List.map_cons] at h
    have hne := (List.nodup_append.1 h).2.2 r.1 (List.mem_map_of_mem hr) rule.1 List.mem_cons_self
    simpa using Ne.symm hne
  rw [level, hlookup, Option.getD_some]

theorem level_cases (f : Filter) (topic : Bytes) :
    f.level topic = f.default ∨ ∃ rule ∈ f.topics, f.level topic = rule.2 := by
  rw [level]
  cases h : f.topics.lookup topic with
  | none => exact .inl rfl
  | some l =>
      obtain ⟨before, after, hsplit, -⟩ := List.lookup_eq_some_iff.1 h
      exact .inr ⟨(topic, l), by simp [hsplit], rfl⟩

theorem minLevel_le_level (f : Filter) (topic : Bytes) : f.minLevel ≤ f.level topic := by
  obtain ⟨hdefault, hrules⟩ := le_minLevel_iff.1 (Level.le_refl f.minLevel)
  rcases f.level_cases topic with h | ⟨rule, hrule, h⟩
  · rw [h]
    exact hdefault
  · rw [h]
    exact hrules rule hrule

theorem exists_level_eq_default (f : Filter) : ∃ topic, f.level topic = f.default := by
  obtain ⟨topic, htopic⟩ := Infinite.exists_notMem_finset (f.topics.map Prod.fst).toFinset
  refine ⟨topic, ?_⟩
  have hlookup : f.topics.lookup topic = none := by
    refine List.lookup_eq_none_iff.2 fun rule hrule => ?_
    simp only [bne_iff_ne, ne_eq]
    rintro rfl
    exact htopic (List.mem_toFinset.2 (List.mem_map_of_mem hrule))
  rw [level, hlookup, Option.getD_none]

theorem le_minLevel_iff_forall {f : Filter} (h : f.Single) {a : Level} :
    a ≤ f.minLevel ↔ ∀ topic, a ≤ f.level topic := by
  refine ⟨fun ha topic => Level.le_trans ha (f.minLevel_le_level topic), fun ha => ?_⟩
  refine le_minLevel_iff.2 ⟨?_, fun rule hrule => ?_⟩
  · obtain ⟨topic, htopic⟩ := f.exists_level_eq_default
    exact htopic ▸ ha topic
  · exact level_of_mem h hrule ▸ ha rule.1

theorem exists_level_eq_minLevel {f : Filter} (h : f.Single) : ∃ topic, f.level topic = f.minLevel := by
  rcases List.mem_cons.1 (Level.foldl_min_mem (f.topics.map Prod.snd) f.default) with hmin | hmin
  · obtain ⟨topic, htopic⟩ := f.exists_level_eq_default
    exact ⟨topic, htopic.trans hmin.symm⟩
  · obtain ⟨rule, hrule, hlevel⟩ := List.mem_map.1 hmin
    exact ⟨rule.1, (level_of_mem h hrule).trans hlevel⟩

theorem minLevel_le_iff {f : Filter} (h : f.Single) {a : Level} :
    f.minLevel ≤ a ↔ ∃ topic, f.allows a topic = true := by
  simp only [allows, decide_eq_true_eq]
  constructor
  · intro ha
    obtain ⟨topic, htopic⟩ := exists_level_eq_minLevel h
    exact ⟨topic, htopic ▸ ha⟩
  · rintro ⟨topic, htopic⟩
    exact Level.le_trans (f.minLevel_le_level topic) htopic

end Filter

end MarkupFormat.Log
