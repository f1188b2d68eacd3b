import Mathlib.Data.List.Basic
import MarkupFormat.Bytes

namespace MarkupFormat

variable {α β σ : Type}

def latest (told : β → Option α) (entries : List β) : Option α :=
  entries.reverse.findSome? told

section Latest

variable {told : β → Option α}

theorem latest_cons (b : β) (entries : List β) :
    latest told (b :: entries) = (latest told entries).or (told b) := by
  simp only [latest, List.reverse_cons, List.findSome?_append, List.findSome?_singleton]

theorem latest_eq_none_iff {entries : List β} : latest told entries = none ↔ ∀ b ∈ entries, told b = none := by
  simp only [latest, List.findSome?_eq_none_iff, List.mem_reverse]

theorem latest_eq_some_iff {entries : List β} {x : α} : latest told entries = some x ↔
    ∃ before b after, entries = before ++ b :: after ∧ told b = some x ∧ ∀ c ∈ after, told c = none := by
  rw [latest, List.findSome?_eq_some_iff]
  constructor
  · rintro ⟨after, b, before, hsplit, hb, hafter⟩
    refine ⟨before.reverse, b, after.reverse, ?_, hb, fun c hc => hafter c (List.mem_reverse.1 hc)⟩
    rw [← List.reverse_reverse entries, hsplit]
    simp
  · rintro ⟨before, b, after, rfl, hb, hafter⟩
    exact ⟨after.reverse, b, before.reverse, by simp, hb, fun c hc => hafter c (List.mem_reverse.1 hc)⟩

theorem latest_filter {p : β → Bool} (h : ∀ b, p b = false → told b = none) (entries : List β) :
    latest told (entries.filter p) = latest told entries := by
  induction entries with
  | nil => rfl
  | cons b entries ih =>
      rw [latest_cons]
      cases hb : p b with
      | true => rw [List.filter_cons_of_pos hb, latest_cons, ih]
      | false => rw [List.filter_cons_of_neg (by simp [hb]), ih, h b hb, Option.or_none]

theorem value_foldl_latest {step : σ → β → σ} {value : σ → Option α}
    (h : ∀ s b, value (step s b) = (told b).or (value s)) (entries : List β) : ∀ s,
    value (entries.foldl step s) = (latest told entries).or (value s) := by
  induction entries with
  | nil => exact fun _ => rfl
  | cons b entries ih =>
      intro s
      rw [List.foldl_cons, ih, h, latest_cons, Option.or_assoc]

end Latest

theorem list_foldl_append {step : σ → β → σ} (list : σ → List α) (part : β → List α)
    (h : ∀ s b, list (step s b) = list s ++ part b) (entries : List β) : ∀ s,
    list (entries.foldl step s) = list s ++ entries.flatMap part := by
  induction entries with
  | nil => simp
  | cons b entries ih =>
      intro s
      rw [List.foldl_cons, ih, h, List.append_assoc, List.flatMap_cons]

theorem lookup_filter_ne {name other : Bytes} (h : name ≠ other) (table : List (Bytes × α)) :
    (table.filter (·.1 ≠ name)).lookup other = table.lookup other := by
  induction table with
  | nil => rfl
  | cons entry table ih =>
      by_cases hentry : entry.1 = name
      · have hne : (other == entry.1) = false :=
          beq_eq_false_iff_ne.2 fun heq => h (hentry.symm.trans heq.symm)
        rw [List.filter_cons_of_neg (by simpa using hentry), ih, List.lookup_cons, hne]
      · rw [List.filter_cons_of_pos (by simpa using hentry), List.lookup_cons, List.lookup_cons, ih]

end MarkupFormat
