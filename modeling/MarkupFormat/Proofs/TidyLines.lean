import Mathlib.Data.List.Basic
import Mathlib.Data.List.Chain
import MarkupFormat.Proofs.Hanging
import MarkupFormat.Proofs.TextLines

namespace MarkupFormat.Layout

open Bytes Document

structure Inked (l : Bytes) : Prop where
  ne_nil : l ≠ []
  unbroken : Byte.lf ∉ l
  first : ∀ c ∈ l.head?, isBlank c = false
  last : ∀ c ∈ l.getLast?, isBlank c = false

theorem inked_of_solid {l : Bytes} (hne : l ≠ []) (h : ∀ c ∈ l, isBlank c = false) : Inked l where
  ne_nil := hne
  unbroken := fun hlf => by cases h _ hlf
  first := fun c hc => h c (List.mem_of_head? hc)
  last := fun c hc => h c (List.mem_of_getLast? hc)

theorem inked_of_all {l : Bytes} (hne : l ≠ []) (h : l.all (!isBlank ·) = true) : Inked l :=
  inked_of_solid hne (by simpa using h)

theorem Inked.around {l m : Bytes} (hl : Inked l) {s : Bytes} (hs : Byte.lf ∉ s) (hm : Inked m) :
    Inked (l ++ s ++ m) where
  ne_nil := by simp [hl.ne_nil]
  unbroken := by simp [hl.unbroken, hs, hm.unbroken]
  first := by
    rw [List.append_assoc, List.head?_append_of_ne_nil _ hl.ne_nil]
    exact hl.first
  last := by
    rw [List.getLast?_append_of_ne_nil _ hm.ne_nil]
    exact hm.last

theorem Inked.append {l m : Bytes} (hl : Inked l) (hm : Inked m) : Inked (l ++ m) := by
  simpa using hl.around List.not_mem_nil hm

def lineBreak (blank : Bool) (depth : Nat) : Bytes :=
  Byte.lf :: (if blank then [Byte.lf] else []) ++ indent depth

inductive Flowing : Bytes → Prop
  | line {l : Bytes} : Inked l → Flowing l
  | next {l t : Bytes} (blank : Bool) (depth : Nat) : Inked l → Flowing t →
      Flowing (l ++ (lineBreak blank depth ++ t))

namespace Flowing

theorem ink {l t : Bytes} (hl : Inked l) (ht : Flowing t) : Flowing (l ++ t) := by
  cases ht with
  | line hm => exact .line (hl.append hm)
  | next blank depth hm ht =>
      rw [← List.append_assoc]
      exact .next blank depth (hl.append hm) ht

theorem append {t u : Bytes} (ht : Flowing t) (hu : Flowing u) : Flowing (t ++ u) := by
  induction ht with
  | line hl => exact ink hl hu
  | next blank depth hl _ ih =>
      rw [List.append_assoc, List.append_assoc]
      exact .next blank depth hl ih

theorem under {t u : Bytes} (blank : Bool) (depth : Nat) (ht : Flowing t) (hu : Flowing u) :
    Flowing (t ++ (lineBreak blank depth ++ u)) := by
  induction ht with
  | line hl => exact .next blank depth hl hu
  | next b d hl _ ih =>
      rw [List.append_assoc, List.append_assoc]
      exact .next b d hl ih

theorem ends {t : Bytes} (h : Flowing t) :
    (∃ c s, t = c :: s ∧ isBlank c = false) ∧ ∀ c ∈ t.getLast?, isBlank c = false := by
  have hfirst : ∀ {l}, Inked l → ∀ u, ∃ c s, l ++ u = c :: s ∧ isBlank c = false := by
    intro l hl u
    cases l with
    | nil => exact absurd rfl hl.ne_nil
    | cons c s => exact ⟨c, s ++ u, rfl, hl.first c rfl⟩
  induction h with
  | line hl => exact ⟨by simpa using hfirst hl [], hl.last⟩
  | next blank depth hl ht ih =>
      refine ⟨hfirst hl _, ?_⟩
      obtain ⟨c, s, rfl, -⟩ := ih.1
      rw [← List.append_assoc, List.getLast?_append_of_ne_nil _ (List.cons_ne_nil c s)]
      exact ih.2

end Flowing

structure TidyLine (l : Bytes) : Prop where
  last : ∀ c ∈ l.getLast?, isBlank c = false
  indented : l ≠ [] → ∃ depth c r, l = spaces (2 * depth) ++ c :: r ∧ isBlank c = false

theorem tidyLine_indent (depth : Nat) {l : Bytes} (h : Inked l) : TidyLine (indent depth ++ l) where
  last := by
    rw [List.getLast?_append_of_ne_nil _ h.ne_nil]
    exact h.last
  indented := by
    intro _
    obtain ⟨⟨c, r, hl, hc⟩, -⟩ := Flowing.ends (.line h)
    exact ⟨depth, c, r, by rw [hl]; rfl, hc⟩

theorem tidyLine_nil : TidyLine [] :=
  ⟨nofun, fun h => absurd rfl h⟩

structure TidyLines (ls : List Bytes) : Prop where
  apart : ls.IsChain fun l m => l ≠ [] ∨ m ≠ []
  tidy : ∀ l ∈ ls, TidyLine l

namespace TidyLines

variable {l : Bytes} {ls : List Bytes}

theorem cons (hl : TidyLine l) (hne : l ≠ []) (h : TidyLines ls) : TidyLines (l :: ls) where
  apart := List.isChain_cons.2 ⟨fun _ _ => .inl hne, h.apart⟩
  tidy := List.forall_mem_cons.2 ⟨hl, h.tidy⟩

theorem blank (hne : l ≠ []) (h : TidyLines (l :: ls)) : TidyLines ([] :: l :: ls) where
  apart := List.isChain_cons_cons.2 ⟨.inr hne, h.apart⟩
  tidy := List.forall_mem_cons.2 ⟨tidyLine_nil, h.tidy⟩

end TidyLines

theorem lines_break {l : Bytes} (h : Byte.lf ∉ l) (t : Bytes) :
    lines (l ++ Byte.lf :: t) = l :: lines t := by
  rw [lines_append h]
  simp [lines, split]

theorem Flowing.lines_indent {t : Bytes} (h : Flowing t) : ∀ depth, ∃ l ls,
    lines (indent depth ++ (t ++ [Byte.lf])) = l :: ls ∧ l ≠ [] ∧ TidyLines (l :: ls) := by
  induction h with
  | @line l hl =>
      intro depth
      have hbreak : Byte.lf ∉ indent depth ++ l := by simp [lf_not_mem_indent depth, hl.unbroken]
      have hne : indent depth ++ l ≠ [] := by simp [hl.ne_nil]
      refine ⟨indent depth ++ l, [[]], ?_, hne, ?_⟩
      · rw [← List.append_assoc, lines_break hbreak]
        rfl
      · exact .cons (tidyLine_indent depth hl) hne ⟨.singleton _, by simp [tidyLine_nil]⟩
  | @next l t blank deeper hl _ ih =>
      intro depth
      have hbreak : Byte.lf ∉ indent depth ++ l := by simp [lf_not_mem_indent depth, hl.unbroken]
      have hne : indent depth ++ l ≠ [] := by simp [hl.ne_nil]
      have hl := tidyLine_indent depth hl
      obtain ⟨m, ms, hms, hm, htidy⟩ := ih deeper
      cases blank with
      | false =>
          refine ⟨indent depth ++ l, m :: ms, ?_, hne, .cons hl hne htidy⟩
          rw [← hms, ← lines_break hbreak]
          simp [lineBreak]
      | true =>
          refine ⟨indent depth ++ l, [] :: m :: ms, ?_, hne, .cons hl hne (.blank hm htidy)⟩
          have hblank := lines_break (l := []) List.not_mem_nil (indent deeper ++ (t ++ [Byte.lf]))
          rw [← hms, ← hblank, ← lines_break hbreak]
          simp [lineBreak]

structure Tidy (t : Bytes) : Prop where
  starts : ∃ c s, t = c :: s ∧ isBlank c = false
  ends : ∃ u, t = u ++ [Byte.lf] ∧ u.getLast? ≠ some Byte.lf
  lines : TidyLines (lines t)

theorem Flowing.tidy {t : Bytes} (h : Flowing t) : Tidy (t ++ [Byte.lf]) where
  starts := by
    obtain ⟨⟨c, s, rfl, hc⟩, -⟩ := h.ends
    exact ⟨c, s ++ [Byte.lf], rfl, hc⟩
  ends := ⟨t, rfl, fun hlf => by cases h.ends.2 _ hlf⟩
  lines := by
    obtain ⟨l, ls, hlines, -, htidy⟩ := h.lines_indent 0
    rw [← hlines] at htidy
    exact htidy

end MarkupFormat.Layout
