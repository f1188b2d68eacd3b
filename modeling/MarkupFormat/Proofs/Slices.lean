import MarkupFormat.Proofs.Lines
import MarkupFormat.Source

namespace MarkupFormat

open Bytes

namespace Span

instance : Membership Nat Span :=
  ⟨fun span o => span.start ≤ o ∧ o < span.stop⟩

theorem mem_iff {span : Span} {o : Nat} : o ∈ span ↔ span.start ≤ o ∧ o < span.stop := Iff.rfl

theorem mem_mk {start stop o : Nat} : o ∈ Span.mk start stop ↔ start ≤ o ∧ o < stop := Iff.rfl

end Span

namespace Bytes

theorem hasBlankLine_iff {t : Bytes} :
    hasBlankLine t = true ↔
      ∃ i j : Nat, i < j ∧ t[i]? = some Byte.lf ∧ t[j]? = some Byte.lf := by
  have hone : ∀ u : Bytes, 0 < u.count Byte.lf ↔ ∃ i, u[i]? = some Byte.lf := fun u =>
    List.count_pos_iff.trans List.mem_iff_getElem?
  rw [hasBlankLine, decide_eq_true_iff]
  induction t with
  | nil => simp
  | cons c t ih =>
      by_cases hc : c = Byte.lf
      · subst hc
        rw [List.count_cons_self]
        constructor
        · intro h
          obtain ⟨j, hj⟩ := (hone t).1 (by omega)
          exact ⟨0, j + 1, by omega, rfl, hj⟩
        · rintro ⟨i, j, hij, -, hj⟩
          obtain ⟨j, rfl⟩ := Nat.exists_eq_succ_of_ne_zero (Nat.ne_zero_of_lt hij)
          have := (hone t).2 ⟨j, hj⟩
          omega
      · rw [List.count_cons_of_ne hc]
        refine ih.trans ?_
        constructor
        · rintro ⟨i, j, hij, hi, hj⟩
          exact ⟨i + 1, j + 1, by omega, hi, hj⟩
        · rintro ⟨i, j, hij, hi, hj⟩
          obtain ⟨j, rfl⟩ := Nat.exists_eq_succ_of_ne_zero (Nat.ne_zero_of_lt hij)
          cases i with
          | zero => exact absurd (Option.some.inj hi) hc
          | succ i => exact ⟨i, j, by omega, hi, hj⟩

end Bytes

namespace Source

variable {src : Source} {start mid stop : Nat}

theorem getElem?_slice (i : Nat) :
    (src.slice start stop)[i]? = if i < stop - start then src.content[start + i]? else none := by
  rw [slice, List.getElem?_take, List.getElem?_drop]

theorem mem_slice {c : UInt8} :
    c ∈ src.slice start stop ↔ ∃ o ∈ Span.mk start stop, src.content[o]? = some c := by
  rw [List.mem_iff_getElem?]
  simp only [getElem?_slice, Span.mem_mk]
  constructor
  · rintro ⟨i, hi⟩
    split at hi
    · exact ⟨start + i, ⟨by omega, by omega⟩, hi⟩
    · cases hi
  · rintro ⟨o, ⟨h1, h2⟩, ho⟩
    exact ⟨o - start, by rw [if_pos (by omega), Nat.add_sub_cancel' h1]; exact ho⟩

theorem length_slice (h : stop ≤ src.length) : (src.slice start stop).length = stop - start := by
  rw [length] at h
  rw [slice, List.length_take, List.length_drop]
  omega

theorem slice_eq_nil (h : stop ≤ src.length) : src.slice start stop = [] ↔ stop ≤ start := by
  rw [← List.length_eq_zero_iff, length_slice h]
  omega

theorem slice_append (h1 : start ≤ mid) (h2 : mid ≤ stop) :
    src.slice start mid ++ src.slice mid stop = src.slice start stop := by
  have hdrop : src.content.drop mid = (src.content.drop start).drop (mid - start) := by
    rw [List.drop_drop, Nat.add_sub_cancel' h1]
  have hlen : stop - start = (mid - start) + (stop - mid) := by omega
  rw [slice, slice, slice, hdrop, hlen, List.take_add]

theorem slice_of_append {a b : Bytes} (h : src.slice start stop = a ++ b) :
    src.slice start (start + a.length) = a ∧ src.slice (start + a.length) stop = b := by
  have hle : a.length ≤ stop - start := by
    have := congrArg List.length h
    rw [slice, List.length_take, List.length_append] at this
    omega
  have hleft : src.slice start (start + a.length) = a := by
    have : src.slice start (start + a.length) = (src.slice start stop).take a.length := by
      rw [slice, slice, List.take_take, Nat.add_sub_cancel_left, Nat.min_eq_left hle]
    rw [this, h, List.take_left]
  refine ⟨hleft, ?_⟩
  rcases Nat.lt_or_ge stop start with hlt | hge
  · have ha : a = [] := List.length_eq_zero_iff.1 (by omega)
    rw [ha] at h ⊢
    exact h
  · have hjoin : src.slice start (start + a.length) ++ src.slice (start + a.length) stop =
        src.slice start stop := slice_append (Nat.le_add_right _ _) (by omega)
    rw [hleft, h] at hjoin
    exact List.append_cancel_left hjoin

theorem allBlank_slice :
    allBlank (src.slice start stop) = true ↔
      ∀ o ∈ Span.mk start stop, ∀ c, src.content[o]? = some c → isBlank c = true := by
  simp only [allBlank, List.all_eq_true, mem_slice]
  constructor
  · intro h o ho c hc
    exact h c ⟨o, ho, hc⟩
  · rintro h c ⟨o, ho, hc⟩
    exact h o ho c hc

theorem hasBlankLine_slice :
    hasBlankLine (src.slice start stop) = true ↔
      ∃ o₁ ∈ Span.mk start stop, ∃ o₂ ∈ Span.mk start stop, o₁ < o₂ ∧
        src.content[o₁]? = some Byte.lf ∧ src.content[o₂]? = some Byte.lf := by
  simp only [hasBlankLine_iff, getElem?_slice, Span.mem_mk]
  constructor
  · rintro ⟨i, j, hij, hi, hj⟩
    split at hi
    · split at hj
      · exact ⟨start + i, by omega, start + j, by omega, by omega, hi, hj⟩
      · cases hj
    · cases hi
  · rintro ⟨o₁, h₁, o₂, h₂, h12, hl₁, hl₂⟩
    refine ⟨o₁ - start, o₂ - start, by omega, ?_, ?_⟩
    · rw [if_pos (by omega), Nat.add_sub_cancel' h₁.1]
      exact hl₁
    · rw [if_pos (by omega), Nat.add_sub_cancel' h₂.1]
      exact hl₂

end Source

end MarkupFormat
