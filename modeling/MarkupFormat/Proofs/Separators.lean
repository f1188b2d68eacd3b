import MarkupFormat.Bytes.Line

namespace MarkupFormat.Bytes

theorem cutAt_before (stop : Bytes → Bool) (s : Bytes) : ∀ x y, (cutAt stop s).1 = x ++ y →
    y ≠ [] → stop (y ++ (cutAt stop s).2) = false := by
  induction s with
  | nil =>
      intro x y hxy hy
      simp only [cutAt, List.nil_eq, List.append_eq_nil_iff] at hxy
      exact absurd hxy.2 hy
  | cons c s ih =>
      intro x y hxy hy
      by_cases hc : stop (c :: s) = true
      · rw [cutAt, if_pos hc] at hxy
        exact absurd (List.append_eq_nil_iff.1 hxy.symm).2 hy
      · rw [cutAt, if_neg hc] at hxy ⊢
        simp only at hxy ⊢
        cases x with
        | nil =>
            rw [List.nil_append] at hxy
            rw [← hxy, List.cons_append, cutAt_append]
            simpa using hc
        | cons b x =>
            simp only [List.cons_append, List.cons.injEq] at hxy
            exact ih x y hxy.2 hy

theorem cutAt_of_split {stop : Bytes → Bool} {a r : Bytes}
    (hstop : ∀ x y, a = x ++ y → y ≠ [] → stop (y ++ r) = false) (hr : r = [] ∨ stop r = true) :
    cutAt stop (a ++ r) = (a, r) := by
  induction a with
  | nil =>
      cases r with
      | nil => rfl
      | cons c r =>
          have hc : stop (c :: r) = true := hr.resolve_left (by simp)
          rw [List.nil_append, cutAt, if_pos hc]
  | cons c a ih =>
      have hc : stop (c :: (a ++ r)) = false := hstop [] (c :: a) rfl (by simp)
      have ha : cutAt stop (a ++ r) = (a, r) :=
        ih fun x y hxy => hstop (c :: x) y (by rw [hxy]; rfl)
      rw [List.cons_append, cutAt, if_neg (by simp [hc]), ha]

theorem cutAt_eq_iff {stop : Bytes → Bool} {s a r : Bytes} :
    cutAt stop s = (a, r) ↔
      s = a ++ r ∧ (∀ x y, a = x ++ y → y ≠ [] → stop (y ++ r) = false) ∧
        (r = [] ∨ stop r = true) := by
  constructor
  · intro h
    have ha : (cutAt stop s).1 = a := by rw [h]
    have hr : (cutAt stop s).2 = r := by rw [h]
    subst ha hr
    refine ⟨(cutAt_append stop s).symm, cutAt_before stop s, ?_⟩
    by_cases hnil : (cutAt stop s).2 = []
    · exact .inl hnil
    · exact .inr (cutAt_stop stop s hnil)
  · rintro ⟨rfl, hstop, hr⟩
    exact cutAt_of_split hstop hr

theorem cutAt_byte_eq_iff {c : UInt8} {s a r : Bytes} :
    cutAt (startsWith [c]) s = (a, r) ↔ s = a ++ r ∧ c ∉ a ∧ (r = [] ∨ ∃ u, r = c :: u) := by
  rw [cutAt_eq_iff]
  refine and_congr_right fun _ => and_congr ?_ (or_congr_right startsWith_iff)
  constructor
  · intro h hc
    obtain ⟨x, y, hxy⟩ := List.append_of_mem hc
    have hstop := h x (c :: y) hxy (by simp)
    rw [List.cons_append, Bool.eq_false_iff, ne_eq, startsWith_iff] at hstop
    exact hstop ⟨y ++ r, rfl⟩
  · rintro hc x y rfl hy
    obtain ⟨d, y, rfl⟩ := List.exists_cons_of_ne_nil hy
    rw [Bool.eq_false_iff, ne_eq, startsWith_iff]
    rintro ⟨u, hu⟩
    rw [List.cons_append, List.singleton_append, List.cons.injEq] at hu
    exact hc (by simp [hu.1])

theorem append_separator_inj {c : UInt8} {a b a' b' : Bytes} (ha : c ∉ a) (ha' : c ∉ a')
    (h : a ++ c :: b = a' ++ c :: b') : a = a' ∧ b = b' := by
  have hcut : cutAt (startsWith [c]) (a ++ c :: b) = (a, c :: b) :=
    cutAt_byte_eq_iff.2 ⟨rfl, ha, .inr ⟨b, rfl⟩⟩
  have hcut' : cutAt (startsWith [c]) (a ++ c :: b) = (a', c :: b') :=
    cutAt_byte_eq_iff.2 ⟨h, ha', .inr ⟨b', rfl⟩⟩
  simpa using hcut.symm.trans hcut'

theorem separator_not_mem_of_mem_split {sep : UInt8} {t : Bytes} : ∀ {l}, l ∈ split sep t → sep ∉ l := by
  induction t with
  | nil =>
      intro l hl
      rw [split, List.mem_singleton] at hl
      simp [hl]
  | cons d t ih =>
      intro l hl
      rw [split] at hl
      split at hl
      · rcases List.mem_cons.1 hl with rfl | hl
        · simp
        · exact ih hl
      · next hd =>
          obtain ⟨m, ms, hm⟩ := List.exists_cons_of_ne_nil (split_ne_nil sep t)
          rw [hm, List.modifyHead_cons] at hl
          rcases List.mem_cons.1 hl with rfl | hl
          · rw [List.mem_cons, not_or]
            exact ⟨Ne.symm hd, ih (by simp [hm])⟩
          · exact ih (by simp [hm, hl])

theorem mem_of_mem_split {sep c : UInt8} {t : Bytes} : ∀ {l}, l ∈ split sep t → c ∈ l → c ∈ t := by
  induction t with
  | nil =>
      intro l hl hc
      simp [split] at hl
      simp [hl] at hc
  | cons d t ih =>
      intro l hl hc
      rw [split] at hl
      split at hl
      · rcases List.mem_cons.1 hl with rfl | hl
        · cases hc
        · exact List.mem_cons_of_mem _ (ih hl hc)
      · obtain ⟨m, ms, hm⟩ := List.exists_cons_of_ne_nil (split_ne_nil sep t)
        rw [hm, List.modifyHead_cons] at hl
        rcases List.mem_cons.1 hl with rfl | hl
        · rcases List.mem_cons.1 hc with rfl | hc
          · exact List.mem_cons_self
          · exact List.mem_cons_of_mem _ (ih (by simp [hm]) hc)
        · exact List.mem_cons_of_mem _ (ih (by simp [hm, hl]) hc)

def SelfDelimiting {α : Type} (f : α → Bytes) : Prop :=
  ∀ ⦃a b x y⦄, f a ++ x = f b ++ y → a = b ∧ x = y

theorem SelfDelimiting.flatMap_inj {α : Type} {f : α → Bytes} (hf : SelfDelimiting f) {x y : Bytes}
    (hx : ∀ a z, x ≠ f a ++ z) (hy : ∀ a z, y ≠ f a ++ z) (as : List α) : ∀ bs,
    as.flatMap f ++ x = bs.flatMap f ++ y → as = bs ∧ x = y := by
  induction as with
  | nil =>
      intro bs h
      cases bs with
      | nil => exact ⟨rfl, h⟩
      | cons b bs => exact absurd (by simpa using h) (hx b (bs.flatMap f ++ y))
  | cons a as ih =>
      intro bs h
      cases bs with
      | nil => exact absurd (by simpa using h.symm) (hy a (as.flatMap f ++ x))
      | cons b bs =>
          rw [List.flatMap_cons, List.flatMap_cons, List.append_assoc, List.append_assoc] at h
          obtain ⟨rfl, hrest⟩ := hf h
          obtain ⟨rfl, hxy⟩ := ih bs hrest
          exact ⟨rfl, hxy⟩

end MarkupFormat.Bytes
