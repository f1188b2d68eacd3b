import MarkupFormat.Bytes

namespace MarkupFormat.Bytes

def utf8 (cs : List Char) : Bytes :=
  cs.flatMap String.utf8EncodeChar

theorem utf8_cons (c : Char) (cs : List Char) : utf8 (c :: cs) = String.utf8EncodeChar c ++ utf8 cs :=
  List.flatMap_cons

theorem utf8_append (a b : List Char) : utf8 (a ++ b) = utf8 a ++ utf8 b :=
  List.flatMap_append

theorem startsCharacter_iff {b : UInt8} : startsCharacter b = true ↔ b.toNat < 128 ∨ 192 ≤ b.toNat := by
  have hall : ∀ b : UInt8, startsCharacter b = true ↔ b.toNat < 128 ∨ 192 ≤ b.toNat :=
    Byte.forall_iff.2 (by decide +kernel)
  exact hall b

structure Multibyte (bs : Bytes) : Prop where
  several : 2 ≤ bs.length
  high : ∀ b ∈ bs, 128 ≤ b.toNat
  width : displayWidth bs = 1

theorem multibyte_lead {n : Nat} {ms : List Nat} (hn : 192 ≤ n ∧ n < 256) (hms : ms ≠ [])
    (h : ∀ m ∈ ms, m < 64) : Multibyte (UInt8.ofNat n :: ms.map fun m => UInt8.ofNat (m + 128)) := by
  have hlead : (UInt8.ofNat n).toNat = n := UInt8.toNat_ofNat_of_lt' hn.2
  have hrest : ∀ m ∈ ms, (UInt8.ofNat (m + 128)).toNat = m + 128 := fun m hm =>
    UInt8.toNat_ofNat_of_lt' (Nat.lt_trans (Nat.add_lt_add_right (h m hm) 128) (by decide))
  constructor
  case several =>
    have := List.length_pos_iff.2 hms
    rw [List.length_cons, List.length_map]
    omega
  case high =>
    rw [List.forall_mem_cons, hlead]
    refine ⟨by omega, List.forall_mem_map.2 fun m hm => ?_⟩
    rw [hrest m hm]
    exact Nat.le_add_left 128 m
  case width =>
    have hfirst : startsCharacter (UInt8.ofNat n) = true := startsCharacter_iff.2 (by omega)
    have hnone : ∀ m ∈ ms, ¬startsCharacter (UInt8.ofNat (m + 128)) = true := fun m hm => by
      have := h m hm
      rw [startsCharacter_iff, hrest m hm]
      omega
    rw [displayWidth, List.countP_cons_of_pos hfirst, List.countP_eq_zero.2 (List.forall_mem_map.2 hnone)]

theorem utf8EncodeChar_cases (c : Char) :
    (c.toNat < 128 ∧ String.utf8EncodeChar c = [UInt8.ofNat c.toNat]) ∨
      (128 ≤ c.toNat ∧ Multibyte (String.utf8EncodeChar c)) := by
  have hv : c.val.toNat = c.toNat := Char.toNat_val
  have hsix : ∀ n, n % 64 < 64 := fun n => Nat.mod_lt n (by decide)
  unfold String.utf8EncodeChar
  simp only [hv]
  split
  · exact .inl ⟨by omega, rfl⟩
  · refine .inr ⟨by omega, ?_⟩
    split
    · have hlead : 192 ≤ c.toNat / 64 % 32 + 192 ∧ c.toNat / 64 % 32 + 192 < 256 := by omega
      exact multibyte_lead hlead (List.cons_ne_nil (c.toNat % 64) []) (by simp [hsix])
    · split
      · have hlead : 192 ≤ c.toNat / 4096 % 16 + 224 ∧ c.toNat / 4096 % 16 + 224 < 256 := by omega
        exact multibyte_lead hlead (List.cons_ne_nil (c.toNat / 64 % 64) [c.toNat % 64]) (by simp [hsix])
      · have hlead : 192 ≤ c.toNat / 262144 % 8 + 240 ∧ c.toNat / 262144 % 8 + 240 < 256 := by omega
        exact multibyte_lead hlead
          (List.cons_ne_nil (c.toNat / 4096 % 64) [c.toNat / 64 % 64, c.toNat % 64]) (by simp [hsix])

section Encoded

theorem displayWidth_utf8EncodeChar (c : Char) : displayWidth (String.utf8EncodeChar c) = 1 := by
  rcases utf8EncodeChar_cases c with ⟨hc, henc⟩ | ⟨-, hmulti⟩
  · have hstart : startsCharacter (UInt8.ofNat c.toNat) = true := by
      rw [startsCharacter_iff, UInt8.toNat_ofNat_of_lt' (Nat.lt_trans hc (by decide))]
      exact .inl hc
    rw [henc, displayWidth, List.countP_cons_of_pos hstart]
    rfl
  · exact hmulti.width

theorem displayWidth_utf8 (cs : List Char) : displayWidth (utf8 cs) = cs.length := by
  induction cs with
  | nil => rfl
  | cons c cs ih =>
      rw [utf8_cons, displayWidth_append, displayWidth_utf8EncodeChar, ih, List.length_cons, Nat.add_comm]

theorem mem_utf8EncodeChar_iff {b : UInt8} (hb : b.toNat < 128) {c : Char} :
    b ∈ String.utf8EncodeChar c ↔ c.toNat = b.toNat := by
  rcases utf8EncodeChar_cases c with ⟨hc, henc⟩ | ⟨hc, hmulti⟩
  · rw [henc, List.mem_singleton, ← UInt8.toNat_inj,
      UInt8.toNat_ofNat_of_lt' (Nat.lt_trans hc (by decide)), eq_comm]
  · refine iff_of_false (fun hmem => ?_) (by omega)
    have := hmulti.high b hmem
    omega

theorem mem_utf8_iff {b : UInt8} (hb : b.toNat < 128) {cs : List Char} :
    b ∈ utf8 cs ↔ ∃ c ∈ cs, c.toNat = b.toNat := by
  simp only [utf8, List.mem_flatMap, mem_utf8EncodeChar_iff hb]

theorem length_utf8EncodeChar_pos (c : Char) : 0 < (String.utf8EncodeChar c).length := by
  rw [String.length_utf8EncodeChar]
  exact c.utf8Size_pos

theorem length_utf8EncodeChar_eq_one_iff {c : Char} :
    (String.utf8EncodeChar c).length = 1 ↔ c.toNat < 128 := by
  rcases utf8EncodeChar_cases c with ⟨hc, henc⟩ | ⟨hc, hmulti⟩
  · exact iff_of_true (by rw [henc]; rfl) hc
  · have := hmulti.several
    omega

theorem length_le_length_utf8 (cs : List Char) : cs.length ≤ (utf8 cs).length := by
  induction cs with
  | nil => exact Nat.le_refl _
  | cons c cs ih =>
      have := length_utf8EncodeChar_pos c
      rw [utf8_cons, List.length_append, List.length_cons]
      omega

theorem length_utf8_eq_iff {cs : List Char} : (utf8 cs).length = cs.length ↔ ∀ c ∈ cs, c.toNat < 128 := by
  induction cs with
  | nil => exact iff_of_true rfl nofun
  | cons c cs ih =>
      have hpos := length_utf8EncodeChar_pos c
      have hle := length_le_length_utf8 cs
      rw [List.forall_mem_cons, ← ih, ← length_utf8EncodeChar_eq_one_iff, utf8_cons, List.length_append,
        List.length_cons]
      omega

end Encoded

end MarkupFormat.Bytes
