namespace MarkupFormat

-- Texts need not be valid UTF-8: offsets, columns, spans and lengths count bytes.
abbrev Bytes := List UInt8

namespace Byte

abbrev tab : UInt8 := 9
abbrev lf : UInt8 := 10
abbrev cr : UInt8 := 13
abbrev space : UInt8 := 32
abbrev quote : UInt8 := 34
abbrev hash : UInt8 := 35
abbrev comma : UInt8 := 44
abbrev dash : UInt8 := 45
abbrev slash : UInt8 := 47
abbrev less : UInt8 := 60
abbrev equals : UInt8 := 61
abbrev greater : UInt8 := 62
abbrev backslash : UInt8 := 92
abbrev underscore : UInt8 := 95
abbrev openBrace : UInt8 := 123
abbrev closeBrace : UInt8 := 125

def isDigit (c : UInt8) : Bool :=
  48 ≤ c && c ≤ 57

def toLower (c : UInt8) : UInt8 :=
  if 65 ≤ c && c ≤ 90 then c + 32 else c

theorem forall_iff {P : UInt8 → Prop} : (∀ c, P c) ↔ ∀ n : Fin 256, P (UInt8.ofFin n) :=
  ⟨fun h n => h (UInt8.ofFin n), fun h c => h c.toFin⟩

end Byte

namespace Bytes

def ascii (s : String) : Bytes :=
  s.toList.map Char.toUInt8

def decimal (n : Nat) : Bytes :=
  (Nat.toDigits 10 n).map Char.toUInt8

def decimalInt : Int → Bytes
  | .ofNat n => decimal n
  | .negSucc n => Byte.dash :: decimal (n + 1)

def spaces (n : Nat) : Bytes :=
  List.replicate n Byte.space

def startsWith (p s : Bytes) : Bool :=
  p.isPrefixOf s

theorem startsWith_iff {p s : Bytes} : startsWith p s = true ↔ ∃ r, s = p ++ r := by
  simp only [startsWith, List.isPrefixOf_iff_prefix]
  exact ⟨fun ⟨r, h⟩ => ⟨r, h.symm⟩, fun ⟨r, h⟩ => ⟨r, h.symm⟩⟩

def cutAt (stop : Bytes → Bool) : Bytes → Bytes × Bytes
  | [] => ([], [])
  | c :: s =>
      if stop (c :: s) then ([], c :: s)
      else (c :: (cutAt stop s).1, (cutAt stop s).2)

theorem cutAt_append (stop : Bytes → Bool) (s : Bytes) :
    (cutAt stop s).1 ++ (cutAt stop s).2 = s := by
  induction s with
  | nil => rfl
  | cons c s ih =>
      simp only [cutAt]
      split
      · rfl
      · simp [ih]

theorem cutAt_length_le (stop : Bytes → Bool) (s : Bytes) :
    (cutAt stop s).2.length ≤ s.length := by
  have h := congrArg List.length (cutAt_append stop s)
  simp only [List.length_append] at h
  omega

theorem cutAt_stop (stop : Bytes → Bool) (s : Bytes) (h : (cutAt stop s).2 ≠ []) :
    stop (cutAt stop s).2 = true := by
  induction s with
  | nil => exact absurd rfl h
  | cons c s ih =>
      simp only [cutAt] at h ⊢
      split
      · assumption
      · next hc => rw [if_neg hc] at h; exact ih h

def startsCharacter (c : UInt8) : Bool :=
  c &&& 0xC0 != 0x80

def displayWidth (t : Bytes) : Nat :=
  t.countP startsCharacter

theorem displayWidth_append (a b : Bytes) :
    displayWidth (a ++ b) = displayWidth a + displayWidth b := by
  simp [displayWidth]

end Bytes

end MarkupFormat
