import MarkupFormat.Log.Record

namespace MarkupFormat.Log

open Bytes

def shortEscape? (c : UInt8) : Option UInt8 :=
  if c = Byte.quote || c = Byte.backslash || c = Byte.slash then some c
  else if c = 98 then some 8
  else if c = 102 then some 12
  else if c = 110 then some Byte.lf
  else if c = 114 then some Byte.cr
  else if c = 116 then some Byte.tab
  else none

def hexValue? (c : UInt8) : Option Nat :=
  if Byte.isDigit c then some (c.toNat - 48)
  else if 97 ≤ Byte.toLower c && Byte.toLower c ≤ 102 then some ((Byte.toLower c).toNat - 87)
  else none

def codeUnit? (digits : Bytes) : Option Nat :=
  if digits.length = 4 then
    (digits.mapM hexValue?).map fun values => values.foldl (fun n v => 16 * n + v) 0
  else none

def unicodeEscape (digits : Bytes) : Bytes :=
  Byte.backslash :: 117 :: digits

inductive JsonUnit : Bytes → Bytes → Prop
  | plain {c : UInt8} : c ≠ Byte.quote → c ≠ Byte.backslash → JsonUnit [c] [c]
  | short {c d : UInt8} : shortEscape? c = some d → JsonUnit [Byte.backslash, c] [d]
  | unicode {digits : Bytes} {c : Char} :
      codeUnit? digits = some c.toNat → JsonUnit (unicodeEscape digits) (String.utf8EncodeChar c)
  | surrogates {first second : Bytes} {high low : Nat} {c : Char} :
      codeUnit? first = some (0xD800 + high) → codeUnit? second = some (0xDC00 + low) →
      high < 0x400 → low < 0x400 → c.toNat = 0x10000 + 0x400 * high + low →
      JsonUnit (unicodeEscape first ++ unicodeEscape second) (String.utf8EncodeChar c)

inductive Spells : Bytes → Bytes → Prop
  | nil : Spells [] []
  | cons {unit value body text : Bytes} :
      JsonUnit unit value → Spells body text → Spells (unit ++ body) (value ++ text)

theorem JsonUnit.ne_nil {unit value : Bytes} (h : JsonUnit unit value) : unit ≠ [] := by
  cases h <;> simp [unicodeEscape]

theorem spells_nil {u : Bytes} (h : Spells [] u) : u = [] := by
  generalize hbody : ([] : Bytes) = body at h
  cases h with
  | nil => rfl
  | cons hunit _ => exact absurd (List.append_eq_nil_iff.1 hbody.symm).1 hunit.ne_nil

theorem escapeByte_cases (c : UInt8) :
    (escapeByte c = [c] ∧ c ≠ Byte.quote ∧ c ≠ Byte.backslash) ∨
      ∃ d, escapeByte c = [Byte.backslash, d] ∧ shortEscape? d = some c := by
  by_cases hquote : c = Byte.quote
  · subst hquote
    exact .inr ⟨_, rfl, rfl⟩
  by_cases hbackslash : c = Byte.backslash
  · subst hbackslash
    exact .inr ⟨_, rfl, rfl⟩
  by_cases hlf : c = Byte.lf
  · subst hlf
    exact .inr ⟨_, rfl, rfl⟩
  by_cases hcr : c = Byte.cr
  · subst hcr
    exact .inr ⟨_, rfl, rfl⟩
  by_cases htab : c = Byte.tab
  · subst htab
    exact .inr ⟨_, rfl, rfl⟩
  · exact .inl ⟨by simp [escapeByte, hquote, hbackslash, hlf, hcr, htab], hquote, hbackslash⟩

theorem jsonUnit_escapeByte (c : UInt8) : JsonUnit (escapeByte c) [c] := by
  rcases escapeByte_cases c with ⟨h, hquote, hbackslash⟩ | ⟨d, h, hd⟩
  · rw [h]
    exact .plain hquote hbackslash
  · rw [h]
    exact .short hd

theorem JsonUnit.shape {unit value : Bytes} (h : JsonUnit unit value) :
    (∃ c, unit = [c] ∧ value = [c] ∧ c ≠ Byte.backslash) ∨
      (∃ c d, unit = [Byte.backslash, c] ∧ value = [d] ∧ shortEscape? c = some d) ∨
      ∃ rest, unit = Byte.backslash :: 117 :: rest := by
  cases h with
  | plain _ hbackslash => exact .inl ⟨_, rfl, rfl, hbackslash⟩
  | short hd => exact .inr (.inl ⟨_, _, rfl, rfl, hd⟩)
  | unicode _ => exact .inr (.inr ⟨_, rfl⟩)
  | surrogates _ _ _ _ _ => exact .inr (.inr ⟨_, rfl⟩)

theorem JsonUnit.eq_of_append_eq {unit value body rest : Bytes} {c : UInt8} (h : JsonUnit unit value)
    (heq : unit ++ body = escapeByte c ++ rest) : value = [c] ∧ body = rest := by
  rcases escapeByte_cases c with ⟨hc, -, hbackslash⟩ | ⟨d, hc, hd⟩
  · rw [hc] at heq
    rcases h.shape with ⟨e, rfl, rfl, -⟩ | ⟨e, v, rfl, -, -⟩ | ⟨u, rfl⟩
    · simpa using heq
    · exact absurd (List.cons.inj heq).1.symm hbackslash
    · exact absurd (List.cons.inj heq).1.symm hbackslash
  · rw [hc] at heq
    rcases h.shape with ⟨e, rfl, -, he⟩ | ⟨e, v, rfl, rfl, hv⟩ | ⟨u, rfl⟩
    · exact absurd (List.cons.inj heq).1 he
    · obtain ⟨rfl, hbody⟩ := List.cons.inj (List.cons.inj heq).2
      rw [Option.some.inj (hv.symm.trans hd)]
      exact ⟨rfl, hbody⟩
    · have hd' : (117 : UInt8) = d := (List.cons.inj (List.cons.inj heq).2).1
      rw [← hd'] at hd
      cases hd

theorem escape_cons (c : UInt8) (t : Bytes) : escape (c :: t) = escapeByte c ++ escape t :=
  List.flatMap_cons

theorem spells_escape (t : Bytes) : Spells (escape t) t := by
  induction t with
  | nil => exact .nil
  | cons c t ih =>
      rw [escape_cons]
      exact .cons (jsonUnit_escapeByte c) ih

theorem eq_of_spells_escape {t : Bytes} : ∀ {u}, Spells (escape t) u → u = t := by
  induction t with
  | nil => exact fun h => spells_nil h
  | cons c t ih =>
      intro u h
      rw [escape_cons] at h
      generalize hbody : escapeByte c ++ escape t = body at h
      cases h with
      | nil => exact absurd (List.append_eq_nil_iff.1 hbody).1 (jsonUnit_escapeByte c).ne_nil
      | cons hunit hrest =>
          obtain ⟨rfl, rfl⟩ := hunit.eq_of_append_eq hbody.symm
          rw [ih hrest]
          rfl

theorem escapeByte_printable {c : UInt8} :
    (∀ d ∈ escapeByte c, 32 ≤ d) ↔ 32 ≤ c ∨ c = Byte.tab ∨ c = Byte.lf ∨ c = Byte.cr := by
  have hall : ∀ c, (∀ d ∈ escapeByte c, 32 ≤ d) ↔ 32 ≤ c ∨ c = Byte.tab ∨ c = Byte.lf ∨ c = Byte.cr :=
    Byte.forall_iff.2 (by decide +kernel)
  exact hall c

-- An escaped text is read as the text, whatever its bytes are, and cannot be read as any other. No
-- control character is left in it exactly if the text has none but tabs and line ends.
theorem escape_spells_iff (t : Bytes) :
    (∀ u, Spells (escape t) u ↔ u = t) ∧
      ((∀ c ∈ escape t, 32 ≤ c) ↔ ∀ c ∈ t, 32 ≤ c ∨ c = Byte.tab ∨ c = Byte.lf ∨ c = Byte.cr) := by
  constructor
  · intro u
    refine ⟨eq_of_spells_escape, ?_⟩
    rintro rfl
    exact spells_escape u
  · simp only [escape, List.forall_mem_flatMap, escapeByte_printable]

theorem escape_leaves_control : escape [1] = [1] ∧ ¬∀ c ∈ escape [1], 32 ≤ c := by
  decide

end MarkupFormat.Log
