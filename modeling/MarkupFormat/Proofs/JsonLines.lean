import MarkupFormat.Proofs.Filters
import MarkupFormat.Proofs.JsonText
import MarkupFormat.Proofs.Separators

namespace MarkupFormat

namespace Bytes

theorem digit_toUInt8 {c : Char} (h : c.isDigit = true) :
    c.toUInt8.toNat = c.toNat ∧ Byte.isDigit c.toUInt8 = true := by
  obtain ⟨hlow, hhigh⟩ : 48 ≤ c.toNat ∧ c.toNat ≤ 57 := by
    simpa [Char.isDigit, UInt32.le_iff_toNat_le] using h
  have hnat : c.toUInt8.toNat = c.toNat :=
    (UInt32.toNat_toUInt8 c.val).trans (Nat.mod_eq_of_lt (Nat.lt_of_le_of_lt hhigh (by decide)))
  refine ⟨hnat, ?_⟩
  simp [Byte.isDigit, UInt8.le_iff_toNat_le, hnat, hlow, hhigh]

theorem isDigit_of_mem_decimal {n : Nat} {b : UInt8} (h : b ∈ decimal n) : Byte.isDigit b = true := by
  obtain ⟨c, hc, rfl⟩ := List.mem_map.1 h
  exact (digit_toUInt8 (Nat.isDigit_of_mem_toDigits (by decide) (by decide) hc)).2

def digitsValue (t : Bytes) : Nat :=
  t.foldl (fun n c => 10 * n + (c.toNat - 48)) 0

theorem foldl_digits {cs : List Char} (h : ∀ c ∈ cs, c.isDigit = true) : ∀ m,
    (cs.map Char.toUInt8).foldl (fun n c => 10 * n + (c.toNat - 48)) m = Nat.ofDigitChars 10 cs m := by
  induction cs with
  | nil => exact fun _ => rfl
  | cons c cs ih =>
      intro m
      rw [List.forall_mem_cons] at h
      rw [List.map_cons, List.foldl_cons, ih h.2, Nat.ofDigitChars_cons, (digit_toUInt8 h.1).1]
      rfl

theorem digitsValue_decimal (n : Nat) : digitsValue (decimal n) = n := by
  have hdigits : ∀ c ∈ Nat.toDigits 10 n, c.isDigit = true := fun c hc =>
    Nat.isDigit_of_mem_toDigits (by decide) (by decide) hc
  rw [digitsValue, decimal, foldl_digits hdigits, Nat.ofDigitChars_ten_toDigits]

theorem decimal_inj {m n : Nat} (h : decimal m = decimal n) : m = n := by
  have hvalue := congrArg digitsValue h
  rwa [digitsValue_decimal, digitsValue_decimal] at hvalue

theorem dash_not_mem_decimal (n : Nat) : Byte.dash ∉ decimal n := fun h =>
  absurd (isDigit_of_mem_decimal h) (by decide)

theorem decimalInt_inj {i j : Int} (h : decimalInt i = decimalInt j) : i = j := by
  cases i with
  | ofNat m =>
      cases j with
      | ofNat n => rw [decimal_inj h]
      | negSucc n =>
          have hdash : Byte.dash ∈ decimalInt (.ofNat m) := by
            rw [h]
            exact List.mem_cons_self
          exact absurd hdash (dash_not_mem_decimal m)
  | negSucc m =>
      cases j with
      | ofNat n =>
          have hdash : Byte.dash ∈ decimalInt (.ofNat n) := by
            rw [← h]
            exact List.mem_cons_self
          exact absurd hdash (dash_not_mem_decimal n)
      | negSucc n => rw [Nat.succ.inj (decimal_inj (List.cons.inj h).2)]

theorem mem_decimalInt {i : Int} {b : UInt8} (h : b ∈ decimalInt i) :
    b = Byte.dash ∨ Byte.isDigit b = true := by
  cases i with
  | ofNat n => exact .inr (isDigit_of_mem_decimal h)
  | negSucc n => exact (List.mem_cons.1 h).imp id isDigit_of_mem_decimal

end Bytes

namespace Log

open Bytes

theorem selfDelimiting_escapeByte : SelfDelimiting escapeByte := by
  intro c d x y h
  obtain ⟨hcd, hxy⟩ := (jsonUnit_escapeByte c).eq_of_append_eq h
  exact ⟨(List.cons.inj hcd).1, hxy⟩

theorem quote_ne_escapeByte (x : Bytes) (c : UInt8) (z : Bytes) : Byte.quote :: x ≠ escapeByte c ++ z := by
  rcases escapeByte_cases c with ⟨h, hquote, -⟩ | ⟨d, h, -⟩
  · rw [h]
    exact fun heq => hquote (List.cons.inj heq).1.symm
  · rw [h]
    exact fun heq => absurd (List.cons.inj heq).1 (by decide)

theorem escape_quote_inj {t u x y : Bytes} (h : escape t ++ Byte.quote :: x = escape u ++ Byte.quote :: y) :
    t = u ∧ x = y := by
  obtain ⟨htu, hxy⟩ :=
    selfDelimiting_escapeByte.flatMap_inj (quote_ne_escapeByte x) (quote_ne_escapeByte y) t u h
  exact ⟨htu, (List.cons.inj hxy).2⟩

theorem lf_not_mem_escape (t : Bytes) : Byte.lf ∉ escape t := by
  have hall : ∀ c, Byte.lf ∉ escapeByte c := Byte.forall_iff.2 (by decide +kernel)
  intro h
  obtain ⟨c, -, hc⟩ := List.mem_flatMap.1 h
  exact hall c hc

theorem Level.name_inj {k l : Level} (h : k.name = l.name) : k = l := by
  have hall : ∀ k ∈ all, ∀ l ∈ all, k.name = l.name → k = l := by decide
  exact hall k (mem_all k) l (mem_all l) h

namespace Record

theorem json_eq (r : Record) :
    r.json = Byte.openBrace :: ascii "\"ts\":" ++ (decimalInt r.time ++ Byte.comma ::
      (ascii "\"level\":\"" ++ (r.entry.level.name ++ Byte.quote ::
        (ascii ",\"module\":\"" ++ (escape r.entry.topic ++ Byte.quote ::
          (ascii ",\"msg\":\"" ++ (escape r.entry.message ++ Byte.quote :: [Byte.closeBrace]))))))) := by
  have hpunctuation : Byte.quote = '"'.toUInt8 ∧ Byte.comma = ','.toUInt8 := by decide
  simp [json, jsonField, jsonString, List.intercalate, ascii, hpunctuation]

theorem lf_not_mem_json (r : Record) : Byte.lf ∉ r.json := by
  have htime : Byte.lf ∉ decimalInt r.time := fun h => absurd (mem_decimalInt h) (by decide)
  have hlevel : Byte.lf ∉ r.entry.level.name := by cases r.entry.level <;> decide
  have hmarks : Byte.lf ≠ Byte.openBrace ∧ Byte.lf ≠ Byte.comma ∧ Byte.lf ≠ Byte.quote ∧
      Byte.lf ≠ Byte.closeBrace := by decide
  have hkeys : Byte.lf ∉ ascii "\"ts\":" ∧ Byte.lf ∉ ascii "\"level\":\"" ∧
      Byte.lf ∉ ascii ",\"module\":\"" ∧ Byte.lf ∉ ascii ",\"msg\":\"" := by decide
  rw [json_eq]
  simp [htime, hlevel, hmarks, hkeys, lf_not_mem_escape]

theorem json_inj {r q : Record} (h : r.json = q.json) : r = q := by
  have hcomma : ∀ i, Byte.comma ∉ decimalInt i := fun i hi => absurd (mem_decimalInt hi) (by decide)
  have hquote : ∀ l : Level, Byte.quote ∉ l.name := fun l => by cases l <;> decide
  rw [json_eq, json_eq] at h
  obtain ⟨htime, h⟩ := append_separator_inj (hcomma _) (hcomma _) (List.append_cancel_left h)
  obtain ⟨hlevel, h⟩ := append_separator_inj (hquote _) (hquote _) (List.append_cancel_left h)
  obtain ⟨htopic, h⟩ := escape_quote_inj (List.append_cancel_left h)
  obtain ⟨hmessage, -⟩ := escape_quote_inj (List.append_cancel_left h)
  obtain ⟨⟨k, t, m⟩, i⟩ := r
  obtain ⟨⟨l, u, n⟩, j⟩ := q
  simp only at htime hlevel htopic hmessage
  rw [decimalInt_inj htime, Level.name_inj hlevel, htopic, hmessage]

theorem selfDelimiting_line : SelfDelimiting fun r : Record => r.json ++ [Byte.lf] := by
  intro r q x y h
  rw [List.append_assoc, List.append_assoc] at h
  obtain ⟨hjson, hxy⟩ := append_separator_inj r.lf_not_mem_json q.lf_not_mem_json h
  exact ⟨json_inj hjson, hxy⟩

end Record

-- The object of a record has no line feed in it, so that it is one line, and lines of objects that
-- make up the same text are the lines of the same records.
theorem lines_eq_iff (rs qs : List Record) :
    (∀ r : Record, Byte.lf ∉ r.json) ∧
      ((rs.flatMap fun r => r.json ++ [Byte.lf]) = (qs.flatMap fun q => q.json ++ [Byte.lf]) ↔ rs = qs) := by
  refine ⟨Record.lf_not_mem_json, fun h => ?_, congrArg _⟩
  have hnil : ∀ (r : Record) (z : Bytes), [] ≠ r.json ++ [Byte.lf] ++ z := by simp
  refine (Record.selfDelimiting_line.flatMap_inj (x := []) (y := []) hnil hnil rs qs ?_).1
  rw [h]

end Log

end MarkupFormat
