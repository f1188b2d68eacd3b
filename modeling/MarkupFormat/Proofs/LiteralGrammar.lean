import MarkupFormat.Document.Snippet
import MarkupFormat.Proofs.Values

namespace MarkupFormat.Literal

open Bytes Document Layout

inductive Units (taken : UInt8 → Prop) : Bytes → Prop
  | nil : Units taken []
  | escape {c : UInt8} {t : Bytes} : taken c → Units taken t → Units taken (Byte.backslash :: c :: t)
  | plain {c : UInt8} {t : Bytes} : c ≠ Byte.quote → c ≠ Byte.backslash → c ≠ Byte.lf →
      (c = Byte.hash → t.head? ≠ some Byte.openBrace) → Units taken t → Units taken (c :: t)

inductive IsLiteral (taken : UInt8 → Prop) : LiteralKind → Bytes → Prop
  | yes : IsLiteral taken .boolean (ascii "true")
  | no : IsLiteral taken .boolean (ascii "false")
  | integer {c : UInt8} {t : Bytes} : Byte.isDigit c = true →
      (∀ d ∈ t, Byte.isDigit d = true ∨ d = Byte.underscore) →
      (c :: t).getLast? ≠ some Byte.underscore → IsLiteral taken .integer (c :: t)
  | string {body : Bytes} : Units taken body →
      IsLiteral taken .string (Byte.quote :: (body ++ [Byte.quote]))

def Anything : UInt8 → Prop :=
  fun _ => True

def InLine : UInt8 → Prop :=
  (· ≠ Byte.lf)

section Units

variable {taken : UInt8 → Prop} {t : Bytes}

theorem Units.mono {taken' : UInt8 → Prop} (h : Units taken t) (hsub : ∀ c, taken c → taken' c) :
    Units taken' t := by
  induction h with
  | nil => exact .nil
  | escape hc _ ih => exact .escape (hsub _ hc) ih
  | plain hq hb hlf hh _ ih => exact .plain hq hb hlf hh ih

theorem units_of_isStringBody (h : isStringBody t = true) : Units Anything t := by
  fun_induction isStringBody t with
  | case1 => exact .nil
  | case2 c =>
      simp only [Bool.and_eq_true, decide_eq_true_eq] at h
      exact .plain h.1.2 h.1.1 h.2 (fun _ => by simp) .nil
  | case3 d t ih => exact .escape trivial (ih h)
  | case4 c d t hc ih =>
      simp only [Bool.and_eq_true, Bool.not_eq_true', Bool.and_eq_false_iff, decide_eq_true_eq,
        decide_eq_false_iff_not] at h
      obtain ⟨⟨⟨hq, hlf⟩, hhash⟩, hbody⟩ := h
      refine .plain hq hc hlf (fun hc hd => ?_) (ih hbody)
      exact hhash.elim (fun hne => hne hc) fun hne => hne (Option.some.inj hd)

theorem isStringBody_of_units (h : Units taken t) : isStringBody t = true := by
  induction h with
  | nil => rfl
  | escape _ _ ih => simpa [isStringBody] using ih
  | @plain c t hq hb hlf hh _ ih =>
      cases t with
      | nil => simp [isStringBody, hq, hb, hlf]
      | cons d t =>
          have hbrace : ¬c = Byte.hash ∨ ¬d = Byte.openBrace :=
            Decidable.not_and_iff_not_or_not.1 fun h => hh h.1 (congrArg some h.2)
          simp [isStringBody, hq, hb, hlf, ih, hbrace]

theorem units_iff : Units Anything t ↔ isStringBody t = true :=
  ⟨isStringBody_of_units, units_of_isStringBody⟩

theorem units_inLine_iff : Units InLine t ↔ Units Anything t ∧ Byte.lf ∉ t := by
  constructor
  · intro h
    refine ⟨h.mono fun _ _ => trivial, ?_⟩
    have hbackslash : Byte.lf ≠ Byte.backslash := by decide
    induction h with
    | nil => exact List.not_mem_nil
    | escape hc _ ih => simp [hbackslash, Ne.symm hc, ih]
    | plain _ _ hlf _ _ ih => simp [Ne.symm hlf, ih]
  · rintro ⟨h, hlf⟩
    induction h with
    | nil => exact .nil
    | escape _ _ ih =>
        simp only [List.mem_cons, not_or] at hlf
        exact .escape (Ne.symm hlf.2.1) (ih hlf.2.2)
    | plain hq hb hc hh _ ih => exact .plain hq hb hc hh (ih fun h => hlf (List.mem_cons_of_mem _ h))

end Units

section Kinds

variable {t : Bytes}

theorem isBoolean_iff : isBoolean t = true ↔ IsLiteral Anything .boolean t := by
  simp only [isBoolean, Bool.or_eq_true, decide_eq_true_eq]
  constructor
  · rintro (rfl | rfl)
    · exact .yes
    · exact .no
  · intro h
    cases h with
    | yes => exact .inl rfl
    | no => exact .inr rfl

theorem isInteger_iff : isInteger t = true ↔ IsLiteral Anything .integer t := by
  constructor
  · intro h
    cases t with
    | nil => cases h
    | cons c t =>
        simp only [isInteger, Bool.and_eq_true, List.all_eq_true, decide_eq_true_eq] at h
        obtain ⟨⟨hc, ht⟩, hlast⟩ := h
        exact .integer hc (fun d hd => by simpa [isDigitOrUnderscore] using ht d hd) hlast
  · intro h
    cases h with
    | integer hc ht hlast => simpa [isInteger, isDigitOrUnderscore, hc, hlast] using ht

theorem isString_iff : isString t = true ↔ IsLiteral Anything .string t := by
  constructor
  · intro h
    cases t with
    | nil => cases h
    | cons c t =>
        simp only [isString, Bool.and_eq_true, decide_eq_true_eq] at h
        obtain ⟨⟨rfl, hlast⟩, hbody⟩ := h
        obtain ⟨body, rfl⟩ := List.getLast?_eq_some_iff.1 hlast
        rw [List.dropLast_concat] at hbody
        exact .string (units_iff.2 hbody)
  · intro h
    cases h with
    | string hbody => simp [isString, units_iff.1 hbody]

def kindOfHead (c : UInt8) : LiteralKind :=
  if Byte.isDigit c then .integer else if c = Byte.quote then .string else .boolean

theorem IsLiteral.head {taken : UInt8 → Prop} {k : LiteralKind} (h : IsLiteral taken k t) :
    t.head?.map kindOfHead = some k := by
  cases h with
  | yes => rfl
  | no => rfl
  | integer hc => simp [kindOfHead, hc]
  | string => rfl

theorem IsLiteral.kind_unique {taken : UInt8 → Prop} {k k' : LiteralKind} (h : IsLiteral taken k t)
    (h' : IsLiteral taken k' t) : k = k' :=
  Option.some.inj (h.head.symm.trans h'.head)

theorem kind?_eq_some_iff {k : LiteralKind} : kind? t = some k ↔ IsLiteral Anything k t := by
  constructor
  · intro h
    rcases kind?_cases t with ⟨hk, hb⟩ | ⟨hk, hi⟩ | ⟨hk, hs⟩ | hk <;> rw [hk] at h <;> cases h
    · exact isBoolean_iff.1 hb
    · exact isInteger_iff.1 hi
    · exact isString_iff.1 hs
  · intro h
    have hboolean : k ≠ .boolean → isBoolean t = false := fun hk =>
      Bool.eq_false_iff.2 fun hb => hk (h.kind_unique (isBoolean_iff.1 hb))
    have hinteger : k ≠ .integer → isInteger t = false := fun hk =>
      Bool.eq_false_iff.2 fun hi => hk (h.kind_unique (isInteger_iff.1 hi))
    cases k with
    | boolean => simp [kind?, isBoolean_iff.2 h]
    | integer => simp [kind?, hboolean, isInteger_iff.2 h]
    | string => simp [kind?, hboolean, hinteger, isString_iff.2 h]

theorem IsLiteral.string_of_lf {taken : UInt8 → Prop} {k : LiteralKind} (h : IsLiteral taken k t)
    (hlf : Byte.lf ∈ t) : k = .string := by
  cases h with
  | yes => exact absurd hlf (by decide)
  | no => exact absurd hlf (by decide)
  | integer hc ht hlast =>
      have hword := isWord_of_isInteger (isInteger_iff.2 (.integer hc ht hlast))
      exact absurd hlf (flat_iff.1 hword.flat).1
  | string => rfl

theorem isLiteral_inLine_iff {k : LiteralKind} :
    IsLiteral InLine k t ↔ IsLiteral Anything k t ∧ Byte.lf ∉ t := by
  have hquote : Byte.lf ≠ Byte.quote := by decide
  constructor
  · intro h
    cases h with
    | yes => exact ⟨.yes, by decide⟩
    | no => exact ⟨.no, by decide⟩
    | integer hc ht hlast =>
        have hdigits : IsLiteral Anything .integer _ := .integer hc ht hlast
        exact ⟨hdigits, fun hlf => nomatch hdigits.string_of_lf hlf⟩
    | string hbody =>
        obtain ⟨hunits, hlf⟩ := units_inLine_iff.1 hbody
        exact ⟨.string hunits, by simp [hquote, hlf]⟩
  · rintro ⟨h, hlf⟩
    cases h with
    | yes => exact .yes
    | no => exact .no
    | integer hc ht hlast => exact .integer hc ht hlast
    | string hbody =>
        simp only [List.mem_cons, List.mem_append, not_or] at hlf
        exact .string (units_inLine_iff.2 ⟨hbody, hlf.2.1⟩)

end Kinds

theorem multiline_expressionText (name t : Bytes) :
    (expressionText name t).multiline = true ↔ kind? t = none ∧ Byte.lf ∈ t := by
  unfold expressionText
  cases hk : kind? t with
  | some k => cases k <;> simp
  | none =>
      by_cases hnil : t = []
      · simp [hnil]
      · by_cases hlf : Byte.lf ∈ t <;> simp [hnil, hlf]

theorem multiline_attributeText {ctx : Context} {a : Attribute Location} (ha : isFormatted a.kind = true) :
    (attributeText ctx a).multiline = true ↔
      kind? (ctx.shown a.value) = none ∧ Byte.lf ∈ ctx.shown a.value := by
  rcases attributeText_cases ctx a with ⟨hk, -⟩ | ⟨-, htext⟩
  · rw [ha] at hk
    cases hk
  · rw [htext, multiline_expressionText]

-- A text is told to be a literal of a kind if and only if it is one where a backslash may take any
-- byte. Where it may take no line feed, the verdict is the same unless the text is a string with a
-- line feed, and of all texts with a line feed only such a string is not shown in several lines.
theorem kind?_iff_isLiteral (t : Bytes) :
    (∀ k, kind? t = some k ↔ IsLiteral Anything k t) ∧
      ((∀ k, kind? t = some k ↔ IsLiteral InLine k t) ↔ ¬(kind? t = some .string ∧ Byte.lf ∈ t)) ∧
      ∀ (ctx : Context) (a : Attribute Location), isFormatted a.kind = true → ctx.shown a.value = t →
        ((attributeText ctx a).multiline = true ↔ Byte.lf ∈ t ∧ kind? t ≠ some .string) := by
  have hstring : ∀ {k}, kind? t = some k → Byte.lf ∈ t → k = .string := fun hk hlf =>
    (kind?_eq_some_iff.1 hk).string_of_lf hlf
  refine ⟨fun k => kind?_eq_some_iff, ⟨?_, fun hone k => ?_⟩, ?_⟩
  · rintro h ⟨hk, hlf⟩
    exact (isLiteral_inLine_iff.1 ((h .string).1 hk)).2 hlf
  · rw [isLiteral_inLine_iff, ← kind?_eq_some_iff, iff_self_and]
    intro hk hlf
    exact hone ⟨hstring hk hlf ▸ hk, hlf⟩
  · rintro ctx a ha rfl
    rw [multiline_attributeText ha, and_comm, and_congr_right_iff]
    intro hlf
    cases hk : kind? (ctx.shown a.value) with
    | none => simp
    | some k => simp [hstring hk hlf]

theorem kind?_list_of_lines :
    isFormatted .expression = true ∧
      (attributeText ⟨.default, id⟩ ⟨ascii "of", .expression, ascii "[1,\n 2]", .start⟩).multiline = true := by
  have hlist := (kind?_iff_isLiteral (ascii "[1,\n 2]")).2.2 ⟨.default, id⟩
    ⟨ascii "of", .expression, ascii "[1,\n 2]", .start⟩ rfl rfl
  exact ⟨rfl, hlist.2 ⟨by decide, by decide⟩⟩

def continued : Bytes :=
  [Byte.quote, Byte.backslash, Byte.lf, Byte.quote]

theorem kind?_continued :
    (∀ k, ¬IsLiteral InLine k continued) ∧ kind? continued = some .string ∧ Byte.lf ∈ continued ∧
      (attributeText ⟨.default, id⟩ ⟨ascii "of", .expression, continued, .start⟩).multiline = false := by
  refine ⟨fun k h => ?_, by decide, by decide, by decide⟩
  exact (isLiteral_inLine_iff.1 h).2 (by decide)

end MarkupFormat.Literal
