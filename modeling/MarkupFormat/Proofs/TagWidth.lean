import Mathlib.Algebra.Ring.Nat
import Mathlib.Data.Set.List
import MarkupFormat.Proofs.Characters
import MarkupFormat.Proofs.LineLength

namespace MarkupFormat

open Bytes Document Layout

namespace Bytes

def IsUtf8 (t : Bytes) : Prop :=
  ∃ cs, utf8 cs = t

theorem utf8_cons_ascii {c : Char} (hc : c.toNat < 128) (cs : List Char) :
    utf8 (c :: cs) = UInt8.ofNat c.toNat :: utf8 cs := by
  rcases utf8EncodeChar_cases c with ⟨-, henc⟩ | ⟨hle, -⟩
  · rw [utf8_cons, henc, List.singleton_append]
  · exact absurd hc (Nat.not_lt.2 hle)

theorem utf8_spaces (n : Nat) : utf8 (List.replicate n ' ') = spaces n := by
  induction n with
  | zero => rfl
  | succ n ih =>
      rw [List.replicate_succ, utf8_cons_ascii (by decide), ih]
      rfl

theorem displayWidth_flatten (ts : List Bytes) :
    displayWidth ts.flatten = (ts.map displayWidth).sum :=
  List.countP_flatten

theorem displayWidth_flatten_utf8 (parts : List (List Char)) :
    displayWidth (parts.map utf8).flatten = (parts.map List.length).sum := by
  rw [displayWidth_flatten, List.map_map]
  exact congrArg List.sum (List.map_congr_left fun cs _ => displayWidth_utf8 cs)

section Valid

variable {a b name t : Bytes}

theorem IsUtf8.append (ha : IsUtf8 a) (hb : IsUtf8 b) : IsUtf8 (a ++ b) := by
  obtain ⟨cs, rfl⟩ := ha
  obtain ⟨ds, rfl⟩ := hb
  exact ⟨cs ++ ds, utf8_append cs ds⟩

theorem IsUtf8.spaced (ht : IsUtf8 t) : IsUtf8 (Byte.space :: t) := by
  obtain ⟨cs, rfl⟩ := ht
  exact ⟨' ' :: cs, utf8_cons_ascii (by decide) cs⟩

theorem isUtf8_openDelimiter : IsUtf8 openDelimiter :=
  ⟨['{', '{'], by decide⟩

theorem isUtf8_closeDelimiter : IsUtf8 closeDelimiter :=
  ⟨['}', '}'], by decide⟩

theorem isUtf8_assigned (hn : IsUtf8 name) (ht : IsUtf8 t) : IsUtf8 (assigned name t) := by
  obtain ⟨cs, rfl⟩ := ht
  exact hn.append ⟨'=' :: cs, utf8_cons_ascii (by decide) cs⟩

theorem isUtf8_booleanText (hn : IsUtf8 name) (ht : IsUtf8 t) : IsUtf8 (booleanText name t) := by
  unfold booleanText
  split
  · exact hn
  · exact isUtf8_assigned hn ht

theorem isUtf8_expressionText (hn : IsUtf8 name) (ht : IsUtf8 t) :
    IsUtf8 (expressionText name t).text := by
  rcases expressionText_cases name t with
    ⟨-, htext | htext⟩ | ⟨-, htext⟩ | ⟨-, htext⟩ | ⟨-, htext⟩ <;> rw [htext]
  · exact isUtf8_booleanText hn ht
  · exact isUtf8_assigned hn ht
  · exact isUtf8_assigned hn (isUtf8_openDelimiter.append isUtf8_closeDelimiter)
  · exact isUtf8_assigned hn ((isUtf8_openDelimiter.append ht).append isUtf8_closeDelimiter)
  · refine isUtf8_assigned hn ?_
    exact (isUtf8_openDelimiter.append ht.spaced).append isUtf8_closeDelimiter.spaced

end Valid

end Bytes

namespace Layout

structure EncodedTag (shown : Bytes → Bytes) (tag : Tag) : Prop where
  name : IsUtf8 tag.name
  names : ∀ a ∈ tag.attributes, IsUtf8 a.name
  values : ∀ a ∈ tag.attributes, isFormatted a.kind = false → IsUtf8 a.value
  shown : ∀ a ∈ tag.attributes, isFormatted a.kind = true → IsUtf8 (shown a.value)

def lineParts (ctx : Context) (depth : Nat) (tag : Tag) : List Bytes :=
  indent depth :: tagHead tag :: (attributeTexts ctx tag).map (Byte.space :: ·.text) ++ [inlineEnd tag]

section Tag

variable {ctx : Context} {tag : Tag}

theorem flatten_lineParts (ctx : Context) (depth : Nat) (tag : Tag) :
    (lineParts ctx depth tag).flatten = indent depth ++ oneLine ctx tag := by
  simp [lineParts, oneLine, List.flatMap_def]

theorem displayWidth_lineParts (ctx : Context) (depth : Nat) (tag : Tag) :
    displayWidth (indent depth) + displayWidth (oneLine ctx tag) =
      displayWidth (lineParts ctx depth tag).flatten := by
  rw [flatten_lineParts, displayWidth_append]

theorem isUtf8_attributeText (h : EncodedTag ctx.shown tag) {a : Attribute Location}
    (ha : a ∈ tag.attributes) : IsUtf8 (attributeText ctx a).text := by
  have hn := h.names a ha
  rcases attributeText_cases ctx a with ⟨hk, htext | htext⟩ | ⟨hk, htext⟩ <;> rw [htext]
  · exact isUtf8_booleanText hn (h.values a ha hk)
  · exact isUtf8_assigned hn (h.values a ha hk)
  · exact isUtf8_expressionText hn (h.shown a ha hk)

theorem isUtf8_tagHead (h : IsUtf8 tag.name) : IsUtf8 (tagHead tag) := by
  obtain ⟨cs, hname⟩ := h
  exact ⟨'<' :: cs, by rw [utf8_cons_ascii (by decide), hname]; rfl⟩

theorem isUtf8_inlineEnd (tag : Tag) : IsUtf8 (inlineEnd tag) := by
  unfold inlineEnd tagEnd
  split
  · exact ⟨[' ', '/', '>'], by decide⟩
  · exact ⟨['>'], by decide⟩

theorem isUtf8_lineParts (h : EncodedTag ctx.shown tag) (depth : Nat) :
    ∀ t ∈ lineParts ctx depth tag, IsUtf8 t := by
  rw [lineParts, List.forall_mem_append, List.forall_mem_cons, List.forall_mem_cons, List.forall_mem_map,
    attributeTexts, List.forall_mem_map, List.forall_mem_singleton]
  refine ⟨⟨⟨_, utf8_spaces _⟩, isUtf8_tagHead h.name, fun a ha => ?_⟩, isUtf8_inlineEnd tag⟩
  exact (isUtf8_attributeText h ha).spaced

theorem exists_lineParts (h : EncodedTag ctx.shown tag) (depth : Nat) :
    ∃ parts : List (List Char), parts.map utf8 = lineParts ctx depth tag := by
  have hparts : lineParts ctx depth tag ∈ Set.range (List.map utf8) := by
    rw [Set.range_list_map]
    exact isUtf8_lineParts h depth
  exact hparts

theorem openTag_eq_oneLine_iff (depth : Nat) (hne : tag.attributes ≠ [])
    (hsingle : ∀ a ∈ tag.attributes, (attributeText ctx a).multiline = false) :
    openTag ctx depth tag = oneLine ctx tag ↔ exceedsLine ctx depth tag = false := by
  have hshape := tagShape_single ctx depth hne hsingle
  cases hexceeds : exceedsLine ctx depth tag with
  | false =>
      rw [hexceeds] at hshape
      exact iff_of_true (by rw [openTag, hshape]; rfl) rfl
  | true =>
      rw [hexceeds, if_pos rfl] at hshape
      refine iff_of_false (fun heq => ?_) (by decide)
      -- a wrapped tag has more line breaks
      have hbreaks := breaks_wrapped hshape
      rw [heq, breaks_oneLine] at hbreaks
      omega

end Tag

-- A text of valid UTF-8 has as many columns as characters, and a text in parts has those of its parts.
-- So what is compared with the line length is the sum of the columns of a tag's indentation and its
-- other parts. For a tag of valid UTF-8 that is the number of their characters, and attributes that
-- take one line each are wrapped if and only if it is greater.
theorem width_counts_characters :
    (∀ cs : List Char, displayWidth (utf8 cs) = cs.length) ∧
      (∀ a b : Bytes, displayWidth (a ++ b) = displayWidth a + displayWidth b) ∧
      (∀ (ctx : Context) (depth : Nat) (tag : Tag),
        displayWidth (indent depth) + displayWidth (oneLine ctx tag) =
          ((lineParts ctx depth tag).map displayWidth).sum) ∧
      ∀ (ctx : Context) (depth : Nat) (tag : Tag), EncodedTag ctx.shown tag →
        ∃ parts : List (List Char), parts.map utf8 = lineParts ctx depth tag ∧
          let count := (parts.map List.length).sum
          (exceedsLine ctx depth tag = true ↔
            0 ≤ ctx.options.lineLength ∧ ctx.options.lineLength < count) ∧
          (tag.attributes ≠ [] → (∀ a ∈ tag.attributes, (attributeText ctx a).multiline = false) →
            0 ≤ ctx.options.lineLength →
              (openTag ctx depth tag = oneLine ctx tag ↔ count ≤ ctx.options.lineLength)) := by
  refine ⟨displayWidth_utf8, displayWidth_append, fun ctx depth tag => ?_, fun ctx depth tag h => ?_⟩
  · rw [displayWidth_lineParts, displayWidth_flatten]
  · obtain ⟨parts, hparts⟩ := exists_lineParts h depth
    refine ⟨parts, hparts, ?_⟩
    intro count
    have hexceeds : exceedsLine ctx depth tag = true ↔
        0 ≤ ctx.options.lineLength ∧ ctx.options.lineLength < count := by
      rw [exceedsLine, displayWidth_lineParts, ← hparts, displayWidth_flatten_utf8]
      simp [Options.exceeds, count]
    refine ⟨hexceeds, fun hne hsingle hlen => ?_⟩
    rw [openTag_eq_oneLine_iff depth hne hsingle, ← Bool.not_eq_true, hexceeds, not_and, Int.not_lt]
    exact ⟨fun h => h hlen, fun h _ => h⟩

def greeting : Tag :=
  ⟨utf8 "größe".toList,
    [⟨utf8 ['é'], .string, utf8 "\"naïve ✓\"".toList, .start⟩,
      ⟨ascii "n", .expression, ascii "x", .start⟩],
    true, false, .start⟩

def greetingContext : Context :=
  ⟨⟨37, .lf⟩, fun _ => utf8 "😀 + 1".toList⟩

theorem width_counts_greeting :
    EncodedTag greetingContext.shown greeting ∧
      (indent 1 ++ oneLine greetingContext greeting).length = 46 ∧
      ∃ parts : List (List Char), parts.map utf8 = lineParts greetingContext 1 greeting ∧
        (parts.map List.length).sum = 37 ∧
        openTag greetingContext 1 greeting = oneLine greetingContext greeting := by
  have hencoded : EncodedTag greetingContext.shown greeting := by
    constructor
    case name => exact ⟨"größe".toList, rfl⟩
    case names => simpa [greeting] using ⟨⟨['é'], rfl⟩, ⟨['n'], by decide⟩⟩
    case values => simpa [greeting, isFormatted] using ⟨"\"naïve ✓\"".toList, rfl⟩
    case shown => exact fun _ _ _ => ⟨"😀 + 1".toList, rfl⟩
  obtain ⟨parts, hparts, -, hline⟩ := width_counts_characters.2.2.2 greetingContext 1 greeting hencoded
  have hcount : (parts.map List.length).sum = 37 := by
    rw [← displayWidth_flatten_utf8, hparts]
    decide
  refine ⟨hencoded, by decide, parts, hparts, hcount, (hline ?_ ?_ ?_).2 ?_⟩
  · exact List.cons_ne_nil _ _
  · decide
  · decide
  · rw [hcount]
    decide

end Layout

end MarkupFormat
