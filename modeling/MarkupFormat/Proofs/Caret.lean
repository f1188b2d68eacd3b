import Mathlib.Data.List.Basic
import MarkupFormat.Diagnostic
import MarkupFormat.Proofs.Characters
import MarkupFormat.Proofs.Locations

namespace MarkupFormat

open Bytes

def byteMark (b : UInt8) : UInt8 :=
  if b = Byte.tab then Byte.tab else Byte.space

def underMarks (c : Char) : Bytes :=
  if c = '\t' then [Byte.tab] else spaces c.utf8Size

def columnMark (c : Char) : UInt8 :=
  if c = '\t' then Byte.tab else Byte.space

namespace Diagnostic

def gutter (loc : Location) : Bytes :=
  spaces (max (decimal loc.line.toNat).length 4)

def withCaret (src : Source) (r : Report) (pad : Bytes) : Bytes :=
  heading .plain r ++ arrow .plain src r
    ++ (gutter r.location ++ ascii " |" ++ [Byte.lf])
    ++ (padLeft (gutter r.location).length (decimal r.location.line.toNat) ++ ascii " | "
      ++ src.line r.location.line ++ [Byte.lf])
    ++ (gutter r.location ++ ascii " | " ++ pad ++ ascii "^" ++ [Byte.lf])
    ++ elementNote .plain r ++ snippetNote .plain r

theorem diagnostic_plain {src : Source} {r : Report} (h : src.line r.location.line ≠ []) :
    r.diagnostic src .plain =
      withCaret src r (caretPad (src.line r.location.line) r.location.column.toNat) := by
  simp [Report.diagnostic, excerpt, h, withCaret, gutter, spaces, Palette.plain]

end Diagnostic

section Marks

theorem map_byteMark_utf8EncodeChar (c : Char) :
    (String.utf8EncodeChar c).map byteMark = underMarks c := by
  by_cases hc : c = '\t'
  · subst hc
    decide
  · have hne : ∀ b ∈ String.utf8EncodeChar c, byteMark b = Byte.space := by
      rintro b hb
      refine if_neg ?_
      rintro rfl
      have htab := (mem_utf8EncodeChar_iff (by decide)).1 hb
      exact hc (Char.toNat_inj.1 htab)
    rw [List.map_congr_left hne, List.map_const', String.length_utf8EncodeChar, underMarks, if_neg hc, spaces]

theorem map_byteMark_utf8 (cs : List Char) : (utf8 cs).map byteMark = cs.flatMap underMarks := by
  rw [utf8, List.map_flatMap]
  exact List.flatMap_congr fun c _ => map_byteMark_utf8EncodeChar c

theorem displayWidth_map_byteMark (t : Bytes) : displayWidth (t.map byteMark) = t.length := by
  have hall : ∀ b ∈ t.map byteMark, startsCharacter b = true := by
    refine List.forall_mem_map.2 fun b _ => ?_
    unfold byteMark
    split <;> decide
  rw [displayWidth, List.countP_eq_length.2 hall, List.length_map]

theorem underMarks_ascii {c : Char} (h : c.toNat < 128) : underMarks c = [columnMark c] := by
  have hsize : c.utf8Size = 1 := by
    rw [← String.length_utf8EncodeChar]
    exact length_utf8EncodeChar_eq_one_iff.2 h
  unfold underMarks columnMark
  split
  · rfl
  · rw [hsize]
    rfl

variable {cs : List Char}

theorem displayWidth_underMarks_iff :
    displayWidth (cs.flatMap underMarks) = displayWidth (utf8 cs) ↔ ∀ c ∈ cs, c.toNat < 128 := by
  rw [← map_byteMark_utf8, displayWidth_map_byteMark, displayWidth_utf8]
  exact length_utf8_eq_iff

theorem underMarks_eq_iff : cs.flatMap underMarks = cs.map columnMark ↔ ∀ c ∈ cs, c.toNat < 128 := by
  constructor
  · intro h
    have hlength := congrArg List.length h
    rw [← map_byteMark_utf8, List.length_map, List.length_map] at hlength
    exact length_utf8_eq_iff.1 hlength
  · intro h
    rw [List.map_eq_flatMap]
    exact List.flatMap_congr fun c hc => underMarks_ascii (h c hc)

end Marks

section Part

variable {src : Source} {before after : List Char}

theorem utf8_starts {front : List Char} (h : front = [] ∨ front.getLast? = some '\n') :
    utf8 front = [] ∨ (utf8 front).getLast? = some Byte.lf := by
  rcases h with rfl | h
  · exact .inl rfl
  · obtain ⟨u, rfl⟩ := List.getLast?_eq_some_iff.1 h
    refine .inr ?_
    rw [utf8_append]
    exact List.getLast?_concat

theorem lf_mem_utf8_iff {cs : List Char} : Byte.lf ∈ utf8 cs ↔ '\n' ∈ cs := by
  rw [mem_utf8_iff (by decide)]
  constructor
  · rintro ⟨c, hc, hlf⟩
    have heq : c = '\n' := Char.toNat_inj.1 hlf
    exact heq ▸ hc
  · exact fun h => ⟨'\n', h, rfl⟩

theorem exists_at_character (h : src.content = utf8 (before ++ after)) :
    ∃ front, before = front ++ afterLast '\n' before ∧
      src.At (utf8 front) (utf8 (afterLast '\n' before)) (utf8 after) := by
  obtain ⟨front, hsplit, hstarts, hunbroken⟩ := exists_before_afterLast '\n' before
  refine ⟨front, hsplit, ⟨?_, utf8_starts hstarts, fun hlf => hunbroken (lf_mem_utf8_iff.1 hlf)⟩⟩
  rw [← utf8_append, ← hsplit, ← utf8_append, h]

end Part

-- The caret of a report on a character within its line. What stands before the caret is as wide as the
-- part of the line before the character, and lines up with it, if and only if that part is ASCII.
theorem caret_aligned_iff {src : Source} {before after : List Char} {c : Char} {r : Report}
    (hcontent : src.content = utf8 (before ++ c :: after))
    (hline : (utf8 before).count Byte.lf + 1 < UInt32.size)
    (hcolumn : (utf8 (afterLast '\n' before)).length + 1 < UInt32.size)
    (hplace : r.location = src.location (utf8 before).length)
    (hwithin : r.location.column.toNat ≤ (src.line r.location.line).length) :
    let part := afterLast '\n' before
    let pad := part.flatMap underMarks
    utf8 part = (src.line r.location.line).take (r.location.column.toNat - 1) ∧
      r.diagnostic src .plain = Diagnostic.withCaret src r pad ∧
      (displayWidth pad = displayWidth (utf8 part) ↔ ∀ d ∈ part, d.toNat < 128) ∧
      (pad = part.map columnMark ↔ ∀ d ∈ part, d.toNat < 128) := by
  obtain ⟨front, hsplit, hat⟩ := exists_at_character hcontent
  have hbefore : utf8 before = utf8 front ++ utf8 (afterLast '\n' before) := by
    rw [← utf8_append, ← hsplit]
  have hcount : (utf8 before).count Byte.lf = (utf8 front).count Byte.lf := by
    rw [hbefore, List.count_append, List.count_eq_zero.2 hat.unbroken, Nat.add_zero]
  rw [hcount] at hline
  have hlocation : r.location = Place.location
      ⟨(utf8 front).count Byte.lf + 1, (utf8 (afterLast '\n' before)).length + 1, (utf8 before).length⟩ := by
    rw [hplace, Source.location, hbefore, hat.place]
  have hline' : r.location.line.toNat = (utf8 front).count Byte.lf + 1 := by
    rw [hlocation]
    exact UInt32.toNat_ofNat_of_lt' hline
  have hcolumn' : r.location.column.toNat = (utf8 (afterLast '\n' before)).length + 1 := by
    rw [hlocation]
    exact UInt32.toNat_ofNat_of_lt' hcolumn
  have hnumbered : src.line r.location.line = src.numberedLine ((utf8 front).count Byte.lf + 1) :=
    congrArg src.numberedLine hline'
  rw [hcolumn', hnumbered] at hwithin
  have hpart : utf8 (afterLast '\n' before) =
      (src.line r.location.line).take (r.location.column.toNat - 1) := by
    rw [hcolumn', hnumbered]
    exact (hat.take_line (Nat.le_of_succ_le hwithin)).symm
  have hne : src.line r.location.line ≠ [] := by
    rw [hnumbered]
    exact List.ne_nil_of_length_pos (Nat.lt_of_lt_of_le (Nat.succ_pos _) hwithin)
  refine ⟨hpart, ?_, displayWidth_underMarks_iff, underMarks_eq_iff⟩
  rw [Diagnostic.diagnostic_plain hne, ← map_byteMark_utf8, hpart]
  rfl

def misplaced (location : Location) : Report :=
  ⟨.structural, ascii "S001", ascii "misplaced", [], [], [], [], location⟩

def indented : Source :=
  ⟨ascii "page", utf8 "é\n\taéb".toList⟩

theorem caret_under_indented :
    indented.content = utf8 ("é\n\ta".toList ++ 'é' :: ['b']) ∧
      (utf8 "é\n\ta".toList).count Byte.lf + 1 < UInt32.size ∧
      (utf8 (afterLast '\n' "é\n\ta".toList)).length + 1 < UInt32.size ∧
      (misplaced ⟨2, 3, 5⟩).location = indented.location (utf8 "é\n\ta".toList).length ∧
      3 ≤ (indented.line 2).length ∧
      (misplaced ⟨2, 3, 5⟩).diagnostic indented .plain =
        Diagnostic.withCaret indented (misplaced ⟨2, 3, 5⟩) [Byte.tab, Byte.space] ∧
      displayWidth [Byte.tab, Byte.space] = displayWidth (utf8 ['\t', 'a']) := by
  have hcontent : indented.content = utf8 ("é\n\ta".toList ++ 'é' :: ['b']) := by decide
  have hline : (utf8 "é\n\ta".toList).count Byte.lf + 1 < UInt32.size := by decide
  have hcolumn : (utf8 (afterLast '\n' "é\n\ta".toList)).length + 1 < UInt32.size := by decide
  have hplace : (misplaced ⟨2, 3, 5⟩).location = indented.location (utf8 "é\n\ta".toList).length := by
    decide
  have hwithin : 3 ≤ (indented.line 2).length := by decide
  have hpart : afterLast '\n' "é\n\ta".toList = ['\t', 'a'] := by decide
  obtain ⟨-, hdiagnostic, hwidth, -⟩ := caret_aligned_iff hcontent hline hcolumn hplace hwithin
  rw [hpart] at hdiagnostic hwidth
  exact ⟨hcontent, hline, hcolumn, hplace, hwithin, hdiagnostic, hwidth.2 (by simp)⟩

def accented : Source :=
  ⟨Source.defaultName, utf8 ['é', '<', 'p', '>']⟩

theorem caret_beside_accented :
    accented.content = utf8 (['é'] ++ '<' :: ['p', '>']) ∧
      (misplaced (accented.location 2)).diagnostic accented .plain =
        Diagnostic.withCaret accented (misplaced (accented.location 2)) (spaces 2) ∧
      utf8 ['é'] = (accented.line 1).take 2 ∧ displayWidth (utf8 ['é']) = 1 ∧
      displayWidth (spaces 2) = 2 ∧ spaces 2 ≠ ['é'].map columnMark := by
  decide

end MarkupFormat
