import MarkupFormat.Proofs.TextLines

namespace MarkupFormat

open Bytes

namespace Bytes

def afterLast {α : Type} [DecidableEq α] (sep : α) (t : List α) : List α :=
  (t.reverse.takeWhile (· ≠ sep)).reverse

theorem exists_before_afterLast {α : Type} [DecidableEq α] (sep : α) (t : List α) :
    ∃ front, t = front ++ afterLast sep t ∧ (front = [] ∨ front.getLast? = some sep) ∧
      sep ∉ afterLast sep t := by
  refine ⟨(t.reverse.dropWhile (· ≠ sep)).reverse, ?_, ?_, ?_⟩
  · rw [afterLast, ← List.reverse_append, List.takeWhile_append_dropWhile, List.reverse_reverse]
  · rw [List.reverse_eq_nil_iff, List.getLast?_reverse]
    cases hdrop : t.reverse.dropWhile (· ≠ sep) with
    | nil => exact .inl rfl
    | cons c u =>
        have hhead := List.head?_dropWhile_not (· ≠ sep) t.reverse
        rw [hdrop] at hhead
        exact .inr (by simpa using hhead)
  · intro hmem
    have hall := List.all_eq_true.1 List.all_takeWhile sep (List.mem_reverse.1 hmem)
    simp at hall

theorem lines_append_lf (u t : Bytes) : lines (u ++ Byte.lf :: t) = lines u ++ lines t := by
  induction u with
  | nil => simp [lines, split]
  | cons c u ih =>
      obtain ⟨l, ls, hu⟩ := List.exists_cons_of_ne_nil (split_ne_nil Byte.lf u)
      simp only [lines, hu, List.cons_append, split] at ih ⊢
      split <;> simp [ih]

theorem lines_eq_singleton {t : Bytes} (h : Byte.lf ∉ t) : lines t = [t] := by
  rw [lines, ← List.append_nil t, ← lines, Document.lines_append h]
  rfl

theorem prefix_dropReturn {a w : Bytes} (h : w = [] → a.getLast? ≠ some Byte.cr) :
    a <+: dropReturn (a ++ w) := by
  unfold dropReturn
  split
  · next hlast =>
      by_cases hw : w = []
      · rw [hw, List.append_nil] at hlast
        exact absurd hlast (h hw)
      · rw [List.dropLast_append_of_ne_nil hw]
        exact List.prefix_append a _
  · exact List.prefix_append a w

theorem dropReturn_isPrefix (l : Bytes) : dropReturn l <+: l := by
  unfold dropReturn
  split
  · exact List.dropLast_prefix l
  · exact List.prefix_rfl

end Bytes

namespace Place

theorem line_foldl_next (t : Bytes) : ∀ p : Place, (t.foldl next p).line = p.line + t.count Byte.lf := by
  induction t with
  | nil => exact fun _ => rfl
  | cons c t ih =>
      intro p
      rw [List.foldl_cons, ih, next]
      by_cases hc : c = Byte.lf
      · rw [if_pos hc, hc, List.count_cons_self]
        exact Nat.add_right_comm _ 1 _
      · rw [if_neg hc, List.count_cons_of_ne hc]

theorem offset_foldl_next (t : Bytes) : ∀ p : Place, (t.foldl next p).offset = p.offset + t.length := by
  induction t with
  | nil => exact fun _ => rfl
  | cons c t ih =>
      intro p
      have hnext : (p.next c).offset = p.offset + 1 := by
        unfold next
        split <;> rfl
      rw [List.foldl_cons, ih, hnext, List.length_cons]
      exact Nat.add_right_comm _ 1 _

theorem foldl_next_unbroken {t : Bytes} (h : Byte.lf ∉ t) (p : Place) :
    t.foldl next p = ⟨p.line, p.column + t.length, p.offset + t.length⟩ := by
  induction t generalizing p with
  | nil => rfl
  | cons c t ih =>
      obtain ⟨hc, ht⟩ := List.ne_and_not_mem_of_not_mem_cons h
      simp only [List.foldl_cons, next, if_neg (Ne.symm hc), ih ht, List.length_cons]
      simp only [Nat.add_assoc, Nat.add_comm 1]

theorem foldl_next_lines {t : Bytes} (h : t = [] ∨ t.getLast? = some Byte.lf) :
    t.foldl next start = ⟨t.count Byte.lf + 1, 1, t.length⟩ := by
  rcases h with rfl | h
  · rfl
  · obtain ⟨u, rfl⟩ := List.getLast?_eq_some_iff.1 h
    have hline := line_foldl_next u start
    have hoffset := offset_foldl_next u start
    rw [List.foldl_append, List.foldl_cons, List.foldl_nil, next, if_pos rfl, hline, hoffset, List.count_append,
      List.length_append]
    simp only [start, List.count_singleton_self, List.length_singleton, Place.mk.injEq, true_and]
    omega

-- No word wraps around.
theorem toNat_location {p : Place} (hline : p.line < UInt32.size) (hcolumn : p.column < UInt32.size)
    (hoffset : p.offset < UInt32.size) :
    p.location.line.toNat = p.line ∧ p.location.column.toNat = p.column ∧ p.location.offset.toNat = p.offset :=
  ⟨UInt32.toNat_ofNat_of_lt' hline, UInt32.toNat_ofNat_of_lt' hcolumn, UInt32.toNat_ofNat_of_lt' hoffset⟩

end Place

namespace Source

structure At (src : Source) (front tail rest : Bytes) : Prop where
  content : src.content = front ++ tail ++ rest
  starts : front = [] ∨ front.getLast? = some Byte.lf
  unbroken : Byte.lf ∉ tail

section At

variable {src : Source} {front tail rest : Bytes}

theorem exists_at {o : Nat} (h : o ≤ src.length) :
    ∃ front tail rest, src.At front tail rest ∧ (front ++ tail).length = o := by
  obtain ⟨front, hsplit, hstarts, hunbroken⟩ := exists_before_afterLast Byte.lf (src.content.take o)
  refine ⟨front, _, src.content.drop o, ⟨?_, hstarts, hunbroken⟩, ?_⟩
  · rw [← hsplit, List.take_append_drop]
  · rw [← hsplit, List.length_take]
    exact Nat.min_eq_left h

theorem At.place (h : src.At front tail rest) :
    src.place (front ++ tail).length = ⟨front.count Byte.lf + 1, tail.length + 1, (front ++ tail).length⟩ := by
  rw [Source.place, h.content, List.take_left, List.foldl_append, Place.foldl_next_lines h.starts,
    Place.foldl_next_unbroken h.unbroken, List.length_append, Nat.add_comm 1]

theorem At.further {mid more : Bytes} (h : src.At front tail (mid ++ more)) (hmid : Byte.lf ∉ mid) :
    src.At front (tail ++ mid) more where
  content := by rw [h.content, ← List.append_assoc front, List.append_assoc (front ++ tail)]
  starts := h.starts
  unbroken := by simp [h.unbroken, hmid]

theorem At.line_further {mid more : Bytes} (h : src.At front tail (mid ++ more)) :
    (src.place (front ++ tail ++ mid).length).line =
      (src.place (front ++ tail).length).line + mid.count Byte.lf := by
  have htake : src.content.take (front ++ tail).length = front ++ tail := by
    rw [h.content, List.take_left]
  have htake' : src.content.take (front ++ tail ++ mid).length = front ++ tail ++ mid := by
    rw [h.content, ← List.append_assoc (front ++ tail), List.take_left]
  rw [Source.place, Source.place, htake, htake', List.foldl_append, Place.line_foldl_next mid]

theorem At.lines (h : src.At front tail rest) :
    (Bytes.lines src.content).drop (front.count Byte.lf) = Bytes.lines (tail ++ rest) := by
  rw [h.content, List.append_assoc]
  rcases h.starts with rfl | hlast
  · rfl
  · obtain ⟨u, rfl⟩ := List.getLast?_eq_some_iff.1 hlast
    have hcount : (u ++ [Byte.lf]).count Byte.lf = (Bytes.lines u).length := by
      rw [Bytes.lines, length_split, List.count_append]
      rfl
    rw [hcount, List.append_assoc, List.singleton_append, lines_append_lf, List.drop_left]

theorem At.line_last (h : src.At front tail rest) (hrest : Byte.lf ∉ rest) :
    src.numberedLine (front.count Byte.lf + 1) = tail ++ rest := by
  have hline : Byte.lf ∉ tail ++ rest := by simp [h.unbroken, hrest]
  rw [numberedLine, h.lines, lines_eq_singleton hline]

theorem At.line_ended {more : Bytes} (h : src.At front tail (rest ++ Byte.lf :: more))
    (hrest : Byte.lf ∉ rest) : src.numberedLine (front.count Byte.lf + 1) = dropReturn (tail ++ rest) := by
  have hline : Byte.lf ∉ tail ++ rest := by simp [h.unbroken, hrest]
  obtain ⟨m, ms, hm⟩ := List.exists_cons_of_ne_nil (split_ne_nil Byte.lf more)
  have hlines : Bytes.lines (tail ++ (rest ++ Byte.lf :: more)) = (tail ++ rest) :: m :: ms := by
    rw [← List.append_assoc, lines_append_lf, lines_eq_singleton hline, Bytes.lines, hm]
    rfl
  rw [numberedLine, h.lines, hlines]

theorem At.line_isPrefix (h : src.At front tail rest) :
    src.numberedLine (front.count Byte.lf + 1) <+: tail ++ rest := by
  by_cases hlf : Byte.lf ∈ rest
  · obtain ⟨word, more, rfl, hword⟩ := List.eq_append_cons_of_mem hlf
    rw [h.line_ended hword, ← List.append_assoc]
    exact (dropReturn_isPrefix _).trans (List.prefix_append _ _)
  · exact ⟨[], by rw [List.append_nil, h.line_last hlf]⟩

theorem At.take_line (h : src.At front tail rest)
    (hle : tail.length ≤ (src.numberedLine (front.count Byte.lf + 1)).length) :
    (src.numberedLine (front.count Byte.lf + 1)).take tail.length = tail := by
  obtain ⟨more, hmore⟩ := h.line_isPrefix
  have htake := congrArg (List.take tail.length) hmore
  rwa [List.take_left, List.take_append_of_le_length hle] at htake

theorem At.prefix_line {b : UInt8} (h : src.At front tail (b :: rest)) (hlf : b ≠ Byte.lf)
    (hcr : ¬(b = Byte.cr ∧ rest.head? = some Byte.lf)) :
    tail ++ [b] <+: src.numberedLine (front.count Byte.lf + 1) := by
  by_cases hmem : Byte.lf ∈ rest
  · obtain ⟨word, more, rfl, hword⟩ := List.eq_append_cons_of_mem hmem
    have hended : src.At front tail ((b :: word) ++ Byte.lf :: more) := h
    have hline := hended.line_ended (by simp [Ne.symm hlf, hword])
    rw [hline, List.append_cons tail b word]
    refine prefix_dropReturn ?_
    rintro rfl hlast
    rw [List.getLast?_concat] at hlast
    exact hcr ⟨Option.some.inj hlast, rfl⟩
  · rw [h.line_last (by simp [Ne.symm hlf, hmem]), List.append_cons tail b rest]
    exact List.prefix_append _ _

end At

section Place

variable (src : Source) {o o' : Nat}

theorem place_at (h : o ≤ src.length) :
    (src.place o).offset = o ∧ (src.place o).line = (src.content.take o).count Byte.lf + 1 ∧
      (∃ start ≤ o, (start = 0 ∨ src.content[start - 1]? = some Byte.lf) ∧
        Byte.lf ∉ src.slice start o ∧ (src.place o).column = o - start + 1) ∧
      (src.place o).line + (src.place o).column ≤ o + 2 := by
  obtain ⟨front, tail, rest, hat, rfl⟩ := exists_at h
  have htake : src.content.take (front ++ tail).length = front ++ tail := by rw [hat.content, List.take_left]
  have hcount : (front ++ tail).count Byte.lf = front.count Byte.lf := by
    rw [List.count_append, List.count_eq_zero.2 hat.unbroken, Nat.add_zero]
  rw [hat.place, htake, hcount, List.length_append]
  refine ⟨rfl, rfl, ⟨front.length, Nat.le_add_right _ _, ?_, ?_, ?_⟩, ?_⟩
  · rcases hat.starts with rfl | hlast
    · exact .inl rfl
    · obtain ⟨u, rfl⟩ := List.getLast?_eq_some_iff.1 hlast
      exact .inr (by simp [hat.content])
  · have hslice : src.slice front.length (front.length + tail.length) = tail := by
      simp [slice, hat.content]
    rw [hslice]
    exact hat.unbroken
  · rw [Nat.add_sub_cancel_left]
  · have hle : front.count Byte.lf ≤ front.length := List.count_le_length
    simp only
    omega

theorem place_lt (hlt : o < o') (h : o' ≤ src.length) :
    (src.place o).line < (src.place o').line ∨
      (src.place o).line = (src.place o').line ∧ (src.place o).column < (src.place o').column := by
  obtain ⟨front, tail, rest, hat, rfl⟩ := exists_at (Nat.le_of_lt (Nat.lt_of_lt_of_le hlt h))
  obtain ⟨mid, more, rfl, rfl⟩ :
      ∃ mid more, rest = mid ++ more ∧ (front ++ tail ++ mid).length = o' := by
    refine ⟨rest.take (o' - (front ++ tail).length), rest.drop (o' - (front ++ tail).length), ?_, ?_⟩
    · rw [List.take_append_drop]
    · simp only [length, hat.content, List.length_append, List.length_take] at h hlt ⊢
      omega
  by_cases hlf : Byte.lf ∈ mid
  · have hcount : 0 < mid.count Byte.lf := List.count_pos_iff.2 hlf
    rw [hat.line_further]
    exact .inl (Nat.lt_add_of_pos_right hcount)
  · rw [hat.place, List.append_assoc front, (hat.further hlf).place]
    refine .inr ⟨rfl, ?_⟩
    simp only [List.length_append] at hlt ⊢
    omega

theorem getElem?_numberedLine {b : UInt8} (hb : src.content[o]? = some b) (hlf : b ≠ Byte.lf)
    (hcr : ¬(b = Byte.cr ∧ src.content[o + 1]? = some Byte.lf)) :
    (src.numberedLine (src.place o).line)[(src.place o).column - 1]? = some b := by
  obtain ⟨hlt, -⟩ := List.getElem?_eq_some_iff.1 hb
  obtain ⟨front, tail, rest, hat, rfl⟩ := exists_at (Nat.le_of_lt hlt)
  cases rest with
  | nil => simp [hat.content] at hb
  | cons c rest =>
      have hc : c = b := by simpa [hat.content] using hb
      have hnext : src.content[(front ++ tail).length + 1]? = rest.head? := by
        rw [hat.content, List.getElem?_append_right (Nat.le_add_right _ 1), Nat.add_sub_cancel_left]
        cases rest <;> rfl
      subst hc
      rw [hnext] at hcr
      obtain ⟨more, hline⟩ := hat.prefix_line hlf hcr
      rw [hat.place, ← hline]
      simp

theorem place_of_length_lt (h : src.length < o) : src.place o = src.place src.length := by
  have hend : src.content.take src.length = src.content := List.take_length
  rw [place, place, List.take_of_length_le (Nat.le_of_lt h), hend]

end Place

section Location

variable (src : Source) {o o' : Nat}

theorem toNat_location (h : o ≤ src.length) (hsize : o + 1 < UInt32.size) :
    (src.location o).line.toNat = (src.place o).line ∧ (src.location o).column.toNat = (src.place o).column ∧
      (src.location o).offset.toNat = o := by
  obtain ⟨hoffset, hline, ⟨start, -, -, -, hcolumn⟩, hsum⟩ := src.place_at h
  have hwords := Place.toNat_location (p := src.place o) (by omega) (by omega) (by omega)
  rwa [hoffset] at hwords

theorem location_at (hsize : src.length + 1 < UInt32.size) (h : o ≤ src.length) :
    (src.location o).offset.toNat = o ∧
      (src.location o).line.toNat = (src.content.take o).count Byte.lf + 1 ∧
      ∃ start ≤ o, (start = 0 ∨ src.content[start - 1]? = some Byte.lf) ∧
        Byte.lf ∉ src.slice start o ∧ (src.location o).column.toNat = o - start + 1 := by
  obtain ⟨hline, hcolumn, hoffset⟩ := src.toNat_location h (by omega)
  obtain ⟨-, hcount, hstart, -⟩ := src.place_at h
  rw [hoffset, hline, hcolumn]
  exact ⟨rfl, hcount, hstart⟩

theorem location_lt (hsize : src.length + 1 < UInt32.size) (hlt : o < o') (h : o' ≤ src.length) :
    (src.location o).line < (src.location o').line ∨
      (src.location o).line = (src.location o').line ∧
        (src.location o).column < (src.location o').column := by
  obtain ⟨hline, hcolumn, -⟩ := src.toNat_location (Nat.le_of_lt (Nat.lt_of_lt_of_le hlt h)) (by omega)
  obtain ⟨hline', hcolumn', -⟩ := src.toNat_location h (by omega)
  rw [UInt32.lt_iff_toNat_lt, UInt32.lt_iff_toNat_lt, ← UInt32.toNat_inj, hline, hline', hcolumn, hcolumn']
  exact src.place_lt hlt h

theorem getElem?_line (hsize : src.length + 1 < UInt32.size) {b : UInt8} (hb : src.content[o]? = some b)
    (hlf : b ≠ Byte.lf) (hcr : ¬(b = Byte.cr ∧ src.content[o + 1]? = some Byte.lf)) :
    (src.line (src.location o).line)[(src.location o).column.toNat - 1]? = some b := by
  obtain ⟨hlt, -⟩ := List.getElem?_eq_some_iff.1 hb
  have hle : o ≤ src.length := Nat.le_of_lt hlt
  obtain ⟨hline, hcolumn, -⟩ := src.toNat_location hle (by omega)
  rw [line, hline, hcolumn]
  exact src.getElem?_numberedLine hb hlf hcr

theorem location_of_length_lt (h : src.length < o) : src.location o = src.location src.length := by
  rw [location, location, src.place_of_length_lt h]

end Location

-- Offset, line and column of a place are exact, later places are greater, and the line of that number
-- has the byte of the place in that column. Offsets beyond the end mean the end.
theorem location_exact (src : Source) (hsize : src.length + 1 < UInt32.size) :
    (∀ o ≤ src.length,
      (src.location o).offset.toNat = o ∧
        (src.location o).line.toNat = (src.content.take o).count Byte.lf + 1 ∧
        ∃ start ≤ o, (start = 0 ∨ src.content[start - 1]? = some Byte.lf) ∧
          Byte.lf ∉ src.slice start o ∧ (src.location o).column.toNat = o - start + 1) ∧
      (∀ o o', o < o' → o' ≤ src.length →
        (src.location o).line < (src.location o').line ∨
          (src.location o).line = (src.location o').line ∧
            (src.location o).column < (src.location o').column) ∧
      (∀ o b, src.content[o]? = some b → b ≠ Byte.lf →
        ¬(b = Byte.cr ∧ src.content[o + 1]? = some Byte.lf) →
          (src.line (src.location o).line)[(src.location o).column.toNat - 1]? = some b) ∧
      ∀ o, src.length < o → src.location o = src.location src.length :=
  ⟨fun _ => src.location_at hsize, fun _ _ => src.location_lt hsize, fun _ _ => src.getElem?_line hsize,
    fun _ => src.location_of_length_lt⟩

def returning : Source :=
  ⟨defaultName, ascii "ab\r\n\n\tc\rd"⟩

theorem location_returning :
    returning.length + 1 < UInt32.size ∧ returning.location 7 = ⟨3, 3, 7⟩ ∧
      (returning.line 3)[2]? = some Byte.cr ∧ (returning.location 2).line < (returning.location 7).line ∧
      returning.location 12 = ⟨3, 5, 9⟩ := by
  have hsize : returning.length + 1 < UInt32.size := by decide
  obtain ⟨-, hlt, hbyte, hend⟩ := location_exact returning hsize
  refine ⟨hsize, by decide, hbyte 7 Byte.cr (by decide) (by decide) (by decide), ?_, ?_⟩
  · exact (hlt 2 7 (by decide) (by decide)).resolve_right (by decide)
  · exact (hend 12 (by decide)).trans (by decide)

section Repeated

variable {n : Nat} {b : UInt8}

def repeated (n : Nat) (b : UInt8) : Source :=
  ⟨defaultName, List.replicate n b⟩

theorem length_repeated : (repeated n b).length = n :=
  List.length_replicate

theorem lf_not_mem_slice_repeated (hb : b ≠ Byte.lf) (start stop : Nat) :
    Byte.lf ∉ (repeated n b).slice start stop := by
  intro hlf
  have hmem := List.mem_of_mem_drop (List.mem_of_mem_take hlf)
  exact hb (List.eq_of_mem_replicate hmem).symm

theorem place_repeated (hb : b ≠ Byte.lf) {o : Nat} (h : o ≤ n) : (repeated n b).place o = ⟨1, o + 1, o⟩ := by
  have hlf : Byte.lf ∉ List.replicate o b := fun hmem => hb (List.eq_of_mem_replicate hmem).symm
  rw [place, repeated, List.take_replicate, Nat.min_eq_left h, Place.foldl_next_unbroken hlf,
    List.length_replicate, Place.start, Nat.add_comm 1, Nat.zero_add]

end Repeated

-- After as many bytes as a word can count the column is zero, and less than that of the byte before.
theorem location_wraps :
    let src := repeated 4294967295 Byte.space
    src.length < UInt32.size ∧ Byte.lf ∉ src.slice 0 src.length ∧
      src.location src.length = ⟨1, 0, 4294967295⟩ ∧
      (src.location src.length).column.toNat ≠ src.length - 0 + 1 ∧
      (src.location src.length).column < (src.location (src.length - 1)).column := by
  intro src
  have hlength : src.length = 4294967295 := length_repeated
  have hlast : src.location src.length = ⟨1, 0, 4294967295⟩ := by
    rw [hlength, location, place_repeated (by decide) (Nat.le_refl _)]
    rfl
  have hbefore : src.location (src.length - 1) = ⟨1, 4294967295, 4294967294⟩ := by
    rw [hlength, location, place_repeated (by decide) (by decide)]
    rfl
  rw [hlast, hbefore, hlength]
  exact ⟨by decide, lf_not_mem_slice_repeated (by decide) 0 _, rfl, by decide, by decide⟩

end Source

end MarkupFormat
