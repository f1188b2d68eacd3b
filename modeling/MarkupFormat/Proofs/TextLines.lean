import MarkupFormat.Proofs.Slices
import MarkupFormat.Proofs.Words

namespace MarkupFormat.Document

open Bytes
open Written (startsSolid)

structure PlacedNode where
  place : Span
  node : Node

def placeLines (start : Nat) : List Bytes → List PlacedNode
  | [] => []
  | l :: ls =>
      (if allBlank l then []
        else
          [⟨⟨start + (l.takeWhile isBlank).length, start + (dropEndWhile isBlank l).length⟩,
            .text (unwords (words l))⟩])
        ++ placeLines (start + l.length + 1) ls

def placeText (start : Nat) (t : Bytes) : List PlacedNode :=
  placeLines start (lines t)

def weave (mark : Span → List Piece) (start stop : Nat) : List PlacedNode → List Piece
  | [] => mark ⟨start, stop⟩
  | n :: ns => mark ⟨start, n.place.start⟩ ++ .content n.node :: weave mark n.place.stop stop ns

theorem ne_lf {c : UInt8} (hc : isBlank c = false) : c ≠ Byte.lf := by
  rintro rfl
  rw [isBlank_lf] at hc
  cases hc

theorem takeWhile_append_of_lf_notMem {m : Bytes} (h : Byte.lf ∉ m) (t : Bytes) :
    (m ++ t).takeWhile (· ≠ Byte.lf) = m ++ t.takeWhile (· ≠ Byte.lf) := by
  refine List.takeWhile_append_of_pos fun c hc => ?_
  have hne : c ≠ Byte.lf := fun hlf => h (hlf ▸ hc)
  simpa using hne

inductive Inline : Bytes → Prop
  | single {c : UInt8} : isBlank c = false → Inline [c]
  | solid {c : UInt8} {t : Bytes} : isBlank c = false → Inline t → Inline (c :: t)
  | gap {c : UInt8} {m t : Bytes} : isBlank c = false → m ≠ [] → allBlank m = true → Byte.lf ∉ m →
      Inline t → Inline (c :: (m ++ t))

def EndsLine (t : Bytes) : Prop :=
  allBlank (t.takeWhile (· ≠ Byte.lf)) = true

namespace Inline

variable {w : Bytes}

theorem ne_nil (h : Inline w) : w ≠ [] := by
  cases h <;> simp

theorem starts_solid (h : Inline w) : startsSolid w = true := by
  cases h with
  | single hc => simp [startsSolid, hc]
  | solid hc _ => simp [startsSolid, hc]
  | gap hc _ _ _ _ => simp [startsSolid, hc]

theorem ends_solid (h : Inline w) : ∃ c, w.getLast? = some c ∧ isBlank c = false := by
  induction h with
  | @single c hc => exact ⟨c, rfl, hc⟩
  | solid _ ht ih =>
      obtain ⟨d, hd, hb⟩ := ih
      exact ⟨d, by rw [List.getLast?_cons, hd]; rfl, hb⟩
  | gap _ _ _ _ ht ih =>
      obtain ⟨d, hd, hb⟩ := ih
      exact ⟨d, by rw [List.getLast?_cons, List.getLast?_append, hd]; rfl, hb⟩

theorem not_allBlank (h : Inline w) : allBlank w = false := by
  cases h with
  | single hc => simp [allBlank_cons, hc]
  | solid hc _ => simp [allBlank_cons, hc]
  | gap hc _ _ _ _ => simp [allBlank_cons, hc]

theorem lf_notMem (h : Inline w) : Byte.lf ∉ w := by
  induction h with
  | single hc => simpa using (ne_lf hc).symm
  | solid hc _ ih => simpa [ih] using (ne_lf hc).symm
  | gap hc _ _ hm _ ih => simpa [ih, hm] using (ne_lf hc).symm

theorem unwords_cons (h : Inline w) {c : UInt8} (hc : isBlank c = false) :
    unwords (words (c :: w)) = c :: unwords (words w) := by
  have hne : words w ≠ [] := by simp [words_eq_nil, h.not_allBlank]
  obtain ⟨v, vs, hv⟩ := List.exists_cons_of_ne_nil hne
  rw [words_cons_solid hc, if_neg (by simp [h.ne_nil, h.starts_solid]), hv]
  cases vs <;> simp [unwords]

theorem unwords_gap (h : Inline w) {c : UInt8} {m : Bytes} (hc : isBlank c = false) (hm : m ≠ [])
    (hb : allBlank m = true) :
    unwords (words (c :: (m ++ w))) = c :: Byte.space :: unwords (words w) := by
  have hne : words w ≠ [] := by simp [words_eq_nil, h.not_allBlank]
  obtain ⟨v, vs, hv⟩ := List.exists_cons_of_ne_nil hne
  have hstart : startsSolid (m ++ w) = false := by
    obtain ⟨d, m, rfl⟩ := List.exists_cons_of_ne_nil hm
    simp only [allBlank_cons, Bool.and_eq_true] at hb
    simp [startsSolid, hb.1]
  rw [words_cons_solid hc, if_pos (.inr hstart), words_blank hb, hv]
  simp [unwords]

theorem unwords_single {c : UInt8} (hc : isBlank c = false) : unwords (words [c]) = [c] := by
  simp [words_cons_solid hc, words_nil, unwords]

theorem unwords_ne_nil (h : Inline w) : unwords (words w) ≠ [] := by
  cases h with
  | single hc => simp [unwords_single hc]
  | solid hc ht => simp [ht.unwords_cons hc]
  | gap hc hm hb _ ht => simp [ht.unwords_gap hc hm hb]

theorem linePieces (h : Inline w) (line u : Bytes) :
    Document.linePieces line (runs (w ++ u)) =
      Document.linePieces (line ++ unwords (words w)) (runs u) := by
  induction h generalizing line with
  | @single c hc =>
      rw [unwords_single hc]
      exact linePieces_solid hc line u
  | @solid c t hc ht ih =>
      rw [List.cons_append, linePieces_solid hc, ih, ht.unwords_cons hc]
      simp
  | @gap c m t hc hm hb hlf ht ih =>
      have hu : startsSolid (t ++ u) = true := by
        rw [startsSolid_append ht.ne_nil]
        exact ht.starts_solid
      have hgap := linePieces_blank hm hb hu (line ++ [c])
      rw [if_neg (by simp [hlf, ht.ne_nil])] at hgap
      rw [List.cons_append, linePieces_solid hc, List.append_assoc, hgap, ih, ht.unwords_gap hc hm hb]
      simp

end Inline

theorem linePieces_endsLine {line u : Bytes} (hu : EndsLine u) :
    linePieces line (runs u) = textPieces line ++ linePieces [] (runs u) := by
  have hnil : textPieces [] = [] := rfl
  cases u using blank_induction with
  | nil => simp [runs, linePieces, hnil]
  | solid c t hc _ =>
      simp [EndsLine, ne_lf hc, allBlank_cons, hc] at hu
  | blank m t hm hb ht _ =>
      have hcut : t = [] ∨ Byte.lf ∈ m := by
        cases t with
        | nil => exact .inl rfl
        | cons c t =>
            have hc : isBlank c = false := by simpa [startsSolid] using ht
            refine .inr (Decidable.byContradiction fun hlf => ?_)
            rw [EndsLine, takeWhile_append_of_lf_notMem hlf] at hu
            simp [ne_lf hc, allBlank_append, allBlank_cons, hc] at hu
      rw [linePieces_blank hm hb ht, linePieces_blank hm hb ht, if_pos (.inr hcut), if_pos (.inr hcut)]
      simp [hnil]

theorem EndsLine.of_blank {m t : Bytes} (hm : allBlank m = true) (h : Byte.lf ∈ m ∨ t = []) :
    EndsLine (m ++ t) := by
  induction m with
  | nil =>
      rw [h.resolve_left (by simp)]
      rfl
  | cons c m ih =>
      simp only [allBlank_cons, Bool.and_eq_true] at hm
      by_cases hc : c = Byte.lf
      · simp [EndsLine, hc, allBlank]
      · have := ih hm.2 (by simpa [Ne.symm hc] using h)
        simpa [EndsLine, hc, allBlank_cons, hm.1] using this

def Cut (t : Bytes) : Prop :=
  ∃ w u, t = w ++ u ∧ Inline w ∧ EndsLine u

theorem cut_of_solid (t : Bytes) :
    (t ≠ [] → startsSolid t = true → Cut t) ∧ ∀ c, isBlank c = false → Cut (c :: t) := by
  induction t using blank_induction with
  | nil => exact ⟨by simp, fun c hc => ⟨[c], [], rfl, .single hc, rfl⟩⟩
  | solid d t hd ih =>
      refine ⟨fun _ _ => ih.2 d hd, fun c hc => ?_⟩
      obtain ⟨w, u, h, hw, hu⟩ := ih.2 d hd
      exact ⟨c :: w, u, by rw [h]; rfl, .solid hc hw, hu⟩
  | blank m t hm hb ht ih =>
      constructor
      · intro _ hs
        obtain ⟨d, m, rfl⟩ := List.exists_cons_of_ne_nil hm
        simp only [allBlank_cons, Bool.and_eq_true] at hb
        simp [startsSolid, hb.1] at hs
      · intro c hc
        by_cases hend : Byte.lf ∈ m ∨ t = []
        · exact ⟨[c], m ++ t, rfl, .single hc, .of_blank hb hend⟩
        · obtain ⟨hlf, hne⟩ := not_or.1 hend
          obtain ⟨w, u, h, hw, hu⟩ := ih.1 hne ht
          exact ⟨c :: (m ++ w), u, by rw [h]; simp, .gap hc hm hb hlf hw, hu⟩

theorem line_induction {P : Bytes → Prop} (blank : ∀ m, allBlank m = true → P m)
    (line : ∀ m w u, allBlank m = true → Inline w → EndsLine u → P u → P (m ++ (w ++ u))) (t : Bytes) :
    P t := by
  have hm : allBlank (t.takeWhile isBlank) = true := List.all_takeWhile
  have ht : t.takeWhile isBlank ++ t.dropWhile isBlank = t := List.takeWhile_append_dropWhile
  cases hd : t.dropWhile isBlank with
  | nil =>
      rw [hd, List.append_nil] at ht
      exact ht ▸ blank _ hm
  | cons c r =>
      have hc : isBlank c = false := by
        have := List.head?_dropWhile_not isBlank t
        rw [hd] at this
        simpa using this
      obtain ⟨w, u, h, hw, hu⟩ := (cut_of_solid r).2 c hc
      rw [← ht, hd, h]
      have hlt : u.length < t.length := by
        rw [← ht, hd, h, List.length_append, List.length_append]
        have := List.length_pos_iff.2 hw.ne_nil
        omega
      exact line _ w u hm hw hu (line_induction blank line u)
termination_by t.length

theorem dropEndWhile_append_of_solid (m : Bytes) {t : Bytes} (ht : allBlank t = false) :
    dropEndWhile isBlank (m ++ t) = m ++ dropEndWhile isBlank t := by
  have hne : t.reverse.dropWhile isBlank ≠ [] := by
    intro h
    have hall := List.takeWhile_append_dropWhile (p := isBlank) (l := t.reverse)
    rw [h, List.append_nil] at hall
    have hrev : allBlank t.reverse = true := hall ▸ List.all_takeWhile
    rw [allBlank, List.all_reverse] at hrev
    exact Bool.false_ne_true (ht.symm.trans hrev)
  simp [dropEndWhile, List.dropWhile_append, hne]

theorem placeLines_cons_blank {c : UInt8} (hc : isBlank c = true) (start : Nat) (t : Bytes) :
    placeText start (c :: t) = placeText (start + 1) t := by
  simp only [placeText, lines, split]
  by_cases hlf : c = Byte.lf
  · simp [hlf, placeLines, allBlank]
  · obtain ⟨l, ls, h⟩ := List.exists_cons_of_ne_nil (split_ne_nil Byte.lf t)
    have hblank : allBlank (c :: l) = allBlank l := by rw [allBlank_cons, hc, Bool.true_and]
    have hnext : start + (l.length + 1) + 1 = start + 1 + l.length + 1 := by omega
    rw [if_neg hlf, h, List.modifyHead_cons, placeLines, placeLines, hblank, words_cons_blank hc,
      List.length_cons, hnext]
    cases hl : allBlank l with
    | true => rfl
    | false =>
        have htake : (c :: l).takeWhile isBlank = c :: l.takeWhile isBlank := by
          rw [List.takeWhile_cons, if_pos hc]
        have hdrop : dropEndWhile isBlank (c :: l) = c :: dropEndWhile isBlank l :=
          dropEndWhile_append_of_solid [c] hl
        simp only [htake, hdrop, List.length_cons]
        congr 5 <;> omega

theorem placeText_blank {m : Bytes} (hm : allBlank m = true) (t : Bytes) : ∀ start,
    placeText start (m ++ t) = placeText (start + m.length) t := by
  induction m with
  | nil => exact fun start => rfl
  | cons c m ih =>
      intro start
      simp only [allBlank_cons, Bool.and_eq_true] at hm
      rw [List.cons_append, placeLines_cons_blank hm.1, ih hm.2, List.length_cons, Nat.add_right_comm,
        Nat.add_assoc]

theorem lines_append {w : Bytes} (hw : Byte.lf ∉ w) (u : Bytes) :
    lines (w ++ u) = (lines u).modifyHead (w ++ ·) := by
  obtain ⟨l, ls, h⟩ := List.exists_cons_of_ne_nil (split_ne_nil Byte.lf u)
  induction w with
  | nil => simp [lines, h]
  | cons c w ih =>
      simp only [List.mem_cons, not_or] at hw
      have ih := ih hw.2
      simp only [lines, List.cons_append, split, if_neg (Ne.symm hw.1)] at ih ⊢
      rw [ih, h]
      rfl

theorem head?_lines (u : Bytes) : (lines u).head? = some (u.takeWhile (· ≠ Byte.lf)) := by
  induction u with
  | nil => rfl
  | cons c u ih =>
      obtain ⟨l, ls, h⟩ := List.exists_cons_of_ne_nil (split_ne_nil Byte.lf u)
      by_cases hc : c = Byte.lf
      · simp [lines, split, hc]
      · simp only [lines, split, h, hc, List.head?_cons, Option.some.injEq] at ih ⊢
        simp [hc, ih]

theorem placeText_inline {w u : Bytes} (hw : Inline w) (hu : EndsLine u) (start : Nat) :
    placeText start (w ++ u) =
      ⟨⟨start, start + w.length⟩, .text (unwords (words w))⟩ :: placeText (start + w.length) u := by
  obtain ⟨l, ls, h⟩ := List.exists_cons_of_ne_nil (split_ne_nil Byte.lf u)
  have hlines : lines u = l :: ls := h
  have hl : allBlank l = true := by
    have := head?_lines u
    rw [hlines, List.head?_cons, Option.some.injEq] at this
    rw [this]
    exact hu
  have hblank : allBlank (w ++ l) = false := by rw [allBlank_append, hw.not_allBlank, Bool.false_and]
  have htake : (w ++ l).takeWhile isBlank = [] := by
    cases hw with
    | single hc => simp [hc]
    | solid hc _ => simp [hc]
    | gap hc _ _ _ _ => simp [hc]
  have hdrop : dropEndWhile isBlank (w ++ l) = w := by
    obtain ⟨c, hc, hs⟩ := hw.ends_solid
    have hrev : ∀ d ∈ l.reverse, isBlank d = true := fun d hd =>
      List.all_eq_true.1 hl d (List.mem_reverse.1 hd)
    have hlast : w.reverse.dropWhile isBlank = w.reverse := by
      rw [List.getLast?_eq_head?_reverse] at hc
      obtain ⟨r, hr⟩ := List.head?_eq_some_iff.1 hc
      rw [hr, List.dropWhile_cons, if_neg (by simp [hs])]
    rw [dropEndWhile, List.reverse_append, List.dropWhile_append_of_pos hrev, hlast, List.reverse_reverse]
  have hwords : words (w ++ l) = words w := by
    cases l with
    | nil => rw [List.append_nil]
    | cons d l =>
        have := words_append_blank (by simp) hl w []
        simpa [words_nil] using this
  have hnext : start + (w ++ l).length + 1 = start + w.length + l.length + 1 := by
    rw [List.length_append]
    omega
  rw [placeText, placeText, lines_append hw.lf_notMem, hlines, List.modifyHead_cons, placeLines,
    placeLines, hblank, hl, htake, hdrop, hwords, hnext]
  simp

theorem placeText_of_blank {m : Bytes} (hm : allBlank m = true) (start : Nat) :
    placeText start m = [] := by
  have := placeText_blank hm [] start
  rw [List.append_nil] at this
  rw [this]
  rfl

theorem EndsLine.append_blank {u m : Bytes} (hu : EndsLine u) (hm : allBlank m = true) :
    EndsLine (u ++ m) := by
  rw [EndsLine, allBlank, List.all_eq_true] at hu ⊢
  rw [allBlank, List.all_eq_true] at hm
  intro c hc
  rw [List.takeWhile_append] at hc
  split at hc
  · next hlen =>
      rw [(List.takeWhile_prefix _).eq_of_length hlen] at hu
      rcases List.mem_append.1 hc with hc | hc
      · exact hu c hc
      · exact hm c ((List.takeWhile_sublist _).subset hc)
  · exact hu c hc

theorem placeText_append_blank {m : Bytes} (hm : allBlank m = true) (t : Bytes) : ∀ start,
    placeText start (t ++ m) = placeText start t := by
  induction t using line_induction with
  | blank n hn =>
      intro start
      have hall : allBlank (n ++ m) = true := by rw [allBlank_append, hn, hm]; rfl
      rw [placeText_of_blank hall, placeText_of_blank hn]
  | line n w u hn hw hu ih =>
      intro start
      rw [List.append_assoc, List.append_assoc, placeText_blank hn, placeText_blank hn,
        placeText_inline hw (hu.append_blank hm), placeText_inline hw hu, ih]

section Weave

variable {src : Source}

def gapPieces (src : Source) (gap : Span) : List Piece :=
  spacePieces (src.slice gap.start gap.stop)

theorem linePieces_eq_weave (t : Bytes) : ∀ {start stop : Nat}, src.slice start stop = t →
    stop = start + t.length →
    linePieces [] (runs t) = weave (gapPieces src) start stop (placeText start t) := by
  have hblank : ∀ m v : Bytes, allBlank m = true → startsSolid v = true →
      linePieces [] (runs (m ++ v)) = spacePieces m ++ linePieces [] (runs v) := by
    intro m v hm hv
    cases m with
    | nil => rfl
    | cons c m =>
        rw [linePieces_blank (by simp) hm hv, if_pos (.inl rfl)]
        rfl
  induction t using line_induction with
  | blank m hm =>
      intro start stop hs _
      have hnil := hblank m [] hm rfl
      rw [List.append_nil] at hnil
      rw [placeText_of_blank hm, hnil]
      simp [weave, gapPieces, hs, runs, linePieces, textPieces]
  | line m w u hm hw hu ih =>
      intro start stop hs hstop
      obtain ⟨hsm, hswu⟩ := Source.slice_of_append hs
      obtain ⟨-, hsu⟩ := Source.slice_of_append hswu
      have hlen : stop = start + m.length + w.length + u.length := by
        rw [hstop, List.length_append, List.length_append]
        omega
      have hsolid : startsSolid (w ++ u) = true := by
        rw [startsSolid_append hw.ne_nil]
        exact hw.starts_solid
      have htext : textPieces (unwords (words w)) = [.content (.text (unwords (words w)))] :=
        if_neg hw.unwords_ne_nil
      -- the whitespace before the line, the line itself, and the rest, which starts with no line so far
      rw [hblank m (w ++ u) hm hsolid, hw.linePieces, List.nil_append, linePieces_endsLine hu, htext,
        ih hsu hlen, placeText_blank hm, placeText_inline hw hu, weave, gapPieces, hsm]
      rfl

def Strung (src : Source) (start stop : Nat) : List PlacedNode → Prop
  | [] => start ≤ stop ∧ allBlank (src.slice start stop) = true
  | n :: ns =>
      start ≤ n.place.start ∧ n.place.start < n.place.stop ∧
        allBlank (src.slice start n.place.start) = true ∧ Strung src n.place.stop stop ns

theorem strung_placeText (t : Bytes) : ∀ {start stop : Nat}, src.slice start stop = t →
    stop = start + t.length → Strung src start stop (placeText start t) := by
  induction t using line_induction with
  | blank m hm =>
      intro start stop hs hstop
      rw [placeText_of_blank hm]
      exact ⟨by omega, hs ▸ hm⟩
  | line m w u hm hw hu ih =>
      intro start stop hs hstop
      obtain ⟨hsm, hswu⟩ := Source.slice_of_append hs
      obtain ⟨-, hsu⟩ := Source.slice_of_append hswu
      have hlen : stop = start + m.length + w.length + u.length := by
        rw [hstop, List.length_append, List.length_append]
        omega
      rw [placeText_blank hm, placeText_inline hw hu]
      refine ⟨Nat.le_add_right _ _, ?_, ?_, ih hsu hlen⟩
      · exact Nat.lt_add_of_pos_right (List.length_pos_iff.2 hw.ne_nil)
      · rw [hsm]
        exact hm

end Weave

end MarkupFormat.Document
