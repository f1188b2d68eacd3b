import Mathlib.Data.List.Forall2
import MarkupFormat.Proofs.Hanging

namespace MarkupFormat.Bytes

open Layout

theorem split_eq_splitOn (sep : UInt8) (t : Bytes) : split sep t = t.splitOn sep := by
  induction t with
  | nil => rfl
  | cons c t ih => simp only [split, List.splitOn_cons_eq_if_modifyHead, beq_iff_eq, ih]

theorem lines_intercalate {ls : List Bytes} (hls : ∀ l ∈ ls, Byte.lf ∉ l) (hne : ls ≠ []) :
    lines ([Byte.lf].intercalate ls) = ls := by
  rw [lines, split_eq_splitOn, List.splitOn_intercalate Byte.lf hls hne]

def DropsReturn (l k : Bytes) : Prop :=
  l = k ++ [Byte.cr] ∨ l = k ∧ l.getLast? ≠ some Byte.cr

theorem dropsReturn_dropReturn (l : Bytes) : DropsReturn l (dropReturn l) := by
  unfold dropReturn
  split
  · next hlast => exact .inl (List.dropLast_append_getLast? Byte.cr hlast).symm
  · next hlast => exact .inr ⟨rfl, hlast⟩

theorem DropsReturn.lf_not_mem {l k : Bytes} (h : DropsReturn l k) (hl : Byte.lf ∉ l) : Byte.lf ∉ k := by
  rcases h with rfl | ⟨rfl, -⟩
  · exact fun hk => hl (List.mem_append_left _ hk)
  · exact hl

theorem lf_not_mem_indentLine {pad l : Bytes} (hpad : Byte.lf ∉ pad) (hl : Byte.lf ∉ l) :
    Byte.lf ∉ indentLine pad l := by
  unfold indentLine
  split
  · exact List.not_mem_nil
  · rw [List.mem_append, not_or]
    exact ⟨hpad, hl⟩

theorem lines_reindent {pad t l : Bytes} {ls : List Bytes} (hpad : Byte.lf ∉ pad) (h : lines t = l :: ls) :
    lines (reindent [Byte.lf] pad t) = dropReturn l :: ls.map fun l => indentLine pad (dropReturn l) := by
  have hdropped : ∀ m ∈ lines t, Byte.lf ∉ dropReturn m := fun m hm =>
    (dropsReturn_dropReturn m).lf_not_mem (separator_not_mem_of_mem_split hm)
  rw [h, List.forall_mem_cons] at hdropped
  obtain ⟨hfirst, hothers⟩ := hdropped
  have hlaid : reindent [Byte.lf] pad t =
      [Byte.lf].intercalate (dropReturn l :: ls.map fun l => indentLine pad (dropReturn l)) := by
    simp [reindent, h, Function.comp_def]
  rw [hlaid]
  refine lines_intercalate (List.forall_mem_cons.2 ⟨hfirst, ?_⟩) (List.cons_ne_nil _ _)
  intro m hm
  obtain ⟨k, hk, rfl⟩ := List.mem_map.1 hm
  exact lf_not_mem_indentLine hpad (hothers k hk)

-- Moving a text by `p` and then by `q` moves it by `q ++ p`, whichever way its lines end. A text with
-- line feeds keeps its lines: a carriage return at the end of a line goes, and each line but the first
-- and the empty ones stands behind the indentation.
theorem reindent_moves_lines :
    (∀ (newline : Newline) (p q t : Bytes), Flat p → Byte.cr ∉ t →
      reindent newline.text q (reindent newline.text p t) = reindent newline.text (q ++ p) t) ∧
    ∀ p t : Bytes, Byte.lf ∉ p →
      ∃ l ls m ms, lines t = l :: ls ∧ lines (reindent Newline.lf.text p t) = m :: ms ∧ DropsReturn l m ∧
        List.Forall₂ (fun l m => ∃ k, DropsReturn l k ∧ m = if k = [] then [] else p ++ k) ls ms := by
  constructor
  · intro newline p q t hp ht
    rw [reindent_eq_relay, reindent_eq_relay, reindent_eq_relay, relay_relay newline q hp ht]
  · intro p t hp
    obtain ⟨l, ls, h⟩ := List.exists_cons_of_ne_nil (split_ne_nil Byte.lf t)
    refine ⟨l, ls, _, _, h, lines_reindent hp h, dropsReturn_dropReturn l, ?_⟩
    rw [List.forall₂_map_right_iff, List.forall₂_same]
    exact fun l _ => ⟨dropReturn l, dropsReturn_dropReturn l, rfl⟩

theorem reindent_moves_lines_twice :
    Flat (ascii "  ") ∧ Byte.cr ∉ ascii "a\n\n b" ∧ Byte.lf ∉ ascii "\t" ∧
      reindent Newline.crlf.text (ascii "\t") (reindent Newline.crlf.text (ascii "  ") (ascii "a\n\n b")) =
        ascii "a\r\n\r\n\t   b" ∧
      ∃ m ms, lines (reindent Newline.lf.text (ascii "\t") (ascii "a\r\n\r\nb\r\r")) = m :: ms ∧
        DropsReturn (ascii "a\r") m ∧
        List.Forall₂ (fun l m => ∃ k, DropsReturn l k ∧ m = if k = [] then [] else ascii "\t" ++ k)
          [ascii "\r", ascii "b\r\r"] ms := by
  have hflat : Flat (ascii "  ") := by decide
  have hcr : Byte.cr ∉ ascii "a\n\n b" := by decide
  have hlf : Byte.lf ∉ ascii "\t" := by decide
  have htwice := reindent_moves_lines.1 .crlf (ascii "  ") (ascii "\t") (ascii "a\n\n b") hflat hcr
  obtain ⟨l, ls, m, ms, ht, hm, hl, hls⟩ := reindent_moves_lines.2 (ascii "\t") (ascii "a\r\n\r\nb\r\r") hlf
  have hlines : lines (ascii "a\r\n\r\nb\r\r") = [ascii "a\r", ascii "\r", ascii "b\r\r"] := by decide
  obtain ⟨rfl, rfl⟩ := List.cons.inj (ht.symm.trans hlines)
  exact ⟨hflat, hcr, hlf, htwice.trans (by decide), m, ms, hm, hl, hls⟩

end MarkupFormat.Bytes
