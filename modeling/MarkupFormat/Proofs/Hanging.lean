import MarkupFormat.Layout.Tree
import MarkupFormat.Proofs.Reindentation
import MarkupFormat.Proofs.Separators

namespace MarkupFormat.Bytes

open Layout

def hang (pad t : Bytes) : Bytes :=
  match lines t with
  | [] => []
  | l :: ls => [Byte.lf].intercalate (l :: ls.map (indentLine pad))

theorem dropReturn_of_not_mem {l : Bytes} (h : Byte.cr ∉ l) : dropReturn l = l := by
  rw [dropReturn, if_neg]
  intro hlast
  exact h (List.mem_of_getLast? hlast)

theorem reindent_eq_hang (pad : Bytes) {t : Bytes} (h : Byte.cr ∉ t) :
    reindent [Byte.lf] pad t = hang pad t := by
  have hlines : (lines t).map dropReturn = lines t := by
    refine (List.map_congr_left fun l hl => ?_).trans (List.map_id _)
    exact dropReturn_of_not_mem fun hcr => h (mem_of_mem_split hl hcr)
  obtain ⟨l, ls, hl⟩ : ∃ l ls, lines t = l :: ls :=
    List.exists_cons_of_ne_nil (split_ne_nil Byte.lf t)
  rw [hl] at hlines
  simp only [reindent, hang, hl, hlines]

theorem flat_indent (depth : Nat) : Flat (indent depth) := by
  intro c hc
  rw [List.eq_of_mem_replicate hc]
  decide

theorem lf_not_mem_indent (depth : Nat) : Byte.lf ∉ indent depth :=
  (flat_iff.1 (flat_indent depth)).1

theorem EndsInLine.append {t u : Bytes} (ht : EndsInLine t) (hu : EndsInLine u) :
    EndsInLine (t ++ u) := by
  cases u with
  | nil => rwa [List.append_nil]
  | cons c u =>
      obtain ⟨d, hd⟩ : ∃ d, (c :: u).getLast? = some d := ⟨_, List.getLast?_cons⟩
      rw [EndsInLine, hd] at hu
      rwa [EndsInLine, List.getLast?_append, hd]

theorem EndsInLine.append_left (t : Bytes) {u : Bytes} (hu : EndsInLine u) (hne : u ≠ []) :
    EndsInLine (t ++ u) := by
  obtain ⟨d, hd⟩ := Option.ne_none_iff_exists'.1 fun h => hne (List.getLast?_eq_none_iff.1 h)
  rw [EndsInLine, hd] at hu
  rwa [EndsInLine, List.getLast?_append, hd]

theorem Flat.endsInLine {t : Bytes} (h : Flat t) : EndsInLine t := by
  have hlast := flat_iff.1 h
  exact ⟨fun hl => hlast.1 (List.mem_of_getLast? hl), fun hl => hlast.2 (List.mem_of_getLast? hl)⟩

section Relay

variable {newline : Newline} {pad : Bytes}

theorem startsEmptyLine_lf (t : Bytes) : startsEmptyLine (Byte.lf :: t) = true := by
  cases t <;> rfl

theorem startsEmptyLine_cons {c : UInt8} (t : Bytes) (hlf : c ≠ Byte.lf) (hcr : c ≠ Byte.cr) :
    startsEmptyLine (c :: t) = false := by
  cases t <;> simp [startsEmptyLine, hlf, hcr]

theorem startsEmptyLine_flat {p t : Bytes} (hp : Flat p) (ht : startsEmptyLine t = false) :
    startsEmptyLine (p ++ t) = false := by
  cases p with
  | nil => exact ht
  | cons c p =>
      obtain ⟨hlf, hcr⟩ := (flat_cons.1 hp).1
      exact startsEmptyLine_cons _ hlf hcr

theorem startsEmptyLine_relay {t : Bytes} (h : Byte.cr ∉ t) :
    startsEmptyLine (relay newline.text pad t) = startsEmptyLine t := by
  cases t with
  | nil => rfl
  | cons c t =>
      obtain ⟨hcr, -⟩ := List.ne_and_not_mem_of_not_mem_cons h
      by_cases hlf : c = Byte.lf
      · subst hlf
        rw [relay_lf, startsEmptyLine_lf]
        cases newline with
        | lf => exact startsEmptyLine_lf _
        | crlf => rfl
      · rw [relay_cons hlf (Ne.symm hcr), startsEmptyLine_cons _ hlf (Ne.symm hcr),
          startsEmptyLine_cons _ hlf (Ne.symm hcr)]

theorem relay_newline (t : Bytes) : relay newline.text pad (newline.text ++ t) =
    newline.text ++ (if startsEmptyLine t then [] else pad) ++ relay newline.text pad t := by
  cases newline with
  | lf => exact relay_lf t
  | crlf => exact (relay_cr rfl).trans (relay_lf t)

variable (newline) in
theorem relay_relay {p : Bytes} (q : Bytes) (hp : Flat p) {t : Bytes} (h : Byte.cr ∉ t) :
    relay newline.text q (relay newline.text p t) = relay newline.text (q ++ p) t := by
  induction t with
  | nil => rfl
  | cons c t ih =>
      obtain ⟨hcr, ht⟩ := List.ne_and_not_mem_of_not_mem_cons h
      by_cases hlf : c = Byte.lf
      · subst hlf
        rw [relay_lf, relay_lf, List.append_assoc, relay_newline]
        cases hstart : startsEmptyLine t with
        | true =>
            have hempty : startsEmptyLine (relay newline.text p t) = true := by
              rw [startsEmptyLine_relay ht, hstart]
            simp [hempty, ih ht]
        | false =>
            have hfull : startsEmptyLine (p ++ relay newline.text p t) = false :=
              startsEmptyLine_flat hp (by rw [startsEmptyLine_relay ht, hstart])
            simp [hfull, relay_append_left hp, ih ht]
      · rw [relay_cons hlf (Ne.symm hcr), relay_cons hlf (Ne.symm hcr), relay_cons hlf (Ne.symm hcr),
          ih ht]

theorem returns_relay {t : Bytes} (hp : Flat pad) (h : Byte.cr ∉ t) :
    Byte.cr ∉ relay [Byte.lf] pad t := by
  induction t with
  | nil => exact h
  | cons c t ih =>
      obtain ⟨hcr, ht⟩ := List.ne_and_not_mem_of_not_mem_cons h
      by_cases hlf : c = Byte.lf
      · subst hlf
        have hpad : Byte.cr ∉ if startsEmptyLine t then [] else pad := by
          split
          · exact List.not_mem_nil
          · exact (flat_iff.1 hp).2
        rw [relay_lf, List.mem_append, List.mem_append]
        exact not_or.2 ⟨not_or.2 ⟨by decide, hpad⟩, ih ht⟩
      · rw [relay_cons hlf (Ne.symm hcr)]
        exact List.not_mem_cons_of_ne_of_not_mem hcr (ih ht)

theorem endsInLine_relay {nl t : Bytes} (hnl : nl ≠ []) (h : EndsInLine t) :
    EndsInLine (relay nl pad t) := by
  induction t with
  | nil => exact h
  | cons c t ih =>
      cases t with
      | nil =>
          have hc : c ≠ Byte.lf ∧ c ≠ Byte.cr := by simpa [EndsInLine] using h
          rwa [relay_cons hc.1 hc.2]
      | cons d t =>
          have hd := h.tail
          have hne : relay nl pad (d :: t) ≠ [] := relay_ne_nil hnl (List.cons_ne_nil d t) hd.2
          have ih := ih hd
          rw [relay]
          split
          · exact ih.append_left _ hne
          · split
            · exact ih
            · exact ih.append_left [c] hne

end Relay

end MarkupFormat.Bytes
