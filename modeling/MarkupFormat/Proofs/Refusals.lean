import MarkupFormat.Proofs.Answers
import MarkupFormat.Proofs.Locations
import MarkupFormat.Proofs.Occurrences

namespace MarkupFormat

open Bytes Document Layout Expression

structure Report.PointsAt (r : Report) (src : Source) (q : Raw.Occurrence) : Prop where
  file : r.file = src.name
  location : r.location = src.location r.location.offset.toNat
  child : ∀ parent span inner, q = .child parent span inner →
    openDelimiter ++ r.snippet ++ closeDelimiter <+: src.content.drop r.location.offset.toNat
  value : ∀ element a, q = .value element a →
    (a.kind = .expression ∧
      r.attributeName ++ Byte.equals :: openDelimiter ++ r.snippet ++ closeDelimiter <+:
        src.content.drop r.location.offset.toNat) ∨
    (a.kind = .integer ∧
      r.attributeName ++ Byte.equals :: r.snippet <+: src.content.drop r.location.offset.toNat)

section Refused

variable {f : Formatter} {opts : Options} {src : Source} {tree : List Raw.Node} {r : Report}

def Raw.Occurrence.report (src : Source) (q : Raw.Occurrence) (message : Bytes) : Report :=
  (refusalReport (q.snippet src) message).inFile src.name

theorem code_of_options (h : opts.report? = some r) : r.code = ascii "O001" := by
  unfold Options.report? at h
  split at h
  · cases h
  · cases h
    rfl

theorem code_of_defect (d : Raw.Defect) : (d.report src).code ≠ ascii "F001" := by
  change d.flaw.code ≠ _
  cases d.flaw <;> decide

theorem render_of_format (h : format f opts src tree = .error r) (hcode : r.code = ascii "F001") :
    (render f opts (ofRaw src tree)).mapError (·.inFile src.name) = .error r := by
  unfold format at h
  cases hopts : opts.report? with
  | some o =>
      rw [hopts] at h
      cases h
      have hother : o.code = ascii "F001" := hcode
      rw [code_of_options hopts] at hother
      exact absurd hother (by decide)
  | none =>
      rw [hopts, ofRaw?] at h
      cases hdefect : Raw.defect? src tree with
      | some d =>
          rw [hdefect] at h
          cases h
          exact absurd hcode (code_of_defect d)
      | none =>
          rw [hdefect] at h
          exact h

theorem refused_of_render (h : (render f opts (ofRaw src tree)).mapError (·.inFile src.name) = .error r) :
    ∃ before q after message, Raw.occurrencesIn [] tree = before ++ q :: after ∧
      (∀ p ∈ before, ∃ t, f (p.raw src) = .ok t) ∧ f (q.raw src) = .error message ∧
      r = q.report src message := by
  obtain hall | ⟨before, s, after, message, hsplit, hbefore, hs⟩ :=
    accepted_or_refused f (snippets (ofRaw src tree))
  · rw [render_iff.2 ⟨hall, rfl⟩] at h
    cases h
  · rw [render, hsplit, firstRefusal_refused hbefore hs] at h
    rw [Raw.snippets_ofRaw] at hsplit
    obtain ⟨before, rest, hoccurrences, rfl, hrest⟩ := List.map_eq_append_iff.1 hsplit
    obtain ⟨q, after, rfl, rfl, -⟩ := List.map_eq_cons_iff.1 hrest
    refine ⟨before, q, after, message, hoccurrences, fun p hp => ?_, ?_, ?_⟩
    · rw [← Raw.Occurrence.raw_snippet]
      exact hbefore _ (List.mem_map_of_mem hp)
    · rw [← Raw.Occurrence.raw_snippet]
      exact hs
    · cases h
      rfl

theorem pointsAt_report {q : Raw.Occurrence} (message : Bytes) (h : q.StandsIn src)
    (hoffset : q.offset < src.length) (hsize : src.length < UInt32.size) :
    (q.report src message).location.offset.toNat = q.offset ∧ (q.report src message).PointsAt src q := by
  have hlocation : (q.report src message).location = src.location q.offset := q.location_snippet src
  have hplace : (q.report src message).location.offset.toNat = q.offset := by
    rw [hlocation]
    exact (src.toNat_location (Nat.le_of_lt hoffset) (by omega)).2.2
  refine ⟨hplace, rfl, by rw [hplace, hlocation], ?_, ?_⟩
  · rintro parent span inner rfl
    rw [hplace]
    exact h
  · rintro element a rfl
    rw [hplace]
    exact h

end Refused

-- A report on a refused snippet of a text that has been read points at the first one that is refused,
-- and all before it in the text are not.
theorem report_points_at_refused {f : Formatter} {opts : Options} {src : Source} {tree : List Raw.Node}
    {r : Report} (hsize : src.length < UInt32.size) (hread : Raw.read src = .ok tree)
    (h : format f opts src tree = .error r) (hcode : r.code = ascii "F001") :
    ∃ before q after message, Raw.occurrencesIn [] tree = before ++ q :: after ∧
      f (q.raw src) = .error message ∧ r = (refusalReport (q.snippet src) message).inFile src.name ∧
      r.snippet = q.raw src ∧ r.location.offset.toNat = q.offset ∧ r.PointsAt src q ∧
      (∀ p ∈ before, p.offset < r.location.offset.toNat ∧ ∃ t, f (p.raw src) = .ok t) ∧
      ∀ p ∈ after, r.location.offset.toNat < p.offset := by
  obtain ⟨before, q, after, message, hsplit, hbefore, hrefused, rfl⟩ :=
    refused_of_render (render_of_format h hcode)
  have hstanding := Raw.standing_of_read hread
  rw [hsplit] at hstanding
  have hq : q ∈ before ++ q :: after := by simp
  obtain ⟨hplace, hpoints⟩ := pointsAt_report message (hstanding.stands q hq) (hstanding.inside q hq).2 hsize
  obtain ⟨-, hafter, hcross⟩ := List.pairwise_append.1 hstanding.ordered
  refine ⟨before, q, after, message, hsplit, hrefused, rfl, q.raw_snippet src, hplace, hpoints, ?_, ?_⟩
  · intro p hp
    rw [hplace]
    exact ⟨hcross p hp q List.mem_cons_self, hbefore p hp⟩
  · rw [hplace]
    exact (List.pairwise_cons.1 hafter).1

def counted : Source :=
  ⟨ascii "page", [195, 169, 10] ++ ascii "<p a=\x7b\x7bok\x7d\x7d n=12>\x7b\x7b bad \x7d\x7d</p>"⟩

def countedTree : List Raw.Node :=
  [.text ⟨0, 3⟩,
    .element ⟨3, 33⟩
      ⟨ascii "p",
        [⟨ascii "a", .expression, ascii "ok", ⟨6, 14⟩⟩, ⟨ascii "n", .integer, ascii "12", ⟨15, 19⟩⟩],
        false, ⟨3, 20⟩, some ⟨29, 33⟩⟩
      [.interpolation ⟨20, 29⟩ ⟨22, 27⟩]]

theorem report_points_at_integer :
    counted.length < UInt32.size ∧ Raw.read counted = .ok countedTree ∧
      ∃ r, format (scripted [(ascii "12", ascii "odd"), (ascii " bad ", ascii "bad")] []) .default counted
          countedTree = .error r ∧
        r.code = ascii "F001" ∧ r.location = ⟨2, 13, 15⟩ ∧
        r.PointsAt counted (.value (ascii "p") ⟨ascii "n", .integer, ascii "12", ⟨15, 19⟩⟩) := by
  have hsize : counted.length < UInt32.size := by decide
  have hwritten : Written.read counted.content =
      .ok [.text [195, 169, 10],
        .element
          ⟨ascii "p",
            [⟨ascii " ", ascii "a", .expression (ascii "ok")⟩, ⟨ascii " ", ascii "n", .word (ascii "12")⟩],
            []⟩
          [.interpolation (ascii " bad ")]] := by
    refine Written.read_iff.2 ⟨rfl, ⟨by decide, by cbv⟩, ⟨⟨by cbv, rfl, by simp⟩, ?_⟩, trivial⟩
    exact ⟨⟨by cbv, rfl, by simp⟩, trivial⟩
  have hread : Raw.read counted = .ok countedTree := by
    rw [Raw.read, hwritten]
    rfl
  have hformat : format (scripted [(ascii "12", ascii "odd"), (ascii " bad ", ascii "bad")] []) .default
      counted countedTree = .error
        ((Raw.Occurrence.value (ascii "p") ⟨ascii "n", .integer, ascii "12", ⟨15, 19⟩⟩).report counted
          (ascii "odd")) := by
    rfl
  obtain ⟨before, q, after, message, hsplit, -, -, -, hplace, hpoints, -⟩ :=
    report_points_at_refused hsize hread hformat rfl
  have hall : Raw.occurrencesIn [] countedTree =
      [.value (ascii "p") ⟨ascii "a", .expression, ascii "ok", ⟨6, 14⟩⟩,
        .value (ascii "p") ⟨ascii "n", .integer, ascii "12", ⟨15, 19⟩⟩,
        .child (ascii "p") ⟨20, 29⟩ ⟨22, 27⟩] := rfl
  have hq : q ∈ Raw.occurrencesIn [] countedTree := by simp [hsplit]
  have hoffset : q.offset = 15 := hplace.symm
  have heq : q = .value (ascii "p") ⟨ascii "n", .integer, ascii "12", ⟨15, 19⟩⟩ := by
    simp only [hall, List.mem_cons, List.not_mem_nil, or_false] at hq
    rcases hq with rfl | rfl | rfl
    · exact absurd hoffset (by decide)
    · rfl
    · exact absurd hoffset (by decide)
  exact ⟨hsize, hread, _, hformat, rfl, rfl, heq ▸ hpoints⟩

end MarkupFormat
