import MarkupFormat.Proofs.Formatting
import MarkupFormat.Proofs.Unread

namespace MarkupFormat

open Bytes Document Layout Expression

def Report.unplaced (r : Report) : Report :=
  { r with location := .start }

def SameOutcome (x y : Except Report Bytes) : Prop :=
  x.mapError Report.unplaced = y.mapError Report.unplaced

def FormattedAlike (src : Source) (tree : List Raw.Node) (src' : Source) (tree' : List Raw.Node) :
    Prop :=
  ∀ f opts, SameOutcome (format f opts src tree) (format f opts src' tree') ∧
    formatCalls f opts src tree = formatCalls f opts src' tree'

theorem SameOutcome.ok {x y : Except Report Bytes} {t : Bytes} (h : SameOutcome x y) (hx : x = .ok t) :
    y = .ok t := by
  rw [hx] at h
  cases y with
  | ok u => exact h.symm
  | error r => cases h

theorem FormattedAlike.ok {src src' : Source} {tree tree' : List Raw.Node} {f : Formatter} {opts : Options}
    {t : Bytes} (h : FormattedAlike src tree src' tree') (ht : format f opts src tree = .ok t) :
    format f opts src' tree' = .ok t :=
  (h f opts).1.ok ht

section Formatter

variable (f : Formatter) (opts : Options)

theorem firstRefusal_unplaced (ss : List Snippet) :
    firstRefusal f (ss.map Snippet.unplaced) =
      (firstRefusal f ss).map fun p => (p.1.unplaced, p.2) := by
  induction ss with
  | nil => rfl
  | cons s ss ih =>
      have hraw : s.unplaced.raw = s.raw := rfl
      rw [List.map_cons, firstRefusal, firstRefusal, hraw]
      cases f s.raw with
      | error message => rfl
      | ok t => exact ih

theorem calls_unplaced (ss : List Snippet) : calls f (ss.map Snippet.unplaced) = calls f ss := by
  induction ss with
  | nil => rfl
  | cons s ss ih =>
      have hraw : s.unplaced.raw = s.raw := rfl
      rw [List.map_cons, calls, calls, hraw, ih]

theorem render_unplacedAll (nodes : List Node) :
    render f opts (unplacedAll nodes) = (render f opts nodes).mapError Report.unplaced := by
  unfold render
  rw [snippets_unplacedAll, firstRefusal_unplaced, layout_unplacedAll]
  cases firstRefusal f (snippets nodes) with
  | none => rfl
  | some p => rfl

theorem layout_of_tail (ctx : Context) (b c : Bool) (rest : List Node) :
    layout ctx (.marker .documentStart b :: rest) = layout ctx (.marker .documentStart c :: rest) :=
  rfl

end Formatter

structure SameDocument (ns ns' : List Written.Node) : Prop where
  covered : Written.CoveredAll ns ↔ Written.CoveredAll ns'
  tail : (ofWritten ns).tail = (ofWritten ns').tail

section Formatted

variable {src src' : Source} {ns ns' : List Written.Node}

theorem snippets_ofWritten (ns : List Written.Node) :
    snippets (ofWritten ns) = snippets (ofWritten ns).tail := by
  obtain ⟨b, rest, hdoc⟩ := ofWritten_eq_cons ns
  rw [hdoc]
  rfl

theorem SameDocument.snippets (h : SameDocument ns ns') :
    snippets (ofWritten ns) = snippets (ofWritten ns') := by
  rw [snippets_ofWritten, snippets_ofWritten ns', h.tail]

theorem SameDocument.render (h : SameDocument ns ns') (f : Formatter) (opts : Options) :
    render f opts (ofWritten ns) = render f opts (ofWritten ns') := by
  obtain ⟨b, rest, hdoc⟩ := ofWritten_eq_cons ns
  obtain ⟨c, rest', hdoc'⟩ := ofWritten_eq_cons ns'
  have htail : rest = rest' := by simpa [hdoc, hdoc'] using h.tail
  have hsnippets := h.snippets
  rw [hdoc, hdoc', htail] at hsnippets ⊢
  unfold MarkupFormat.render
  rw [hsnippets, layout_of_tail _ b c]

theorem ofRaw?_uncovered (hread : Written.read src.content = .ok ns) (hcov : ¬Written.CoveredAll ns) :
    ∃ o, ofRaw? src (Raw.locateAll 0 ns) = .error ⟨.uncovered, o, [Byte.hash]⟩ := by
  have hdefect := Raw.defect?_locateAll src (Written.writeAll_read hread).symm
  obtain ⟨hnone, -⟩ | ⟨⟨o, hsome⟩, -⟩ := Raw.findsUnread_locateAll hread
  · exact absurd (hdefect.1 hnone) hcov
  · exact ⟨o, by rw [ofRaw?, hsome]⟩

theorem mapError_inFile (file : Bytes) (x : Except Report Bytes) :
    (x.mapError (·.inFile file)).mapError Report.unplaced =
      (x.mapError Report.unplaced).mapError (·.inFile file) := by
  cases x <;> rfl

section Accepted

variable {opts : Options} (f : Formatter) (hread : Written.read src.content = .ok ns)
  (hopts : opts.report? = none) (hcov : Written.CoveredAll ns)
include hread hopts hcov

theorem format_unplaced :
    (format f opts src (Raw.locateAll 0 ns)).mapError Report.unplaced =
      (render f opts (ofWritten ns)).mapError (·.inFile src.name) := by
  rw [format, hopts, (ofRaw?_iff src hread).2 ⟨hcov, rfl⟩]
  simp only [mapError_inFile]
  rw [← render_unplacedAll, unplaced_ofRaw src (Written.writeAll_read hread).symm]

theorem formatCalls_ofWritten :
    formatCalls f opts src (Raw.locateAll 0 ns) = calls f (snippets (ofWritten ns)) := by
  rw [formatCalls, hopts, (ofRaw?_iff src hread).2 ⟨hcov, rfl⟩]
  simp only
  rw [← calls_unplaced, ← snippets_unplacedAll,
    unplaced_ofRaw src (Written.writeAll_read hread).symm]

end Accepted

theorem SameDocument.formattedAlike (h : SameDocument ns ns')
    (hread : Written.read src.content = .ok ns) (hread' : Written.read src'.content = .ok ns')
    (hname : src.name = src'.name) :
    FormattedAlike src (Raw.locateAll 0 ns) src' (Raw.locateAll 0 ns') := by
  intro f opts
  cases hopts : opts.report? with
  | some r => simp [SameOutcome, format, formatCalls, hopts, hname]
  | none =>
      by_cases hcov : Written.CoveredAll ns
      · have hcov' := h.covered.1 hcov
        constructor
        · rw [SameOutcome, format_unplaced f hread hopts hcov, format_unplaced f hread' hopts hcov',
            h.render, hname]
        · rw [formatCalls_ofWritten f hread hopts hcov, formatCalls_ofWritten f hread' hopts hcov',
            h.snippets]
      · obtain ⟨o, ho⟩ := ofRaw?_uncovered hread hcov
        obtain ⟨o', ho'⟩ := ofRaw?_uncovered hread' (mt h.covered.2 hcov)
        simp only [SameOutcome, format, formatCalls, hopts, ho, ho', and_true]
        simp only [Except.mapError, Raw.Defect.report, Report.unplaced, hname]
        rfl

theorem SameDocument.read (h : SameDocument ns ns') (hread : Written.read src.content = .ok ns)
    {content : Bytes} (hread' : Written.read content = .ok ns') :
    ∃ tree', Raw.read ⟨src.name, content⟩ = .ok tree' ∧
      FormattedAlike src (Raw.locateAll 0 ns) ⟨src.name, content⟩ tree' :=
  ⟨_, Raw.read_eq_ok.2 ⟨_, hread', rfl⟩, h.formattedAlike hread hread' rfl⟩

end Formatted

end MarkupFormat
