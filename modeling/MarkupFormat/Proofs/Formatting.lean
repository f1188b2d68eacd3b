import MarkupFormat.Format
import MarkupFormat.Proofs.Sources

namespace MarkupFormat.Document

open Bytes Layout

theorem attributeText_unplaced (ctx : Context) (a : Attribute Location) :
    attributeText ctx { a with place := .start } = attributeText ctx a := by
  cases a with
  | mk name kind value place => cases kind <;> rfl

theorem attributeTexts_unplaced (ctx : Context) (tag : Tag) :
    attributeTexts ctx tag.unplaced = attributeTexts ctx tag := by
  simp [attributeTexts, Tag.unplaced, attributeText_unplaced]

section Tag

variable {ctx : Context} (depth : Nat) {tag tag' : Tag} (hn : tag.name = tag'.name)
  (hs : tag.selfClosing = tag'.selfClosing) (ha : attributeTexts ctx tag = attributeTexts ctx tag')
include hn hs ha

theorem oneLine_congr : oneLine ctx tag = oneLine ctx tag' := by
  simp only [oneLine, tagHead, inlineEnd, tagEnd, hn, hs, ha]

theorem tagShape_congr : tagShape ctx depth tag = tagShape ctx depth tag' := by
  simp only [tagShape, exceedsLine, oneLine_congr hn hs ha, ha]
  rfl

theorem openTag_congr : openTag ctx depth tag = openTag ctx depth tag' := by
  have hone := oneLine_congr hn hs ha
  have hshape := tagShape_congr depth hn hs ha
  simp only [openTag, hshape, hone, tagHead, inlineEnd, tagEnd, hn, hs, ha]

end Tag

theorem tagShape_unplaced (ctx : Context) (depth : Nat) (tag : Tag) :
    tagShape ctx depth tag.unplaced = tagShape ctx depth tag :=
  tagShape_congr depth rfl rfl (attributeTexts_unplaced ctx tag)

theorem openTag_unplaced (ctx : Context) (depth : Nat) (tag : Tag) :
    openTag ctx depth tag.unplaced = openTag ctx depth tag :=
  openTag_congr depth rfl rfl (attributeTexts_unplaced ctx tag)

theorem verbatimTag_unplaced (tag : Tag) : verbatimTag tag.unplaced = verbatimTag tag := by
  have hattr : ∀ a : Attribute Location,
      verbatimAttribute { a with place := .start } = verbatimAttribute a := by
    intro a
    cases a with
    | mk name kind value place => cases kind <;> rfl
  simp only [verbatimTag, tagHead, inlineEnd, tagEnd, Tag.unplaced, List.flatMap_map, hattr]
  rfl

mutual
theorem verbatim_unplaced (n : Node) : verbatim n.unplaced = verbatim n := by
  cases n with
  | marker p b => rfl
  | text t => rfl
  | expression raw location => rfl
  | element tag children =>
      rw [Node.unplaced, verbatim, verbatim, verbatimTag_unplaced, verbatimAll_unplacedAll children]
      rfl

theorem verbatimAll_unplacedAll (ns : List Node) : verbatimAll (unplacedAll ns) = verbatimAll ns := by
  cases ns with
  | nil => rfl
  | cons n ns =>
      rw [unplacedAll, verbatimAll, verbatimAll, verbatim_unplaced n, verbatimAll_unplacedAll ns]
end

mutual
theorem layoutNode_unplaced (ctx : Context) (depth : Nat) (n : Node) :
    layoutNode ctx depth n.unplaced = layoutNode ctx depth n := by
  cases n with
  | marker p b => rfl
  | text t => rfl
  | expression raw location => rfl
  | element tag children =>
      rw [Node.unplaced, layoutNode, layoutNode, verbatimAll_unplacedAll,
        layoutChildren_unplacedAll ctx depth children, openTag_unplaced]
      rfl

theorem layoutChildren_unplacedAll (ctx : Context) (depth : Nat) (ns : List Node) :
    layoutChildren ctx depth (unplacedAll ns) = layoutChildren ctx depth ns := by
  cases ns with
  | nil => rfl
  | cons n ns =>
      have hdepth : childDepth depth n.unplaced = childDepth depth n := by cases n <;> rfl
      rw [unplacedAll, layoutChildren, layoutChildren, hdepth, layoutNode_unplaced ctx _ n,
        layoutChildren_unplacedAll ctx depth ns]
end

theorem layout_unplacedAll (ctx : Context) (ns : List Node) :
    layout ctx (unplacedAll ns) = layout ctx ns := by
  have htop : ∀ n : Node, layoutTop ctx n.unplaced = layoutTop ctx n := by
    intro n
    cases n with
    | element tag children => exact layoutNode_unplaced ctx 0 (.element tag children)
    | marker p b => rfl
    | text t => rfl
    | expression raw location => rfl
  have hmark : ∀ n : Node, n.unplaced.isMarker = n.isMarker := by
    intro n
    cases n <;> rfl
  rw [layout, layout, unplacedAll_eq_map, List.all_map, List.flatMap_map]
  simp only [Function.comp_def, htop, hmark]

def Snippet.unplaced (s : Snippet) : Snippet :=
  { s with location := .start }

theorem snippets_tag_unplaced (tag : Tag) :
    tag.unplaced.snippets = tag.snippets.map Snippet.unplaced := by
  simp only [Tag.snippets, Tag.unplaced, List.filter_map, List.map_map]
  rfl

mutual
theorem nodeSnippets_unplaced (parent : Bytes) (n : Node) :
    nodeSnippets parent n.unplaced = (nodeSnippets parent n).map Snippet.unplaced := by
  cases n with
  | marker p b => rfl
  | text t => rfl
  | expression raw location => rfl
  | element tag children =>
      rw [Node.unplaced, nodeSnippets, nodeSnippets, List.map_append, snippets_tag_unplaced]
      have hs : tag.unplaced.sensitive = tag.sensitive := rfl
      have hn : tag.unplaced.name = tag.name := rfl
      rw [hs, hn]
      split
      · rfl
      · rw [snippetsIn_unplacedAll]

theorem snippetsIn_unplacedAll (parent : Bytes) (ns : List Node) :
    snippetsIn parent (unplacedAll ns) = (snippetsIn parent ns).map Snippet.unplaced := by
  cases ns with
  | nil => rfl
  | cons n ns =>
      rw [unplacedAll, snippetsIn, snippetsIn, List.map_append, nodeSnippets_unplaced,
        snippetsIn_unplacedAll]
end

theorem snippets_unplacedAll (ns : List Node) :
    snippets (unplacedAll ns) = (snippets ns).map Snippet.unplaced :=
  snippetsIn_unplacedAll [] ns

theorem forall_snippets_unplacedAll {Q : Bytes → Prop} (ns : List Node) :
    (∀ s ∈ snippets (unplacedAll ns), Q s.raw) ↔ ∀ s ∈ snippets ns, Q s.raw := by
  rw [snippets_unplacedAll, List.forall_mem_map]
  rfl

end MarkupFormat.Document

namespace MarkupFormat

open Bytes Document Layout Expression

theorem report?_eq_none {opts : Options} : opts.report? = none ↔ 1 ≤ opts.lineLength := by
  unfold Options.report?
  split <;> simp_all

theorem render_iff {f : Formatter} {opts : Options} {doc : List Node} {t : Bytes} :
    render f opts doc = .ok t ↔
      (∀ s ∈ snippets doc, ∃ v, f s.raw = .ok v) ∧ layout ⟨opts, shown f⟩ doc = t := by
  unfold render
  cases h : firstRefusal f (snippets doc) with
  | some p =>
      simp only [reduceCtorEq, false_iff, not_and]
      intro hall
      rw [firstRefusal_eq_none_iff.2 hall] at h
      cases h
  | none =>
      have hall := firstRefusal_eq_none_iff.1 h
      rw [Except.ok.injEq]
      exact ⟨fun ht => ⟨hall, ht⟩, And.right⟩

section Source

variable (src : Source) {ns : List Written.Node} (hread : Written.read src.content = .ok ns)
include hread

theorem read_raw : Raw.read src = .ok (Raw.locateAll 0 ns) := by
  rw [Raw.read, hread]
  rfl

theorem ofRaw?_iff {doc : List Node} :
    ofRaw? src (Raw.locateAll 0 ns) = .ok doc ↔
      Written.CoveredAll ns ∧ doc = ofRaw src (Raw.locateAll 0 ns) := by
  have hcov := Raw.defect?_locateAll src (Written.writeAll_read hread).symm
  unfold ofRaw?
  cases h : Raw.defect? src (Raw.locateAll 0 ns) with
  | some d =>
      simp only [reduceCtorEq, false_iff, not_and]
      intro hc
      rw [hcov.2 hc] at h
      cases h
  | none => simp [hcov.1 h, eq_comm]

theorem format_iff {f : Formatter} {opts : Options} {t : Bytes} :
    format f opts src (Raw.locateAll 0 ns) = .ok t ↔
      1 ≤ opts.lineLength ∧ Written.CoveredAll ns ∧
        (∀ s ∈ snippets (ofWritten ns), ∃ v, f s.raw = .ok v) ∧
        layout ⟨opts, shown f⟩ (ofWritten ns) = t := by
  have hdoc := unplaced_ofRaw src (Written.writeAll_read hread).symm
  have hsnip := forall_snippets_unplacedAll (Q := fun r => ∃ v, f r = .ok v)
    (ofRaw src (Raw.locateAll 0 ns))
  have hlay := layout_unplacedAll ⟨opts, shown f⟩ (ofRaw src (Raw.locateAll 0 ns))
  rw [hdoc] at hsnip hlay
  unfold format
  cases hr : opts.report? with
  | some r =>
      simp only [reduceCtorEq, false_iff, not_and]
      intro h
      rw [report?_eq_none.2 h] at hr
      cases hr
  | none =>
      have hopts := report?_eq_none.1 hr
      cases ho : ofRaw? src (Raw.locateAll 0 ns) with
      | error d =>
          simp only [reduceCtorEq, false_iff, not_and]
          intro _ hcov
          rw [(ofRaw?_iff src hread).2 ⟨hcov, rfl⟩] at ho
          cases ho
      | ok doc =>
          obtain ⟨hcov, rfl⟩ := (ofRaw?_iff src hread).1 ho
          simp only [hopts, hcov, true_and]
          rw [Written.mapError_ok, render_iff, hsnip, hlay]

end Source

end MarkupFormat
