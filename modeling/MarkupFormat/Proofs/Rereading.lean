import MarkupFormat.Proofs.Flow

namespace MarkupFormat.Layout

open Bytes Document
open Written hiding Node

theorem reread_induction {ctx : Context} {S R : Bytes → Prop} {Q : Nat → Node → Node → Prop}
    (marker : ∀ d p b, Q d (.marker p b) (.marker p b)) (text : ∀ d t, Q d (.text t) (.text t))
    (expression : ∀ d raw location, R raw →
      Q d (.expression (innerText ctx d (ctx.shown raw)) .start) (.expression raw location))
    (element : ∀ d tag children, SoundTag S R tag →
      (tag.sensitive = true → rereadAll ctx (childDepth d) children = children) →
      (tag.sensitive = false → ∀ n ∈ children,
        Q (childDepth d n) (rereadNode ctx (childDepth d n) n) n) →
      Q d (.element (Tag.ofWritten (laidTag ctx d tag) tag.selfClosing)
        (rereadAll ctx (childDepth d) children)) (.element tag children))
    {n : Node} (h : Sound S R n) : ∀ d, Q d (rereadNode ctx d n) n := by
  induction h with
  | marker p b => exact fun d => marker d p b
  | text _ _ => exact fun d => text d _
  | expression location hr => exact fun d => expression d _ location hr
  | selfClosed ht _ => exact fun d => element d _ _ ht (fun _ => rfl) (by simp)
  | verbatim ht _ _ hv _ =>
      exact fun d => element d _ _ ht (fun _ => rereadAll_verbatimText ..) (by simp [hv])
  | hollow ht _ _ hv hc =>
      refine fun d => element d _ _ ht (by simp [hv]) fun _ => ?_
      rcases hc with rfl | ⟨b, rfl⟩
      · simp
      · simpa [rereadNode] using marker _ _ b
  | sensitive ht _ _ hv _ =>
      exact fun d => element d _ _ ht (fun _ => rereadAll_verbatimText ..) (by simp [hv])
  | element ht _ _ hv _ _ _ ih =>
      exact fun d => element d _ _ ht (by simp [hv]) fun _ n hn => ih n hn _

structure SoundDocument (S R : Bytes → Prop) (rest : List Node) : Prop where
  sound : ∀ n ∈ rest, Sound S R n
  apart : MarkersApart rest
  first : ∀ n ∈ rest.head?, n.isMarker = false
  last : ∀ n ∈ rest.getLast?, n.isMarker = false
  between : ∀ p b, Document.Node.marker p b ∈ rest → p = .betweenSiblings

theorem SoundDocument.merged {S R : Bytes → Prop} {rest : List Node} (h : SoundDocument S R rest) :
    SoundDocument S R (mergedAll rest) where
  sound := sound_mergedAll fun n hn => (h.sound n hn).merged
  apart := markersApart_mergedAll h.apart
  first := by
    intro n hn
    have hmark := head?_mergedAll rest
    rw [hn] at hmark
    obtain ⟨m, hm, hmn⟩ := Option.map_eq_some_iff.1 hmark.symm
    rw [← hmn]
    exact h.first m hm
  last := by
    intro n hn
    have hmark := getLast?_mergedAll rest
    rw [hn] at hmark
    obtain ⟨m, hm, hmn⟩ := Option.map_eq_some_iff.1 hmark.symm
    rw [← hmn]
    exact h.last m hm
  between := fun p b hm => h.between p b (marker_mem_mergedAll hm)

theorem cleanAll_append_marker {ns : List Node} {p : Position} {b : Bool} (h : CleanAll ns) :
    CleanAll (ns ++ [.marker p b]) := by
  induction ns with
  | nil => exact ⟨trivial, by simp, trivial⟩
  | cons n ns ih =>
      obtain ⟨hn, hnext, hns⟩ := h
      refine ⟨hn, ?_, ih hns⟩
      cases ns with
      | nil =>
          intro m hm
          have hm' : m = .marker p b := by simpa [eq_comm] using hm
          rw [hm']
          cases n <;> rfl
      | cons m ms => exact hnext

theorem markersApart_append_marker {ns : List Node} {p : Position} {b : Bool} (h : MarkersApart ns)
    (hlast : ∀ n ∈ ns.getLast?, n.isMarker = false) : MarkersApart (ns ++ [.marker p b]) := by
  refine List.isChain_append.2 ⟨h, .singleton _, ?_⟩
  rintro n hn m - ⟨hm, -⟩
  rw [hlast n hn] at hm
  cases hm

theorem trailingNodes_asPieces {ns : List Node} (h : ∀ p b, .marker p b ∈ ns → p = .betweenSiblings)
    (c : Bool) : trailingNodes (asPieces ns ++ [.space c]) = ns := by
  induction ns with
  | nil => rfl
  | cons n ns ih =>
      have ih := ih fun p b hm => h p b (by simp [hm])
      cases n with
      | text t => exact congrArg (.text t :: ·) ih
      | expression raw location => exact congrArg (.expression raw location :: ·) ih
      | element tag children => exact congrArg (.element tag children :: ·) ih
      | marker p b =>
          have hp := h p b (by simp)
          subst hp
          have hstep : ∀ ps : List Piece, ps ≠ [] →
              trailingNodes (.space b :: ps) = .marker .betweenSiblings b :: trailingNodes ps := by
            intro ps hps
            cases ps with
            | nil => exact absurd rfl hps
            | cons q qs => rfl
          refine (hstep (asPieces ns ++ [.space c]) (by simp)).trans ?_
          rw [ih]

theorem layout_start {ctx : Context} (b : Bool) {rest : List Node}
    (hcontent : ∃ n ∈ rest, n.isMarker = false)
    (hstart : ∀ c, Document.Node.marker .documentStart c ∉ rest) :
    layout ctx (.marker .documentStart b :: rest) = rest.flatMap (layoutNode ctx 0) ++ ctx.newline := by
  obtain ⟨n, hn, hmark⟩ := hcontent
  have hall : (Document.Node.marker .documentStart b :: rest).all Document.Node.isMarker = false :=
    List.all_eq_false.2 ⟨n, List.mem_cons_of_mem _ hn, by simp [hmark]⟩
  have hrest : rest.flatMap (layoutTop ctx) = rest.flatMap (layoutNode ctx 0) := by
    refine List.flatMap_congr fun k hk => layoutTop_eq ?_
    rintro c rfl
    exact hstart c hk
  rw [layout, hall, if_neg (by decide), List.flatMap_cons, hrest]
  rfl

section Reread

variable {ctx : Context} {S R : Bytes → Prop} (hctx : Supports ctx S R) {rest : List Node}
  (h : SoundDocument S R rest)
include hctx h

omit hctx in
theorem layout_document (b : Bool) (hne : rest ≠ []) :
    layout ctx (.marker .documentStart b :: rest) =
      (rest ++ [Document.Node.marker .betweenSiblings false]).flatMap (layoutNode ctx 0) := by
  have hlast : (rest.getLast hne).isMarker = false := h.last _ (List.getLast?_eq_getLast_of_ne_nil hne)
  have hend : layoutNode ctx 0 (.marker .betweenSiblings false) = ctx.newline := by
    simp [layoutNode, markerText, indent, spaces, indentWidth]
  have hstart : ∀ c, Document.Node.marker .documentStart c ∉ rest := by
    intro c hc
    cases h.between _ _ hc
  rw [layout_start b ⟨_, List.getLast_mem hne, hlast⟩ hstart, List.flatMap_append]
  simp [hend]

theorem read_layout (hclean : CleanAll rest) (b : Bool) :
    ∃ ns, Written.read (layout ctx (.marker .documentStart b :: rest)) = .ok ns ∧ CoveredAll ns ∧
      ofWritten ns = .marker .documentStart false :: rereadAll ctx (fun _ => 0) rest := by
  by_cases hne : rest = []
  · subst hne
    exact ⟨[], read_iff.2 ⟨rfl, trivial⟩, trivial, rfl⟩
  · -- the line break that ends the layout is read as one more marker, which no document keeps
    let all := rest ++ [Document.Node.marker .betweenSiblings false]
    have hsound : ∀ n ∈ all, Sound S R n := by
      intro n hn
      rcases List.mem_append.1 hn with hn | hn
      · exact h.sound n hn
      · rw [List.mem_singleton.1 hn]
        exact .marker _ _
    have hcl : CleanAll all := cleanAll_append_marker hclean
    have hm : MarkersApart all := markersApart_append_marker h.apart h.last
    have hf : FaithfulAll ctx S R all :=
      ⟨hsound, fun n hn hi depth =>
        faithful_of_sound hctx (hsound n hn) (hcl.clean n hn) hi depth⟩
    refine ⟨flowAll ctx (fun _ => 0) all, read_iff.2 ⟨?_, ?_⟩, covered_flowAll hf, ?_⟩
    · rw [writeAll_flowAll hf, layout_document h b hne]
    · exact legal_flowAll hf (.inl rfl) hcl
    · have hlast : rereadAll ctx (fun _ => 0) all =
          rereadAll ctx (fun _ => 0) rest ++ [.marker .betweenSiblings false] := by
        simp [rereadAll_eq_map, all, rereadNode]
      have hpieces : asPieces (rereadAll ctx (fun _ => 0) all) =
          asPieces (rereadAll ctx (fun _ => 0) rest) ++ [.space false] := by
        rw [hlast]
        simp [asPieces, asPiece]
      have hbetween : ∀ p c, .marker p c ∈ rereadAll ctx (fun _ => 0) rest → p = .betweenSiblings := by
        intro p c hp
        rw [rereadAll_eq_map] at hp
        obtain ⟨n, hn, hnp⟩ := List.mem_map.1 hp
        cases n with
        | marker q e =>
            cases hnp
            exact h.between _ _ hn
        | text t => cases hnp
        | expression raw location => cases hnp
        | element tag children => cases hnp
      rw [ofWritten, pieces_flowAll hf hm hcl,
        joinSpaces_of_apart (apart_asPieces.2 (markersApart_rereadAll hm)), hpieces]
      have htrail := trailingNodes_asPieces hbetween false
      cases hr : rest with
      | nil => exact absurd hr hne
      | cons n ns =>
          have hn : n.isMarker = false := h.first n (by simp [hr])
          rw [hr] at htrail
          have hdoc := congrArg (Document.Node.marker .documentStart false :: ·) htrail
          cases n with
          | marker p c => cases hn
          | text t => exact hdoc
          | expression raw location => exact hdoc
          | element tag children => exact hdoc

end Reread

end MarkupFormat.Layout
