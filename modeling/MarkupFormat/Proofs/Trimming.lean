import MarkupFormat.Proofs.Drawing

namespace MarkupFormat

open Bytes

namespace Raw

def trimSpan (src : Source) (span : Span) : Span :=
  let t := src.slice span.start span.stop
  ⟨span.start + (t.takeWhile isBlank).length, span.start + (dropEndWhile isBlank t).length⟩

mutual
def Node.trim (src : Source) : Node → List Node
  | .text span =>
      if allBlank (src.slice span.start span.stop) then [] else [.text (trimSpan src span)]
  | .comment span => [.comment span]
  | .interpolation span inner => [.interpolation span inner]
  | .element span head children =>
      [.element span head (if head.isOpen then trimAll src children else children)]

def trimAll (src : Source) : List Node → List Node
  | [] => []
  | n :: ns => n.trim src ++ trimAll src ns
end

theorem outsideComments_trimAll {src : Source} {ns : List Node} {o : Nat} :
    OutsideComments (trimAll src ns) o ↔ OutsideComments ns o := by
  have hnode : ∀ n : Node, (∀ m ∈ n.trim src, ¬m.Comments o) ↔ ¬n.Comments o := by
    intro n
    cases n with
    | text span =>
        rw [Node.trim]
        split <;> simp [Node.Comments]
    | comment span => simp [Node.trim]
    | interpolation span inner => simp [Node.trim]
    | element span head children => simp [Node.trim, Node.Comments]
  induction ns with
  | nil => rfl
  | cons n ns ih =>
      simp only [OutsideComments, trimAll, List.forall_mem_append, List.forall_mem_cons, hnode] at ih ⊢
      exact and_congr_right fun _ => ih

theorem hasSpace_trimAll {src : Source} {ns : List Node} {b : Span} :
    HasSpace (trimAll src ns) b ↔ HasSpace ns b := by
  simp only [HasSpace, outsideComments_trimAll]

theorem emptyLine_trimAll {src : Source} {ns : List Node} {b : Span} :
    EmptyLine src (trimAll src ns) b ↔ EmptyLine src ns b := by
  have hlines : ∀ o₁ o₂, LinesApart src (trimAll src ns) o₁ o₂ ↔ LinesApart src ns o₁ o₂ :=
    fun o₁ o₂ =>
      ⟨fun h => ⟨h.lt, h.first, h.last, h.blank,
          fun o h2 h1 => outsideComments_trimAll.1 (h.outside o h2 h1)⟩,
        fun h => ⟨h.lt, h.first, h.last, h.blank,
          fun o h2 h1 => outsideComments_trimAll.2 (h.outside o h2 h1)⟩⟩
  simp only [EmptyLine, hlines]

end Raw

namespace Document

open Raw (ChildrenFit EmptyLine HasSpace UnbrokenEmptyLine trimAll trimSpan)

theorem placeText_trimSpan {src : Source} {span : Span}
    (h : allBlank (src.slice span.start span.stop) = false) :
    placeText (trimSpan src span).start
        (src.slice (trimSpan src span).start (trimSpan src span).stop) =
      placeText span.start (src.slice span.start span.stop) := by
  obtain ⟨m, w, e, ht, hm, he, hspan⟩ : ∃ m w e, src.slice span.start span.stop = m ++ (w ++ e) ∧
      allBlank m = true ∧ allBlank e = true ∧
        trimSpan src span = ⟨span.start + m.length, span.start + m.length + w.length⟩ := by
    generalize hslice : src.slice span.start span.stop = t at h
    have hsplit : t.takeWhile isBlank ++ t.dropWhile isBlank = t := List.takeWhile_append_dropWhile
    have hm : allBlank (t.takeWhile isBlank) = true := List.all_takeWhile
    have hr : allBlank (t.dropWhile isBlank) = false := by
      rw [← hsplit, allBlank_append, hm, Bool.true_and] at h
      exact h
    have hdrop : dropEndWhile isBlank t = _ := hsplit ▸ dropEndWhile_append_of_solid _ hr
    refine ⟨t.takeWhile isBlank, dropEndWhile isBlank (t.dropWhile isBlank),
      ((t.dropWhile isBlank).reverse.takeWhile isBlank).reverse, ?_, hm, ?_, ?_⟩
    · rw [dropEndWhile_append, hsplit]
    · rw [allBlank, List.all_reverse]
      exact List.all_takeWhile
    · simp only [trimSpan, hslice]
      rw [hdrop, List.length_append, Nat.add_assoc]
  -- neither end of the text has a part in its lines
  have hw : src.slice (span.start + m.length) (span.start + m.length + w.length) = w :=
    (Source.slice_of_append (Source.slice_of_append ht).2).1
  rw [hspan, ht, hw, placeText_blank hm, placeText_append_blank he]

def runMark (src : Source) (ns : List Raw.Node) (b : Span) : List Piece :=
  spaceMark (HasSpace ns b) (EmptyLine src ns b)

def runDocument (src : Source) (tree : List Raw.Node) : List Node :=
  draw (runMark src) src tree

section Run

variable {src : Source}

theorem drawAll_append (rule : List Raw.Node → Span → List Piece) (ns ms : List Raw.Node) :
    drawAll rule src (ns ++ ms) = drawAll rule src ns ++ drawAll rule src ms := by
  induction ns with
  | nil => rfl
  | cons n ns ih => rw [List.cons_append, drawAll, drawAll, ih, List.append_assoc]

theorem lone_runMark (ns : List Raw.Node) (b : Span) : Lone (runMark src ns b) :=
  lone_spaceMark _ _

theorem runMark_trimAll (ns : List Raw.Node) : runMark src (trimAll src ns) = runMark src ns := by
  funext b
  exact spaceMark_congr Raw.hasSpace_trimAll Raw.emptyLine_trimAll

mutual
theorem drawNode_trim (n : Raw.Node) :
    drawAll (runMark src) src (n.trim src) = drawNode (runMark src) src n := by
  cases n with
  | comment span => rfl
  | interpolation span inner => rfl
  | text span =>
      rw [Raw.Node.trim, drawNode]
      cases hblank : allBlank (src.slice span.start span.stop) with
      | true =>
          rw [if_pos rfl, placeText_of_blank hblank]
          rfl
      | false =>
          rw [if_neg (by simp), ← placeText_trimSpan hblank, drawAll, drawAll, drawNode,
            List.append_nil]
  | element span head children =>
      rw [Raw.Node.trim, drawAll, drawAll, List.append_nil, drawNode, drawNode]
      cases hopen : head.isOpen with
      | false => rw [if_neg Bool.false_ne_true]
      | true => rw [if_pos rfl, runMark_trimAll, drawAll_trimAll children]

theorem drawAll_trimAll (ns : List Raw.Node) :
    drawAll (runMark src) src (trimAll src ns) = drawAll (runMark src) src ns := by
  cases ns with
  | nil => rfl
  | cons n ns => rw [trimAll, drawAll_append, drawNode_trim n, drawAll_trimAll ns, drawAll]
end

theorem runDocument_trimAll (tree : List Raw.Node) :
    runDocument src (trimAll src tree) = runDocument src tree := by
  rw [runDocument, draw, runMark_trimAll, drawAll_trimAll]
  rfl

end Run

def Whole (src : Source) (ns : List Raw.Node) (b : Span) : Prop :=
  EmptyLine src ns b → UnbrokenEmptyLine src ns b

instance (src : Source) (ns : List Raw.Node) (b : Span) : Decidable (Whole src ns b) :=
  inferInstanceAs (Decidable (_ → _))

def WholeIn (src : Source) : Raw.Node → Prop
  | .element _ head children =>
      head.isOpen = true →
        ∀ b ∈ boundaries head.body.start head.body.stop (contentAll src children), Whole src children b
  | .text _ => True
  | .comment _ => True
  | .interpolation _ _ => True

instance (src : Source) : (n : Raw.Node) → Decidable (WholeIn src n)
  | .element _ head children =>
      inferInstanceAs (Decidable (head.isOpen = true →
        ∀ b ∈ boundaries head.body.start head.body.stop (contentAll src children),
          Whole src children b))
  | .text _ => .isTrue trivial
  | .comment _ => .isTrue trivial
  | .interpolation _ _ => .isTrue trivial

structure Undivided (src : Source) (tree : List Raw.Node) : Prop where
  top : ∀ b ∈ shownBoundaries 0 src.length (contentAll src tree), Whole src tree b
  elements : ∀ n ∈ Raw.exposedAll tree, WholeIn src n

instance (src : Source) (tree : List Raw.Node) : Decidable (Undivided src tree) :=
  decidable_of_iff ((∀ b ∈ shownBoundaries 0 src.length (contentAll src tree), Whole src tree b) ∧
      ∀ n ∈ Raw.exposedAll tree, WholeIn src n)
    ⟨fun h => ⟨h.1, h.2⟩, fun h => ⟨h.top, h.elements⟩⟩

section Undivided

variable {src : Source}

theorem unbrokenMark_eq_runMark_iff {ns : List Raw.Node} {b : Span} :
    unbrokenMark src ns b = runMark src ns b ↔ Whole src ns b := by
  by_cases hspace : HasSpace ns b
  · rw [unbrokenMark, runMark, spaceMark, spaceMark, if_pos hspace, if_pos hspace]
    simp only [List.cons.injEq, Piece.space.injEq, and_true, decide_eq_decide]
    exact ⟨fun h => h.2, fun h => ⟨Raw.UnbrokenEmptyLine.emptyLine, h⟩⟩
  · have hnone : ¬EmptyLine src ns b := fun h => hspace h.hasSpace
    simp [unbrokenMark, runMark, spaceMark, Whole, hspace, hnone]

theorem agree_iff_wholeIn {n : Raw.Node} :
    Agree (unbrokenMark src) (runMark src) src n ↔ WholeIn src n := by
  cases n with
  | element span head children => simp only [Agree, WholeIn, unbrokenMark_eq_runMark_iff]
  | text span => rfl
  | comment span => rfl
  | interpolation span inner => rfl

theorem draw_unbroken_eq_run_iff {tree : List Raw.Node} :
    draw (unbrokenMark src) src tree = runDocument src tree ↔ Undivided src tree := by
  have hnil : ∀ ns b, unbrokenMark src ns b = [] ↔ runMark src ns b = [] := by
    intro ns b
    by_cases hspace : HasSpace ns b <;> simp [unbrokenMark, runMark, spaceMark, hspace]
  rw [runDocument, draw_eq_iff (lone_unbrokenMark src) lone_runMark hnil]
  simp only [unbrokenMark_eq_runMark_iff, agree_iff_wholeIn]
  exact ⟨fun h => ⟨h.1, h.2⟩, fun h => ⟨h.top, h.elements⟩⟩

theorem bareAll_draw_unbroken (tree : List Raw.Node) :
    bareAll (draw (unbrokenMark src) src tree) = bareAll (runDocument src tree) := by
  have hrule : bareRule (unbrokenMark src) = bareRule (runMark src) := by
    funext ns b
    unfold bareRule unbrokenMark runMark spaceMark
    split <;> rfl
  rw [runDocument, bareAll_draw, bareAll_draw, hrule]

end Undivided

-- Two trees without defects that are equal once trimmed become the same document but for its empty
-- lines. Each becomes the document by the rule of runs if and only if it is undivided.
theorem documents_of_trimmed (src : Source) (t₁ t₂ : List Raw.Node) (h₁ : Raw.defect? src t₁ = none)
    (h₂ : Raw.defect? src t₂ = none) (htrim : trimAll src t₁ = trimAll src t₂) :
    ∃ d₁ d₂, ofRaw? src t₁ = .ok d₁ ∧ ofRaw? src t₂ = .ok d₂ ∧ bareAll d₁ = bareAll d₂ ∧
      (d₁ = runDocument src t₁ ↔ Undivided src t₁) ∧
      (d₂ = runDocument src t₁ ↔ Undivided src t₂) := by
  have hrun : runDocument src t₁ = runDocument src t₂ := by
    rw [← runDocument_trimAll t₁, htrim, runDocument_trimAll t₂]
  refine ⟨ofRaw src t₁, ofRaw src t₂, by rw [ofRaw?, h₁], by rw [ofRaw?, h₂], ?_⟩
  rw [ofRaw_eq_draw (Raw.defect?_none_iff.1 h₁), ofRaw_eq_draw (Raw.defect?_none_iff.1 h₂)]
  refine ⟨?_, draw_unbroken_eq_run_iff, hrun ▸ draw_unbroken_eq_run_iff⟩
  rw [bareAll_draw_unbroken, bareAll_draw_unbroken, hrun]

def spread : Source :=
  ⟨[], ascii "<a/>\n\n<b/>"⟩

def spreadTree (between : List Raw.Node) : List Raw.Node :=
  .element ⟨0, 4⟩ ⟨ascii "a", [], true, ⟨0, 4⟩, none⟩ [] ::
    (between ++ [.element ⟨6, 10⟩ ⟨ascii "b", [], true, ⟨6, 10⟩, none⟩ []])

theorem documents_whole_run :
    Raw.defect? spread (spreadTree []) = none ∧
      Raw.defect? spread (spreadTree [.text ⟨4, 6⟩]) = none ∧
      trimAll spread (spreadTree []) = trimAll spread (spreadTree [.text ⟨4, 6⟩]) ∧
      Undivided spread (spreadTree []) ∧ Undivided spread (spreadTree [.text ⟨4, 6⟩]) ∧
      ofRaw? spread (spreadTree []) = ofRaw? spread (spreadTree [.text ⟨4, 6⟩]) := by
  have hloose : Raw.defect? spread (spreadTree []) = none := by decide
  have hcovered : Raw.defect? spread (spreadTree [.text ⟨4, 6⟩]) = none := by decide
  have hwhole : Undivided spread (spreadTree []) := by decide
  have hwhole' : Undivided spread (spreadTree [.text ⟨4, 6⟩]) := by decide
  obtain ⟨d₁, d₂, h₁, h₂, -, hrun₁, hrun₂⟩ := documents_of_trimmed _ _ _ hloose hcovered rfl
  refine ⟨hloose, hcovered, rfl, hwhole, hwhole', ?_⟩
  rw [h₁, h₂, hrun₁.2 hwhole, hrun₂.2 hwhole']

theorem documents_split_run :
    Raw.defect? spread (spreadTree []) = none ∧
      Raw.defect? spread (spreadTree [.text ⟨5, 6⟩]) = none ∧
      trimAll spread (spreadTree []) = trimAll spread (spreadTree [.text ⟨5, 6⟩]) ∧
      ofRaw? spread (spreadTree []) =
        .ok [.marker .documentStart false, .element ⟨ascii "a", [], true, false, ⟨1, 1, 0⟩⟩ [],
          .marker .betweenSiblings true, .element ⟨ascii "b", [], true, false, ⟨3, 1, 6⟩⟩ []] ∧
      ofRaw? spread (spreadTree [.text ⟨5, 6⟩]) =
        .ok [.marker .documentStart false, .element ⟨ascii "a", [], true, false, ⟨1, 1, 0⟩⟩ [],
          .marker .betweenSiblings false, .element ⟨ascii "b", [], true, false, ⟨3, 1, 6⟩⟩ []] ∧
      ofRaw? spread (spreadTree []) ≠ ofRaw? spread (spreadTree [.text ⟨5, 6⟩]) := by
  refine ⟨by decide, by decide, rfl, rfl, rfl, fun h => ?_⟩
  have h := congrArg (fun d => d.toOption.map (·[2]?)) h
  cases h

end Document

end MarkupFormat
