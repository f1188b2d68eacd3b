import Mathlib.Algebra.Group.Action.Defs
import Mathlib.Algebra.BigOperators.Group.List.Basic
import Mathlib.Algebra.Ring.Nat
import MarkupFormat.Proofs.Nesting

namespace MarkupFormat.Layout

open Bytes Document

def Context.resized (ctx : Context) (length : Int) : Context :=
  ⟨⟨length, ctx.options.newline⟩, ctx.shown⟩

mutual
def laidTags (depth : Nat) : Node → List (Nat × Tag)
  | .marker _ _ => []
  | .text _ => []
  | .expression _ _ => []
  | .element tag children =>
      (depth, tag) ::
        if tag.selfClosing then [] else if tag.sensitive then [] else laidTagsAll (depth + 1) children

def laidTagsAll (depth : Nat) : List Node → List (Nat × Tag)
  | [] => []
  | n :: ns => laidTags depth n ++ laidTagsAll depth ns
end

structure Turns (ctx : Context) (greater : Int) (depth : Nat) (tag : Tag) : Prop where
  attributes : tag.attributes ≠ []
  single : ∀ a ∈ tag.attributes, (attributeText ctx a).multiline = false
  exceeds : ctx.options.lineLength < 2 * depth + displayWidth (oneLine ctx tag)
  fits : 2 * depth + displayWidth (oneLine ctx tag) ≤ greater

theorem turns_iff {ctx : Context} {greater : Int} {depth : Nat} {tag : Tag} :
    Turns ctx greater depth tag ↔
      tag.attributes ≠ [] ∧ (∀ a ∈ tag.attributes, (attributeText ctx a).multiline = false) ∧
        ctx.options.lineLength < 2 * depth + displayWidth (oneLine ctx tag) ∧
        2 * depth + displayWidth (oneLine ctx tag) ≤ greater :=
  ⟨fun h => ⟨h.attributes, h.single, h.exceeds, h.fits⟩, fun h => ⟨h.1, h.2.1, h.2.2.1, h.2.2.2⟩⟩

instance (ctx : Context) (greater : Int) (depth : Nat) (tag : Tag) :
    Decidable (Turns ctx greater depth tag) :=
  decidable_of_iff' _ turns_iff

def breaks (t : Bytes) : Nat :=
  t.count Byte.lf

@[simp]
theorem breaks_append (a b : Bytes) : breaks (a ++ b) = breaks a + breaks b :=
  List.count_append

theorem breaks_newline (ctx : Context) : breaks ctx.newline = 1 := by
  cases h : ctx.options.newline <;> simp only [Context.newline, Newline.text, h] <;> rfl

theorem breaks_indent (depth : Nat) : breaks (indent depth) = 0 :=
  List.count_eq_zero.2 (lf_not_mem_indent depth)

theorem breaks_space (t : Bytes) : breaks (Byte.space :: t) = breaks t :=
  List.count_cons_of_ne (by decide)

theorem breaks_flatMap {α : Type} (f : α → Bytes) (xs : List α) :
    breaks (xs.flatMap f) = (xs.map fun x => breaks (f x)).sum :=
  List.count_flatMap

theorem breaks_reindent (ctx : Context) (depth : Nat) (t : Bytes) :
    breaks (ctx.reindent depth t) = breaks t := by
  rw [Context.reindent, reindent_eq_relay]
  induction t with
  | nil => rfl
  | cons c t ih =>
      rcases relay_cases c t with rfl | ⟨rfl, hr⟩ | ⟨hc, hr⟩
      · have hpad : breaks (if startsEmptyLine t then [] else indent depth) = 0 := by
          split
          · rfl
          · exact breaks_indent depth
        rw [relay_lf, breaks_append, breaks_append, breaks_newline, hpad, ih]
        exact (Nat.add_comm 1 _).trans (List.count_cons_self (a := Byte.lf)).symm
      · rw [relay_cr hr, ih]
        exact (List.count_cons_of_ne (by decide)).symm
      · rw [relay_keep hc hr]
        exact (List.count_cons_of_ne hc).trans (ih.trans (List.count_cons_of_ne hc).symm)

def ownBreaks (ctx : Context) (tag : Tag) : Nat :=
  breaks (tagHead tag) + ((attributeTexts ctx tag).map fun a => breaks a.text).sum + breaks (tagEnd tag)

section Tag

variable {ctx : Context} {depth : Nat} {tag : Tag}

theorem breaks_oneLine (ctx : Context) (tag : Tag) : breaks (oneLine ctx tag) = ownBreaks ctx tag := by
  have hend : breaks (inlineEnd tag) = breaks (tagEnd tag) := by
    unfold inlineEnd
    split
    · exact breaks_space _
    · rfl
  rw [oneLine, breaks_append, breaks_append, breaks_flatMap, hend, ownBreaks]
  simp only [breaks_space]

theorem breaks_wrapped {reason : WrapReason} (h : tagShape ctx depth tag = .wrapped reason) :
    breaks (openTag ctx depth tag) = ownBreaks ctx tag + (tag.attributes.length + 1) := by
  have hone : ∀ a : AttributeText,
      breaks (ctx.newline ++ indent (depth + 1) ++ ctx.reindent (depth + 1) a.text) =
        breaks a.text + 1 := by
    intro a
    rw [breaks_append, breaks_append, breaks_newline, breaks_indent, breaks_reindent]
    exact Nat.add_comm 1 _
  have hattributes : breaks ((attributeTexts ctx tag).flatMap fun a =>
      ctx.newline ++ indent (depth + 1) ++ ctx.reindent (depth + 1) a.text) =
      ((attributeTexts ctx tag).map fun a => breaks a.text).sum + tag.attributes.length := by
    have hlength : (attributeTexts ctx tag).length = tag.attributes.length := List.length_map _
    simp only [breaks_flatMap, hone, List.sum_map_add, List.map_const', List.sum_replicate, hlength,
      smul_eq_mul, mul_one]
  rw [openTag, h]
  simp only
  rw [breaks_append, breaks_append, breaks_append, breaks_append, hattributes, breaks_newline,
    breaks_indent, ownBreaks]
  omega

theorem exceedsLine_iff (h : 0 ≤ ctx.options.lineLength) :
    exceedsLine ctx depth tag = true ↔
      ctx.options.lineLength < 2 * depth + displayWidth (oneLine ctx tag) := by
  simp [exceedsLine, Options.exceeds, displayWidth_indent, h]

theorem tagShape_single (ctx : Context) (depth : Nat) (hne : tag.attributes ≠ [])
    (h : ∀ a ∈ tag.attributes, (attributeText ctx a).multiline = false) :
    tagShape ctx depth tag = if exceedsLine ctx depth tag then .wrapped .lineLength else .oneLine := by
  have hany : (attributeTexts ctx tag).any (·.multiline) = false := by
    simpa [attributeTexts] using h
  have htexts : attributeTexts ctx tag ≠ [] := by simpa [attributeTexts] using hne
  unfold tagShape
  split
  · next he => exact absurd he htexts
  · next a ha =>
      rw [ha] at hany
      rw [if_neg (by simpa using hany)]
  · simp [hany]

theorem oneLine_or_wrapped (ctx : Context) (depth : Nat)
    (h : ∀ a ∈ tag.attributes, (attributeText ctx a).multiline = false) :
    tagShape ctx depth tag = .oneLine ∨ ∃ reason, tagShape ctx depth tag = .wrapped reason := by
  by_cases hne : tag.attributes = []
  · exact .inl (by simp [tagShape, attributeTexts, hne])
  · rw [tagShape_single ctx depth hne h]
    split
    · exact .inr ⟨_, rfl⟩
    · exact .inl rfl

theorem tagShape_several (ctx : Context) (depth : Nat) {a : Attribute Location} (ha : a ∈ tag.attributes)
    (hm : (attributeText ctx a).multiline = true) :
    if tag.attributes.length = 1 then tagShape ctx depth tag = .hugging
    else ∃ reason, tagShape ctx depth tag = .wrapped reason := by
  have hmem : attributeText ctx a ∈ attributeTexts ctx tag := List.mem_map.2 ⟨a, ha, rfl⟩
  have hany : (attributeTexts ctx tag).any (·.multiline) = true := List.any_eq_true.2 ⟨_, hmem, hm⟩
  have hlength : (attributeTexts ctx tag).length = tag.attributes.length := List.length_map _
  unfold tagShape
  rcases htexts : attributeTexts ctx tag with - | ⟨b, - | ⟨c, bs⟩⟩
  · simp [htexts] at hany
  · have hb : b.multiline = true := by simpa [htexts] using hany
    have hone : tag.attributes.length = 1 := by simpa [htexts] using hlength.symm
    rw [if_pos hone]
    exact if_pos hb
  · have hmany : tag.attributes.length ≠ 1 := by simp [← hlength, htexts]
    rw [htexts] at hany
    rw [if_neg hmany]
    simp only [hany, if_true]
    split <;> exact ⟨_, rfl⟩

theorem openTag_of_tagShape {length : Int}
    (h : tagShape (ctx.resized length) depth tag = tagShape ctx depth tag) :
    openTag (ctx.resized length) depth tag = openTag ctx depth tag := by
  rw [openTag, openTag, h]
  rfl

theorem openTag_several (length : Int) {a : Attribute Location} (ha : a ∈ tag.attributes)
    (hm : (attributeText ctx a).multiline = true) :
    openTag (ctx.resized length) depth tag = openTag ctx depth tag := by
  have hshape := tagShape_several ctx depth ha hm
  have hshape' := tagShape_several (ctx.resized length) depth ha hm
  by_cases hone : tag.attributes.length = 1
  · rw [if_pos hone] at hshape hshape'
    exact openTag_of_tagShape (hshape'.trans hshape.symm)
  · -- the reasons may differ
    rw [if_neg hone] at hshape hshape'
    obtain ⟨reason, hshape⟩ := hshape
    obtain ⟨reason', hshape'⟩ := hshape'
    rw [openTag, openTag, hshape, hshape']
    rfl

variable {greater : Int} (hlen : 0 ≤ ctx.options.lineLength) (hlt : ctx.options.lineLength < greater)
include hlen hlt

theorem exceedsLine_resized :
    exceedsLine (ctx.resized greater) depth tag = true ↔
      greater < 2 * depth + displayWidth (oneLine ctx tag) := by
  have hgreater : 0 ≤ (ctx.resized greater).options.lineLength :=
    Int.le_of_lt (Int.lt_of_le_of_lt hlen hlt)
  exact exceedsLine_iff hgreater

theorem openTag_resized (h : ¬Turns ctx greater depth tag) :
    openTag (ctx.resized greater) depth tag = openTag ctx depth tag := by
  by_cases hs : ∀ a ∈ tag.attributes, (attributeText ctx a).multiline = false
  · refine openTag_of_tagShape ?_
    by_cases hne : tag.attributes = []
    · simp [tagShape, attributeTexts, hne]
    · have hexceeds : exceedsLine (ctx.resized greater) depth tag = exceedsLine ctx depth tag := by
        rw [Bool.eq_iff_iff, exceedsLine_resized hlen hlt, exceedsLine_iff hlen]
        have hout : ¬(ctx.options.lineLength < 2 * depth + displayWidth (oneLine ctx tag) ∧
            2 * depth + displayWidth (oneLine ctx tag) ≤ greater) :=
          fun hw => h ⟨hne, hs, hw.1, hw.2⟩
        omega
      rw [tagShape_single ctx depth hne hs, ← hexceeds]
      exact tagShape_single (ctx.resized greater) depth hne hs
  · obtain ⟨a, ha, hm⟩ : ∃ a ∈ tag.attributes, (attributeText ctx a).multiline = true := by
      simpa using hs
    exact openTag_several greater ha hm

theorem breaks_of_turns (h : Turns ctx greater depth tag) :
    breaks (openTag ctx depth tag) =
      breaks (openTag (ctx.resized greater) depth tag) + (tag.attributes.length + 1) := by
  have hnarrow : tagShape ctx depth tag = .wrapped .lineLength := by
    rw [tagShape_single ctx depth h.attributes h.single, if_pos ((exceedsLine_iff hlen).2 h.exceeds)]
  have hwide : tagShape (ctx.resized greater) depth tag = .oneLine := by
    rw [tagShape_single (ctx.resized greater) depth h.attributes h.single, if_neg]
    rw [exceedsLine_resized hlen hlt]
    exact Int.not_lt.2 h.fits
  have hline : openTag (ctx.resized greater) depth tag = oneLine ctx tag := by
    rw [openTag, hwide]
    rfl
  rw [breaks_wrapped hnarrow, hline, breaks_oneLine]

end Tag

def extraBreaks (ctx : Context) (greater : Int) (depth : Nat) (tag : Tag) : Nat :=
  if Turns ctx greater depth tag then tag.attributes.length + 1 else 0

def extraBreaksAll (ctx : Context) (greater : Int) (tags : List (Nat × Tag)) : Nat :=
  (tags.map fun p => extraBreaks ctx greater p.1 p.2).sum

section Nodes

variable {ctx : Context} {greater : Int}

theorem extraBreaks_eq_zero {depth : Nat} {tag : Tag} :
    extraBreaks ctx greater depth tag = 0 ↔ ¬Turns ctx greater depth tag := by
  unfold extraBreaks
  split <;> simp_all

theorem extraBreaksAll_cons (depth : Nat) (tag : Tag) (tags : List (Nat × Tag)) :
    extraBreaksAll ctx greater ((depth, tag) :: tags) =
      extraBreaks ctx greater depth tag + extraBreaksAll ctx greater tags := by
  simp [extraBreaksAll]

theorem extraBreaksAll_eq_zero {tags : List (Nat × Tag)} :
    extraBreaksAll ctx greater tags = 0 ↔ ∀ p ∈ tags, ¬Turns ctx greater p.1 p.2 := by
  induction tags with
  | nil => exact ⟨nofun, fun _ => rfl⟩
  | cons p ps ih =>
      rw [extraBreaksAll_cons, Nat.add_eq_zero_iff, extraBreaks_eq_zero, ih, List.forall_mem_cons]

theorem extraBreaksAll_append (ps qs : List (Nat × Tag)) :
    extraBreaksAll ctx greater (ps ++ qs) =
      extraBreaksAll ctx greater ps + extraBreaksAll ctx greater qs := by
  simp [extraBreaksAll]

theorem laidTags_childDepth (depth : Nat) (n : Node) :
    laidTags (childDepth depth n) n = laidTags (depth + 1) n := by
  cases n <;> rfl

theorem laidTagsAll_of_markers (depth : Nat) {ns : List Node} (h : ns.all Node.isMarker = true) :
    laidTagsAll depth ns = [] := by
  induction ns with
  | nil => rfl
  | cons n ns ih =>
      rw [List.all_cons, Bool.and_eq_true] at h
      cases n with
      | marker p b => exact ih h.2
      | text t => cases h.1
      | expression raw location => cases h.1
      | element tag children => cases h.1

theorem breaks_openTag (hlen : 0 ≤ ctx.options.lineLength)
    (hlt : ctx.options.lineLength < greater) (depth : Nat) (tag : Tag) :
    breaks (openTag ctx depth tag) =
      breaks (openTag (ctx.resized greater) depth tag) + extraBreaks ctx greater depth tag := by
  unfold extraBreaks
  split
  · next h => exact breaks_of_turns hlen hlt h
  · next h => rw [openTag_resized hlen hlt h, Nat.add_zero]

mutual
theorem layoutNode_resized (hlen : 0 ≤ ctx.options.lineLength)
    (hlt : ctx.options.lineLength < greater) (depth : Nat) (n : Node)
    (h : ∀ p ∈ laidTags depth n, ¬Turns ctx greater p.1 p.2) :
    layoutNode (ctx.resized greater) depth n = layoutNode ctx depth n := by
  cases n with
  | marker p b => rfl
  | text t => rfl
  | expression raw location => rfl
  | element tag children =>
      rw [laidTags, List.forall_mem_cons] at h
      rw [layoutNode, layoutNode, openTag_resized hlen hlt h.1]
      congr 1
      split
      · rfl
      · next hself =>
          split
          · rfl
          · next hs =>
              rw [if_neg hself, if_neg hs] at h
              rw [layoutChildren_resized hlen hlt depth children h.2]

theorem layoutChildren_resized (hlen : 0 ≤ ctx.options.lineLength)
    (hlt : ctx.options.lineLength < greater) (depth : Nat) (ns : List Node)
    (h : ∀ p ∈ laidTagsAll (depth + 1) ns, ¬Turns ctx greater p.1 p.2) :
    layoutChildren (ctx.resized greater) depth ns = layoutChildren ctx depth ns := by
  cases ns with
  | nil => rfl
  | cons n ns =>
      rw [laidTagsAll, List.forall_mem_append, ← laidTags_childDepth] at h
      rw [layoutChildren, layoutChildren, layoutNode_resized hlen hlt (childDepth depth n) n h.1,
        layoutChildren_resized hlen hlt depth ns h.2]
end

mutual
theorem breaks_layoutNode (hlen : 0 ≤ ctx.options.lineLength)
    (hlt : ctx.options.lineLength < greater) (depth : Nat) (n : Node) :
    breaks (layoutNode ctx depth n) =
      breaks (layoutNode (ctx.resized greater) depth n) +
        extraBreaksAll ctx greater (laidTags depth n) := by
  cases n with
  | marker p b => rfl
  | text t => rfl
  | expression raw location => rfl
  | element tag children =>
      have htag := breaks_openTag hlen hlt depth tag
      rw [layoutNode, layoutNode, laidTags, extraBreaksAll_cons, breaks_append, breaks_append, htag]
      split
      · rw [Nat.add_right_comm]
        rfl
      · split
        · rw [Nat.add_right_comm]
          rfl
        · have hbody := breaks_layoutChildren hlen hlt depth children
          rw [breaks_append, breaks_append, hbody]
          omega

theorem breaks_layoutChildren (hlen : 0 ≤ ctx.options.lineLength)
    (hlt : ctx.options.lineLength < greater) (depth : Nat) (ns : List Node) :
    breaks (layoutChildren ctx depth ns) =
      breaks (layoutChildren (ctx.resized greater) depth ns) +
        extraBreaksAll ctx greater (laidTagsAll (depth + 1) ns) := by
  cases ns with
  | nil => rfl
  | cons n ns =>
      have hn := breaks_layoutNode hlen hlt (childDepth depth n) n
      have hns := breaks_layoutChildren hlen hlt depth ns
      rw [layoutChildren, layoutChildren, laidTagsAll, breaks_append, breaks_append,
        extraBreaksAll_append, ← laidTags_childDepth, hn, hns]
      omega
end

theorem breaks_layoutTop (hlen : 0 ≤ ctx.options.lineLength)
    (hlt : ctx.options.lineLength < greater) (ns : List Node) :
    breaks (ns.flatMap (layoutTop ctx)) =
      breaks (ns.flatMap (layoutTop (ctx.resized greater))) +
        extraBreaksAll ctx greater (laidTagsAll 0 ns) := by
  induction ns with
  | nil => rfl
  | cons n ns ih =>
      have hn : breaks (layoutTop ctx n) =
          breaks (layoutTop (ctx.resized greater) n) + extraBreaksAll ctx greater (laidTags 0 n) := by
        rcases layoutTop_cases n with ⟨b, rfl⟩ | htop
        · rfl
        · rw [htop, htop]
          exact breaks_layoutNode hlen hlt 0 n
      rw [List.flatMap_cons, List.flatMap_cons, laidTagsAll, breaks_append, breaks_append,
        extraBreaksAll_append, hn, ih]
      omega

theorem layoutTop_resized (hlen : 0 ≤ ctx.options.lineLength)
    (hlt : ctx.options.lineLength < greater) (ns : List Node)
    (h : ∀ p ∈ laidTagsAll 0 ns, ¬Turns ctx greater p.1 p.2) :
    ns.flatMap (layoutTop (ctx.resized greater)) = ns.flatMap (layoutTop ctx) := by
  induction ns with
  | nil => rfl
  | cons n ns ih =>
      rw [laidTagsAll, List.forall_mem_append] at h
      rw [List.flatMap_cons, List.flatMap_cons, ih h.2]
      rcases layoutTop_cases n with ⟨b, rfl⟩ | htop
      · rfl
      · rw [htop, htop, layoutNode_resized hlen hlt 0 n h.1]

theorem layout_resized_iff (hlen : 0 ≤ ctx.options.lineLength)
    (hlt : ctx.options.lineLength < greater) (ns : List Node) :
    layout ctx ns = layout (ctx.resized greater) ns ↔
      ∀ p ∈ laidTagsAll 0 ns, ¬Turns ctx greater p.1 p.2 := by
  unfold layout
  split
  · next hall => simp [laidTagsAll_of_markers 0 hall]
  · constructor
    · intro heq
      have hbreaks := breaks_layoutTop hlen hlt ns
      rw [List.append_cancel_right heq, Nat.left_eq_add] at hbreaks
      exact extraBreaksAll_eq_zero.1 hbreaks
    · intro h
      rw [layoutTop_resized hlen hlt ns h]
      rfl

end Nodes

end MarkupFormat.Layout

namespace MarkupFormat

open Bytes Document Layout Expression

-- Two line lengths give one text unless a tag fits in lines of the one and not of the other.
theorem render_eq_iff_no_turn {f : Formatter} {nodes : List Node}
    (h : ∀ s ∈ snippets nodes, ∃ t, f s.raw = .ok t) (newline : Newline) {lesser greater : Int}
    (hlesser : 1 ≤ lesser) (hlt : lesser < greater) :
    ∃ t u, render f ⟨lesser, newline⟩ nodes = .ok t ∧ render f ⟨greater, newline⟩ nodes = .ok u ∧
      (t = u ↔ ∀ p ∈ laidTagsAll 0 nodes, ¬Turns ⟨⟨lesser, newline⟩, shown f⟩ greater p.1 p.2) := by
  let ctx : Context := ⟨⟨lesser, newline⟩, shown f⟩
  have hpos : 0 ≤ ctx.options.lineLength := Int.le_of_lt hlesser
  exact ⟨_, _, render_iff.2 ⟨h, rfl⟩, render_iff.2 ⟨h, rfl⟩, layout_resized_iff hpos hlt nodes⟩

def measured : Tag :=
  ⟨ascii "a", [⟨ascii "b", .string, ascii "\"x\ny\"", .start⟩, ⟨ascii "n", .integer, ascii "1", .start⟩],
    true, false, .start⟩

def measuredInside : List Node :=
  [.marker .documentStart false,
    .element ⟨ascii "p", [], false, false, .start⟩ [.text (ascii "t"), .element measured []]]

theorem render_measured :
    Turns ⟨⟨18, .lf⟩, shown .ok⟩ 19 1 measured ∧
    (∀ s ∈ snippets measuredInside, ∃ t, (Except.ok : Formatter) s.raw = .ok t) ∧
    ∃ t u, render .ok ⟨18, .lf⟩ measuredInside = .ok t ∧
      render .ok ⟨19, .lf⟩ measuredInside = .ok u ∧
      (t = u ↔ ∀ p ∈ laidTagsAll 0 measuredInside, ¬Turns ⟨⟨18, .lf⟩, shown .ok⟩ 19 p.1 p.2) := by
  have h : ∀ s ∈ snippets measuredInside, ∃ t, (Except.ok : Formatter) s.raw = .ok t :=
    fun s _ => ⟨s.raw, rfl⟩
  exact ⟨by decide, h, render_eq_iff_no_turn h .lf (by decide) (by decide)⟩

end MarkupFormat
