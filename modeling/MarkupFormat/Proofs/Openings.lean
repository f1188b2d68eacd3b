import Mathlib.Algebra.Ring.Nat
import MarkupFormat.Proofs.Comments

namespace MarkupFormat.Layout

open Bytes Document Expression
open Written hiding Node

def openings (t : Bytes) : Nat :=
  t.count Byte.less

@[simp]
theorem openings_nil : openings [] = 0 := rfl

@[simp]
theorem openings_append (a b : Bytes) : openings (a ++ b) = openings a + openings b :=
  List.count_append

theorem openings_cons (c : UInt8) (t : Bytes) :
    openings (c :: t) = openings t + if c = Byte.less then 1 else 0 := by
  simp [openings, List.count_cons]

theorem openings_eq_zero {t : Bytes} : openings t = 0 ↔ Byte.less ∉ t :=
  List.count_eq_zero

theorem openings_blank {t : Bytes} (h : allBlank t = true) : openings t = 0 := by
  refine openings_eq_zero.2 fun hc => ?_
  have := List.all_eq_true.1 h _ hc
  cases this

theorem openings_flatMap {α : Type} (f : α → Bytes) (xs : List α) :
    openings (xs.flatMap f) = (xs.map fun x => openings (f x)).sum := by
  induction xs with
  | nil => rfl
  | cons x xs ih => simp [ih]

theorem openings_relay {newline pad : Bytes} (hn : allBlank newline = true) (hp : allBlank pad = true)
    (t : Bytes) : openings (relay newline pad t) = openings t := by
  induction t with
  | nil => rfl
  | cons c t ih =>
      have hlf : Byte.lf ≠ Byte.less := by decide
      have hcr : Byte.cr ≠ Byte.less := by decide
      rcases relay_cases c t with rfl | ⟨rfl, hr⟩ | ⟨hc, hr⟩
      · rw [relay_lf, openings_append, ih, openings_cons, if_neg hlf]
        have := openings_blank (allBlank_lead hn hp t)
        omega
      · rw [relay_cr hr, ih, openings_cons, if_neg hcr, Nat.add_zero]
      · rw [relay_keep hc hr, openings_cons, ih, openings_cons]

theorem openings_lay (ctx : Context) (d : Option Nat) (t : Bytes) :
    openings (ctx.lay d t) = openings t := by
  cases d with
  | none => rfl
  | some depth =>
      rw [Context.lay, Context.reindent, reindent_eq_relay]
      exact openings_relay (allBlank_newline ctx) (allBlank_indent depth) t

theorem openings_assigned (name v : Bytes) : openings (assigned name v) = openings name + openings v := by
  rw [assigned, openings_append, openings_cons, if_neg (by decide), Nat.add_zero]

theorem openings_booleanText (name v : Bytes) :
    openings (booleanText name v) = openings name + openings v := by
  unfold booleanText
  split
  · next h =>
      have : openings Literal.trueText = 0 := by decide
      rw [h, this, Nat.add_zero]
  · exact openings_assigned name v

theorem openings_delimited (t : Bytes) : openings (openDelimiter ++ t ++ closeDelimiter) = openings t := by
  have h1 : openings openDelimiter = 0 := by decide
  have h2 : openings closeDelimiter = 0 := by decide
  simp [h1, h2]

theorem openings_expressionText (name t : Bytes) :
    openings (expressionText name t).text = openings name + openings t := by
  rcases expressionText_cases name t with
    ⟨-, htext | htext⟩ | ⟨hnil, htext⟩ | ⟨-, htext⟩ | ⟨-, htext⟩ <;> rw [htext]
  · exact openings_booleanText name t
  · exact openings_assigned name t
  · rw [hnil]
    exact openings_assigned name (openDelimiter ++ closeDelimiter)
  · rw [openings_assigned, openings_delimited]
  · have hspace : Byte.space ≠ Byte.less := by decide
    have hinside := openings_delimited (Byte.space :: t ++ [Byte.space])
    simp only [List.append_assoc, List.cons_append, List.nil_append] at hinside ⊢
    rw [openings_assigned, hinside]
    simp [openings_cons, hspace]

def tagOpenings (tag : Tag) : Nat :=
  1 + openings tag.name + (tag.attributes.map fun a => openings a.name + openings a.value).sum

def Keeps (ctx : Context) (r : Bytes) : Prop :=
  openings (ctx.shown r) = openings r

section Tags

variable {ctx : Context}

theorem openings_attributeText {a : Attribute Location}
    (h : isFormatted a.kind = true → Keeps ctx a.value) :
    openings (attributeText ctx a).text = openings a.name + openings a.value := by
  rcases attributeText_cases ctx a with ⟨-, htext | htext⟩ | ⟨hk, htext⟩ <;> rw [htext]
  · exact openings_booleanText _ _
  · exact openings_assigned _ _
  · rw [← h hk]
    exact openings_expressionText _ _

theorem openings_openTag (depth : Nat) {tag : Tag}
    (h : ∀ a ∈ tag.attributes, isFormatted a.kind = true → Keeps ctx a.value) :
    openings (openTag ctx depth tag) = tagOpenings tag := by
  have hend : openings (tagEnd tag) = 0 := by
    unfold tagEnd
    split <;> decide
  have hinline : openings (inlineEnd tag) = 0 := by
    unfold inlineEnd
    split
    · rw [openings_cons, hend]
      decide
    · exact hend
  have hhead : openings (tagHead tag) = 1 + openings tag.name := by
    rw [tagHead, openings_cons, if_pos rfl, Nat.add_comm]
  have hblank : ∀ d, openings (ctx.newline ++ indent d) = 0 := by
    intro d
    exact openings_blank (by rw [allBlank_append, allBlank_newline, allBlank_indent]; rfl)
  have hattrs : ∀ g : Bytes → Bytes, (∀ t, openings (g t) = openings t) →
      openings ((attributeTexts ctx tag).flatMap fun a => g a.text) =
        (tag.attributes.map fun a => openings a.name + openings a.value).sum := by
    intro g hg
    rw [openings_flatMap, attributeTexts, List.map_map]
    congr 1
    refine List.map_congr_left fun a ha => ?_
    rw [Function.comp_apply, hg, openings_attributeText (h a ha)]
  have hspace : ∀ t : Bytes, openings (Byte.space :: t) = openings t := by
    intro t
    rw [openings_cons, if_neg (by decide), Nat.add_zero]
  unfold openTag
  cases tagShape ctx depth tag with
  | oneLine =>
      simp only [oneLine, openings_append, hhead, hinline, tagOpenings]
      rw [hattrs _ hspace]
      rfl
  | hugging =>
      have hg := fun t => (hspace (ctx.lay (some depth) t)).trans (openings_lay ctx (some depth) t)
      simp only [openings_append, hhead, hinline, tagOpenings]
      have := hattrs _ hg
      simp only [Context.lay] at this
      omega
  | wrapped reason =>
      have hg : ∀ t, openings (ctx.newline ++ indent (depth + 1) ++ ctx.lay (some (depth + 1)) t) =
          openings t := by
        intro t
        rw [openings_append, hblank, openings_lay, Nat.zero_add]
      have hlast := hblank depth
      rw [openings_append] at hlast
      simp only [openings_append, hhead, hend, tagOpenings]
      have := hattrs _ hg
      simp only [Context.lay, List.append_assoc] at this ⊢
      omega

end Tags

mutual
def nodeOpenings : Node → Nat
  | .marker _ _ => 0
  | .text t => openings t
  | .expression raw _ => openings raw
  | .element tag children =>
      tagOpenings tag
        + if tag.selfClosing then 0
          else if tag.sensitive then openings (verbatimAll children) + openings (closingTag tag.name)
          else allOpenings children + openings (closingTag tag.name)

def allOpenings : List Node → Nat
  | [] => 0
  | n :: ns => nodeOpenings n + allOpenings ns
end

section Layout

variable {ctx : Context}

theorem openings_innerText (depth : Nat) (t : Bytes) : openings (innerText ctx depth t) = openings t := by
  unfold innerText
  split
  · next h => rw [h]
  · have hsp : Byte.space ≠ Byte.less := by decide
    have hlay : openings (ctx.reindent depth t) = openings t := openings_lay ctx (some depth) t
    simp [openings_cons, hsp, hlay]

theorem interpolationText_eq (depth : Nat) (t : Bytes) :
    interpolationText ctx depth t = openDelimiter ++ innerText ctx depth t ++ closeDelimiter := by
  unfold interpolationText innerText
  split
  · rfl
  · simp

theorem openings_markerText (depth : Nat) (blank : Bool) : openings (markerText ctx depth blank) = 0 :=
  openings_blank (markerText_facts ctx depth blank).1

mutual
theorem openings_layoutNode (depth : Nat) (n : Node) {parent : Bytes}
    (h : ∀ s ∈ nodeSnippets parent n, Keeps ctx s.raw) :
    openings (layoutNode ctx depth n) = nodeOpenings n := by
  cases n with
  | marker p b => exact openings_markerText depth b
  | text t => rfl
  | expression raw location =>
      have hraw : Keeps ctx raw := h ⟨raw, location, parent, []⟩ (by simp [nodeSnippets])
      rw [layoutNode, interpolationText_eq, openings_delimited, openings_innerText, hraw, nodeOpenings]
  | element tag children =>
      rw [nodeSnippets, List.forall_mem_append] at h
      have htag : openings (openTag ctx depth tag) = tagOpenings tag :=
        openings_openTag depth (forall_tag_snippets.1 h.1)
      rw [layoutNode, openings_append, htag, nodeOpenings]
      congr 1
      split
      · rfl
      · split
        · exact openings_append _ _
        · next hs =>
            rw [if_neg hs] at h
            rw [openings_append, openings_layoutChildren depth children h.2]

theorem openings_layoutChildren (depth : Nat) (ns : List Node) {parent : Bytes}
    (h : ∀ s ∈ snippetsIn parent ns, Keeps ctx s.raw) :
    openings (layoutChildren ctx depth ns) = allOpenings ns := by
  cases ns with
  | nil => rfl
  | cons n ns =>
      rw [snippetsIn, List.forall_mem_append] at h
      rw [layoutChildren, openings_append, openings_layoutNode _ n h.1,
        openings_layoutChildren depth ns h.2, allOpenings]
end

theorem allOpenings_eq_sum (ns : List Node) : allOpenings ns = (ns.map nodeOpenings).sum := by
  induction ns with
  | nil => rfl
  | cons n ns ih => rw [allOpenings, ih, List.map_cons, List.sum_cons]

theorem allOpenings_solids (ns : List Node) : allOpenings (solids ns) = allOpenings ns := by
  induction ns with
  | nil => rfl
  | cons n ns ih =>
      cases n with
      | marker p b => simpa [solids, Document.Node.isMarker, allOpenings, nodeOpenings] using ih
      | text t => exact congrArg (openings t + ·) ih
      | expression raw location => exact congrArg (openings raw + ·) ih
      | element tag children => exact congrArg (nodeOpenings (.element tag children) + ·) ih

theorem openings_layout {ns : List Node} (h : ∀ s ∈ snippets ns, Keeps ctx s.raw) :
    openings (layout ctx ns) = allOpenings ns := by
  have htop : ∀ n ∈ ns, openings (layoutTop ctx n) = nodeOpenings n := by
    intro n hn
    have hs : ∀ s ∈ nodeSnippets [] n, Keeps ctx s.raw := by
      intro s hs
      refine h s ?_
      rw [snippets, snippetsIn_eq_flatMap]
      exact List.mem_flatMap.2 ⟨n, hn, hs⟩
    rcases layoutTop_cases n with ⟨b, rfl⟩ | htop
    · rfl
    · rw [htop]
      exact openings_layoutNode 0 n hs
  rw [layout]
  split
  · next hall =>
      have hnone : solids ns = [] := by
        rw [solids, List.filter_eq_nil_iff]
        intro n hn
        simp [List.all_eq_true.1 hall n hn]
      rw [← allOpenings_solids, hnone]
      rfl
  · rw [openings_append, openings_blank (allBlank_newline ctx), openings_flatMap,
      List.map_congr_left htop, Nat.add_zero, allOpenings_eq_sum]

end Layout

def isComment : Written.Node → Bool
  | .comment _ => true
  | _ => false

theorem allOpenings_append (ms ns : List Node) :
    allOpenings (ms ++ ns) = allOpenings ms + allOpenings ns := by
  induction ms with
  | nil => simp [allOpenings]
  | cons m ms ih => simp [allOpenings, ih, Nat.add_assoc]

theorem allOpenings_eq_zero {ns : List Node} (h : ∀ n ∈ ns, nodeOpenings n = 0) :
    allOpenings ns = 0 := by
  induction ns with
  | nil => rfl
  | cons n ns ih =>
      rw [List.forall_mem_cons] at h
      rw [allOpenings, h.1, ih h.2]

theorem allOpenings_bodyNodes {ps : List Piece} (h : Solid (joinSpaces ps)) :
    allOpenings (bodyNodes (joinSpaces ps)) = allOpenings (contents ps) := by
  rw [← allOpenings_solids, solids_bodyNodes h, contents_joinSpaces]

theorem openings_value (v : Value) : openings v.text ≤ openings v.write := by
  have hequals : Byte.equals ≠ Byte.less := by decide
  have hquote : Byte.quote ≠ Byte.less := by decide
  cases v with
  | absent => decide
  | expression inner =>
      rw [Value.write, List.cons_append, List.cons_append, openings_cons, openings_delimited]
      exact Nat.le_add_right _ _
  | quoted body => simp [Value.text, Value.write, openings_cons, hequals, hquote]
  | word t =>
      simp only [Value.text, Value.write]
      split
      · simp [openings_cons]
      · simp [openings_cons, hequals, hquote]

theorem tagOpenings_ofWritten (tag : OpenTag) (selfClosing : Bool) :
    tagOpenings (Tag.ofWritten tag selfClosing) ≤ openings tag.write := by
  have hattrs : ((tag.attributes.map attributeOf).map fun a => openings a.name + openings a.value).sum ≤
      openings (tag.attributes.flatMap WrittenAttribute.write) := by
    rw [openings_flatMap, List.map_map]
    induction tag.attributes with
    | nil => exact Nat.le_refl _
    | cons a as ih =>
        have ha := openings_value a.value
        simp only [List.map_cons, List.sum_cons, Function.comp_apply, attributeOf,
          WrittenAttribute.write, openings_append] at ih ⊢
        omega
  simp only [tagOpenings, Tag.ofWritten, OpenTag.write, openings_append, List.cons_append,
    openings_cons, if_true] at hattrs ⊢
  omega

theorem openings_closed (tag : OpenTag) (children : List Node) (body : Bytes) (k : Nat)
    (hbody : (if ElementName.isSensitive tag.name then openings (verbatimAll children)
      else allOpenings children) + k ≤ openings body) :
    nodeOpenings (.element (Tag.ofWritten tag false) children) + k ≤
      openings (tag.write ++ Byte.greater :: body ++ closingTag tag.name) := by
  have htag := tagOpenings_ofWritten tag false
  have hgreater : Byte.greater ≠ Byte.less := by decide
  simp only [nodeOpenings, Tag.ofWritten, Bool.false_eq_true, if_false, openings_append,
    openings_cons, hgreater] at htag ⊢
  split at hbody <;> simp_all <;> omega

mutual
theorem openings_piecesOf (n : Written.Node) {after : Bytes} (hl : n.Legal after) :
    allOpenings (contents (piecesOf n)) + n.exposed.countP isComment ≤ openings n.write := by
  cases n with
  | text t =>
      have hzero : allOpenings (contents (linePieces [] (runs t))) = 0 := by
        refine allOpenings_eq_zero fun m hm => ?_
        have hm := mem_contents.1 hm
        obtain ⟨x, rfl⟩ := content_of_mem_linePieces _ _ hm
        exact openings_eq_zero.2 (unmarked_of_mem_linePieces t [] (unmarked_of_legal hl) hm).less
      rw [piecesOf, hzero]
      simp [Written.Node.exposed, isComment]
  | comment t =>
      have hless : ∃ u, t = Byte.less :: u := by
        rcases readItem_cases hl.read with ⟨hs, -⟩ | ⟨u, hu, -⟩ | ⟨inner, hi, -⟩ | ⟨u, hi, -⟩
        · obtain ⟨u, hu⟩ := startsWith_iff.1 hs
          exact ⟨_, hu⟩
        · exact ⟨u, hu⟩
        · cases hi
        · cases hi
      obtain ⟨u, rfl⟩ := hless
      rw [Written.Node.write, openings_cons]
      exact Nat.le_add_left _ _
  | interpolation inner =>
      rw [Written.Node.write, openings_delimited]
      exact Nat.le_refl _
  | selfClosed tag =>
      have := tagOpenings_ofWritten tag true
      rw [Written.Node.write, openings_append]
      exact Nat.le_trans this (Nat.le_add_right _ _)
  | verbatim tag body =>
      refine openings_closed tag _ body 0 ?_
      cases hs : ElementName.isSensitive tag.name with
      | true => simp [verbatimAll_verbatimText]
      | false =>
          simp only [Bool.false_eq_true, if_false]
          rcases hollow_spacePieces body with h | ⟨b, h⟩ <;> rw [h] <;> exact Nat.zero_le _
  | element tag children =>
      refine openings_closed tag _ (writeAll children) _ ?_
      cases hs : ElementName.isSensitive tag.name with
      | true => simp [verbatimAll_verbatimText, Written.Node.exposed, hs, isComment]
      | false =>
          have := openings_piecesAll children hl.2
          rw [← allOpenings_bodyNodes (solid_joinSpaces_piecesAll children)] at this
          simpa [Written.Node.exposed, hs, isComment] using this

theorem openings_piecesAll (ns : List Written.Node) {after : Bytes} (hl : LegalAll after ns) :
    allOpenings (contents (piecesAll ns)) + (exposedAll ns).countP isComment ≤
      openings (writeAll ns) := by
  cases ns with
  | nil => exact Nat.le_refl _
  | cons n ns =>
      have hn := openings_piecesOf n hl.1
      have hns := openings_piecesAll ns hl.2
      rw [piecesAll, contents_append, allOpenings_append, writeAll, openings_append]
      rw [exposedAll, List.countP_append]
      omega
end

theorem uncommented_of_layout {ctx : Context} {ns : List Written.Node} (hl : LegalAll [] ns)
    (hkeep : ∀ s ∈ snippets (ofWritten ns), Keeps ctx s.raw)
    (h : layout ctx (ofWritten ns) = writeAll ns) : Uncommented ns := by
  have hdoc : allOpenings (ofWritten ns) = allOpenings (contents (piecesAll ns)) := by
    rw [← allOpenings_solids, ofWritten, solids_documentNodes (solid_joinSpaces_piecesAll ns),
      contents_joinSpaces]
  have hle := openings_piecesAll ns hl
  rw [← hdoc, ← openings_layout hkeep, h] at hle
  -- a comment has a `<` that no piece has, and there is none to spare
  have hzero : (exposedAll ns).countP isComment = 0 := by omega
  rintro k hk t rfl
  exact List.countP_eq_zero.1 hzero _ hk rfl

end MarkupFormat.Layout
