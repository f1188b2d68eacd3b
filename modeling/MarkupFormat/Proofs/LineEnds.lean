import MarkupFormat.Proofs.Answers
import MarkupFormat.Proofs.Nesting

namespace MarkupFormat.Bytes

def withReturns (t : Bytes) : Bytes :=
  t.flatMap fun c => if c = Byte.lf then [Byte.cr, Byte.lf] else [c]

theorem withReturns_append (a b : Bytes) : withReturns (a ++ b) = withReturns a ++ withReturns b :=
  List.flatMap_append

theorem withReturns_cons {c : UInt8} (h : c ≠ Byte.lf) (t : Bytes) :
    withReturns (c :: t) = c :: withReturns t := by
  rw [withReturns, List.flatMap_cons, if_neg h]
  rfl

theorem withReturns_flatMap {α : Type} (f : α → Bytes) (xs : List α) :
    withReturns (xs.flatMap f) = xs.flatMap fun x => withReturns (f x) :=
  List.flatMap_assoc

theorem withReturns_of_unbroken {t : Bytes} (h : Byte.lf ∉ t) : withReturns t = t := by
  induction t with
  | nil => rfl
  | cons c t ih =>
      obtain ⟨hc, ht⟩ := List.ne_and_not_mem_of_not_mem_cons h
      rw [withReturns_cons (Ne.symm hc), ih ht]

theorem relay_returns {pad : Bytes} (hpad : Byte.lf ∉ pad) (t : Bytes) :
    relay [Byte.cr, Byte.lf] pad t = withReturns (relay [Byte.lf] pad t) := by
  induction t with
  | nil => rfl
  | cons c t ih =>
      rcases relay_cases c t with rfl | ⟨rfl, hr⟩ | ⟨hc, hr⟩
      · have hlead : withReturns (if startsEmptyLine t then [] else pad) =
            if startsEmptyLine t then [] else pad := by
          refine withReturns_of_unbroken ?_
          split
          · exact List.not_mem_nil
          · exact hpad
        rw [relay_lf, relay_lf, withReturns_append, withReturns_append, hlead, ih]
        rfl
      · rw [relay_cr hr, relay_cr hr, ih]
      · rw [relay_keep hc hr, relay_keep hc hr, withReturns_cons hc, ih]

end MarkupFormat.Bytes

namespace MarkupFormat.Layout

open Bytes Document

def Context.ending (ctx : Context) (newline : Newline) : Context :=
  ⟨⟨ctx.options.lineLength, newline⟩, ctx.shown⟩

section Pieces

variable (ctx : Context) (depth : Nat)

theorem newline_returns : (ctx.ending .crlf).newline = withReturns (ctx.ending .lf).newline := rfl

theorem indent_returns : withReturns (indent depth) = indent depth :=
  withReturns_of_unbroken (lf_not_mem_indent depth)

theorem reindent_returns (t : Bytes) :
    (ctx.ending .crlf).reindent depth t = withReturns ((ctx.ending .lf).reindent depth t) := by
  rw [Context.reindent, Context.reindent, reindent_eq_relay, reindent_eq_relay]
  exact relay_returns (lf_not_mem_indent depth) t

theorem markerText_returns (blank : Bool) :
    markerText (ctx.ending .crlf) depth blank = withReturns (markerText (ctx.ending .lf) depth blank) := by
  have hblank : (if blank then (ctx.ending .crlf).newline else []) =
      withReturns (if blank then (ctx.ending .lf).newline else []) := by
    cases blank <;> rfl
  rw [markerText, markerText, withReturns_append, withReturns_append, indent_returns, hblank]
  rfl

theorem interpolationText_returns (t : Bytes) :
    interpolationText (ctx.ending .crlf) depth t =
      withReturns (interpolationText (ctx.ending .lf) depth t) := by
  unfold interpolationText
  split
  · rfl
  · have hspace : Byte.space ≠ Byte.lf := by decide
    have hopen : withReturns openDelimiter = openDelimiter := rfl
    have hclose : withReturns closeDelimiter = closeDelimiter := rfl
    rw [withReturns_append, withReturns_append, withReturns_cons hspace, withReturns_cons hspace,
      hopen, hclose, reindent_returns]

end Pieces

structure UnbrokenTag (tag : Tag) : Prop where
  name : Byte.lf ∉ tag.name
  names : ∀ a ∈ tag.attributes, Byte.lf ∉ a.name
  values : ∀ a ∈ tag.attributes, isFormatted a.kind = false → Byte.lf ∉ a.value

def UnbrokenLiteral (t : Bytes) : Prop :=
  Literal.kind? t ≠ none → Byte.lf ∉ t

section Unbroken

variable {name value : Bytes} (hn : Byte.lf ∉ name)
include hn

theorem unbroken_assigned (hv : Byte.lf ∉ value) : Byte.lf ∉ assigned name value := by
  have hequals : Byte.lf ≠ Byte.equals := by decide
  simp [assigned, hn, hequals, hv]

theorem unbroken_booleanText (hv : Byte.lf ∉ value) : Byte.lf ∉ booleanText name value := by
  unfold booleanText
  split
  · exact hn
  · exact unbroken_assigned hn hv

theorem unbroken_expressionText (hliteral : UnbrokenLiteral value)
    (hm : (expressionText name value).multiline = false) :
    Byte.lf ∉ (expressionText name value).text := by
  rcases expressionText_cases name value with
    ⟨hkind, htext | htext⟩ | ⟨-, htext⟩ | ⟨-, htext⟩ | ⟨hlf, htext⟩ <;> rw [htext] at hm ⊢
  · exact unbroken_booleanText hn (hliteral hkind)
  · exact unbroken_assigned hn (hliteral hkind)
  · exact unbroken_assigned hn (by decide)
  · cases hm
  · have hspace : Byte.lf ≠ Byte.space := by decide
    have hopen : Byte.lf ∉ openDelimiter := by decide
    have hclose : Byte.lf ∉ closeDelimiter := by decide
    exact unbroken_assigned hn (by simp [hspace, hopen, hclose, hlf])

end Unbroken

section Tag

variable {ctx : Context} {tag : Tag}

variable (h : UnbrokenTag tag)
include h

theorem unbroken_tagHead : Byte.lf ∉ tagHead tag :=
  List.not_mem_cons_of_ne_of_not_mem (by decide) h.name

variable (hs : ∀ s ∈ tag.snippets, UnbrokenLiteral (ctx.shown s.raw))
include hs

theorem unbroken_attributeText : ∀ a ∈ attributeTexts ctx tag, a.multiline = false → Byte.lf ∉ a.text := by
  have hliterals := (forall_tag_snippets (Q := fun raw => UnbrokenLiteral (ctx.shown raw))).1 hs
  rw [attributeTexts, List.forall_mem_map]
  intro a ha
  have hn := h.names a ha
  rcases attributeText_cases ctx a with ⟨hk, htext | htext⟩ | ⟨hk, htext⟩ <;> rw [htext]
  · exact fun _ => unbroken_booleanText hn (h.values a ha hk)
  · exact fun _ => unbroken_assigned hn (h.values a ha hk)
  · exact unbroken_expressionText hn (hliterals a ha hk)

theorem openTag_returns (depth : Nat) :
    openTag (ctx.ending .crlf) depth tag = withReturns (openTag (ctx.ending .lf) depth tag) := by
  have hspace : Byte.space ≠ Byte.lf := by decide
  have hhead : withReturns (tagHead tag) = tagHead tag := withReturns_of_unbroken (unbroken_tagHead h)
  have hend : withReturns (tagEnd tag) = tagEnd tag :=
    withReturns_of_unbroken (flat_iff.1 (flat_tagEnd tag)).1
  have hinline : withReturns (inlineEnd tag) = inlineEnd tag :=
    withReturns_of_unbroken (flat_iff.1 (flat_inlineEnd tag)).1
  have hshape : ∀ newline, tagShape (ctx.ending newline) depth tag = tagShape ctx depth tag :=
    fun _ => rfl
  have htexts : ∀ newline, attributeTexts (ctx.ending newline) tag = attributeTexts ctx tag :=
    fun _ => rfl
  have hline : ∀ newline, oneLine (ctx.ending newline) tag = oneLine ctx tag := fun _ => rfl
  simp only [openTag, hshape, htexts, hline]
  cases hlaid : tagShape ctx depth tag with
  | oneLine =>
      have hattributes : withReturns ((attributeTexts ctx tag).flatMap fun a => Byte.space :: a.text) =
          (attributeTexts ctx tag).flatMap fun a => Byte.space :: a.text := by
        rw [withReturns_flatMap]
        refine List.flatMap_congr fun a ha => ?_
        rw [withReturns_cons hspace,
          withReturns_of_unbroken (unbroken_attributeText h hs a ha (single_of_oneLine hlaid a ha))]
      simp only [oneLine, withReturns_append, hhead, hattributes, hinline]
  | hugging =>
      simp only [withReturns_append, withReturns_flatMap, withReturns_cons hspace, hhead, hinline,
        reindent_returns]
  | wrapped reason =>
      simp only [withReturns_append, withReturns_flatMap, hhead, hend, reindent_returns, indent_returns,
        newline_returns]

end Tag

mutual
def Unbroken : Node → Prop
  | .marker _ _ => True
  | .text t => Byte.lf ∉ t
  | .expression _ _ => True
  | .element tag children =>
      UnbrokenTag tag ∧
        if tag.selfClosing then True
        else if tag.sensitive then Byte.lf ∉ verbatimAll children
        else UnbrokenAll children

def UnbrokenAll : List Node → Prop
  | [] => True
  | n :: ns => Unbroken n ∧ UnbrokenAll ns
end

theorem closingTag_returns {name : Bytes} (h : Byte.lf ∉ name) :
    withReturns (closingTag name) = closingTag name := by
  have hopen : Byte.lf ∉ [Byte.less, Byte.slash] := by decide
  have hclose : Byte.lf ∉ [Byte.greater] := by decide
  refine withReturns_of_unbroken ?_
  rw [closingTag, List.mem_append, List.mem_append]
  exact not_or.2 ⟨not_or.2 ⟨hopen, h⟩, hclose⟩

mutual
theorem layoutNode_returns {ctx : Context} (depth : Nat) {parent : Bytes} (n : Node) (h : Unbroken n)
    (hs : ∀ s ∈ nodeSnippets parent n, UnbrokenLiteral (ctx.shown s.raw)) :
    layoutNode (ctx.ending .crlf) depth n = withReturns (layoutNode (ctx.ending .lf) depth n) := by
  cases n with
  | marker p b => exact markerText_returns ctx depth b
  | text t => exact (withReturns_of_unbroken h).symm
  | expression raw location => exact interpolationText_returns ctx depth (ctx.shown raw)
  | element tag children =>
      obtain ⟨htag, hbody⟩ := h
      rw [nodeSnippets, List.forall_mem_append] at hs
      have hclose := closingTag_returns htag.name
      rw [layoutNode, layoutNode, withReturns_append, openTag_returns htag hs.1]
      congr 1
      split
      · rfl
      · next hself =>
          rw [if_neg hself] at hbody
          split
          · next hsens =>
              rw [if_pos hsens] at hbody
              rw [withReturns_append, withReturns_of_unbroken hbody, hclose]
          · next hsens =>
              rw [if_neg hsens] at hbody hs
              rw [withReturns_append, layoutChildren_returns depth children hbody hs.2, hclose]

theorem layoutChildren_returns {ctx : Context} (depth : Nat) {parent : Bytes} (ns : List Node)
    (h : UnbrokenAll ns) (hs : ∀ s ∈ snippetsIn parent ns, UnbrokenLiteral (ctx.shown s.raw)) :
    layoutChildren (ctx.ending .crlf) depth ns =
      withReturns (layoutChildren (ctx.ending .lf) depth ns) := by
  cases ns with
  | nil => rfl
  | cons n ns =>
      rw [snippetsIn, List.forall_mem_append] at hs
      rw [layoutChildren, layoutChildren, withReturns_append, layoutNode_returns _ n h.1 hs.1,
        layoutChildren_returns depth ns h.2 hs.2]
end

theorem layoutTop_returns {ctx : Context} {ns : List Node} (h : UnbrokenAll ns)
    (hs : ∀ s ∈ snippets ns, UnbrokenLiteral (ctx.shown s.raw)) :
    ns.flatMap (layoutTop (ctx.ending .crlf)) = withReturns (ns.flatMap (layoutTop (ctx.ending .lf))) := by
  induction ns with
  | nil => rfl
  | cons n ns ih =>
      rw [snippets, snippetsIn, List.forall_mem_append] at hs
      rw [List.flatMap_cons, List.flatMap_cons, withReturns_append, ih h.2 hs.2]
      rcases layoutTop_cases n with ⟨b, rfl⟩ | htop
      · rfl
      · rw [htop, htop, layoutNode_returns 0 n h.1 hs.1]

theorem layout_returns {ctx : Context} {ns : List Node} (h : UnbrokenAll ns)
    (hs : ∀ s ∈ snippets ns, UnbrokenLiteral (ctx.shown s.raw)) :
    layout (ctx.ending .crlf) ns = withReturns (layout (ctx.ending .lf) ns) := by
  unfold layout
  split
  · rfl
  · rw [withReturns_append, layoutTop_returns h hs]
    rfl

end MarkupFormat.Layout

namespace MarkupFormat

open Bytes Document Layout Expression

-- With carriage returns a document is rendered as without them, but for the line ends.
theorem render_returns {f : Formatter} {nodes : List Node} (h : UnbrokenAll nodes)
    (hf : ∀ s ∈ snippets nodes, UnbrokenLiteral (shown f s.raw)) (length : Int) :
    render f ⟨length, .crlf⟩ nodes = (render f ⟨length, .lf⟩ nodes).map withReturns ∧
      ∀ miss, (renderAsking f ⟨length, .crlf⟩ miss nodes).2 =
        (renderAsking f ⟨length, .lf⟩ miss nodes).2 := by
  constructor
  · unfold render
    split
    · rfl
    · let ctx : Context := ⟨⟨length, .lf⟩, shown f⟩
      have hlayout : layout (ctx.ending .crlf) nodes = withReturns (layout (ctx.ending .lf) nodes) :=
        layout_returns h hf
      exact congrArg Except.ok hlayout
  · intro miss
    rw [renderAsking_eq, renderAsking_eq]

def returned : List Node :=
  [.marker .documentStart false,
    .element
      ⟨ascii "p",
        [⟨ascii "a", .string, ascii "\"x\"", .start⟩,
          ⟨ascii "b", .expression, ascii "[\r\n1\n]", .start⟩],
        false, false, .start⟩
      [.marker .beforeFirstChild false, .expression (ascii "f\r\n g") .start,
        .marker .beforeClosingTag false]]

theorem render_returned :
    UnbrokenAll returned ∧ (∀ s ∈ snippets returned, UnbrokenLiteral (shown .ok s.raw)) ∧
      render .ok ⟨9, .lf⟩ returned =
        .ok (ascii "<p\n  a=\"x\"\n  b=\x7b\x7b[\n  1\n  ]\x7d\x7d\n>\n  \x7b\x7b f\n   g \x7d\x7d\n</p>\n") ∧
      render .ok ⟨9, .crlf⟩ returned = (render .ok ⟨9, .lf⟩ returned).map withReturns := by
  have h : UnbrokenAll returned := by
    simp only [returned, UnbrokenAll, Unbroken]
    exact ⟨trivial, ⟨⟨by decide, by decide, by decide⟩, trivial, trivial, trivial, trivial⟩, trivial⟩
  have hf : ∀ s ∈ snippets returned, UnbrokenLiteral (shown .ok s.raw) := by
    have hcode : ∀ s ∈ snippets returned, Literal.kind? (shown .ok s.raw) = none := by decide
    exact fun s hs hne => absurd (hcode s hs) hne
  exact ⟨h, hf, rfl, (render_returns h hf 9).1⟩

end MarkupFormat
