import MarkupFormat.Proofs.Formatting
import MarkupFormat.Proofs.Hanging
import MarkupFormat.Proofs.NormalForm
import MarkupFormat.Proofs.Regularity
import MarkupFormat.Proofs.Rereading

namespace MarkupFormat.Layout

open Bytes Document

def Context.wider (ctx : Context) : Context :=
  { ctx with options := { ctx.options with lineLength := ctx.options.lineLength + 2 } }

theorem displayWidth_indent (depth : Nat) : displayWidth (indent depth) = 2 * depth := by
  rw [indent, spaces, displayWidth, List.countP_replicate]
  rfl

theorem indent_succ (depth : Nat) : indent 1 ++ indent depth = indent (depth + 1) := by
  rw [indent, indent, indent, spaces, spaces, spaces, List.replicate_append_replicate, ← Nat.mul_add,
    Nat.add_comm]

structure Moves (t t' : Bytes) : Prop where
  ends : EndsInLine t
  returns : Byte.cr ∉ t
  moved : relay [Byte.lf] (indent 1) t = t'

section Moves

variable {t t' u u' : Bytes}

theorem moves_self (h : Flat t) : Moves t t where
  ends := h.endsInLine
  returns := (flat_iff.1 h).2
  moved := by
    have hrelay : relay [Byte.lf] (indent 1) (t ++ []) = t ++ [] := relay_append_left h
    rwa [List.append_nil] at hrelay

theorem Moves.append (ht : Moves t t') (hu : Moves u u') : Moves (t ++ u) (t' ++ u') where
  ends := ht.ends.append hu.ends
  returns := by
    rw [List.mem_append]
    exact not_or.2 ⟨ht.returns, hu.returns⟩
  moved := by rw [relay_append ht.ends, ht.moved, hu.moved]

theorem moves_flatMap {α : Type} {f g : α → Bytes} {as : List α} (h : ∀ a ∈ as, Moves (f a) (g a)) :
    Moves (as.flatMap f) (as.flatMap g) := by
  induction as with
  | nil => exact moves_self flat_nil
  | cons a as ih =>
      obtain ⟨ha, has⟩ := List.forall_mem_cons.1 h
      rw [List.flatMap_cons, List.flatMap_cons]
      exact ha.append (ih has)

theorem moves_break (depth : Nat) (hstart : startsEmptyLine (indent depth ++ u) = false)
    (hu : Moves u u') : Moves (Byte.lf :: (indent depth ++ u)) (Byte.lf :: (indent (depth + 1) ++ u')) where
  ends := by
    have hne : indent depth ++ u ≠ [] := by
      intro hnil
      rw [hnil] at hstart
      cases hstart
    exact EndsInLine.append_left [Byte.lf] ((flat_indent depth).endsInLine.append hu.ends) hne
  returns := by
    have hindent := (flat_iff.1 (flat_indent depth)).2
    have hmem : Byte.cr ∉ indent depth ++ u := by
      rw [List.mem_append]
      exact not_or.2 ⟨hindent, hu.returns⟩
    exact List.not_mem_cons_of_ne_of_not_mem (by decide) hmem
  moved := by
    rw [relay_lf, hstart, relay_append_left (flat_indent depth), hu.moved, ← indent_succ depth]
    simp

end Moves

section Layout

variable {ctx : Context} (hnl : ctx.options.newline = .lf)
include hnl

theorem newline_eq : ctx.newline = [Byte.lf] := by
  rw [Context.newline, hnl]
  rfl

theorem moves_marker (depth : Nat) (blank : Bool) {u u' : Bytes}
    (hstart : startsEmptyLine (indent depth ++ u) = false) (hu : Moves u u') :
    Moves (markerText ctx depth blank ++ u) (markerText ctx.wider (depth + 1) blank ++ u') := by
  have hbreak := moves_break depth hstart hu
  have hwider : ctx.wider.newline = [Byte.lf] := newline_eq hnl
  cases blank with
  | false => simpa [markerText, newline_eq hnl, hwider] using hbreak
  | true =>
      -- the empty line stays empty
      have hempty := startsEmptyLine_lf (indent depth ++ u)
      have htwo : Moves (Byte.lf :: Byte.lf :: (indent depth ++ u))
          (Byte.lf :: Byte.lf :: (indent (depth + 1) ++ u')) := by
        constructor
        case ends => exact hbreak.ends.append_left [Byte.lf] (List.cons_ne_nil _ _)
        case returns => exact List.not_mem_cons_of_ne_of_not_mem (by decide) hbreak.returns
        case moved =>
          rw [relay_lf, hempty, hbreak.moved]
          rfl
      simpa [markerText, newline_eq hnl, hwider] using htwo

theorem moves_reindent (depth : Nat) {t : Bytes} (hcr : Byte.cr ∉ t) (hends : EndsInLine t) :
    Moves (ctx.reindent depth t) (ctx.wider.reindent (depth + 1) t) := by
  have hwider : ctx.wider.newline = [Byte.lf] := newline_eq hnl
  rw [Context.reindent, Context.reindent, newline_eq hnl, hwider, reindent_eq_relay, reindent_eq_relay]
  constructor
  case ends => exact endsInLine_relay (by simp) hends
  case returns => exact returns_relay (flat_indent depth) hcr
  case moved =>
    rw [← indent_succ depth]
    exact relay_relay .lf (indent 1) (flat_indent depth) hcr

end Layout

structure SteadyText (t : Bytes) : Prop where
  ends : EndsInLine t
  returns : Byte.cr ∉ t
  literal : Literal.kind? t ≠ none → Byte.lf ∉ t

structure AttributeText.Steady (a : AttributeText) : Prop where
  ends : EndsInLine a.text
  returns : Byte.cr ∉ a.text
  flat : a.multiline = false → Flat a.text

theorem steady_of_flat {t : Bytes} (h : Flat t) : AttributeText.Steady ⟨t, false⟩ :=
  ⟨h.endsInLine, (flat_iff.1 h).2, fun _ => h⟩

theorem flat_assigned {name value : Bytes} (hn : Flat name) (hv : Flat value) :
    Flat (assigned name value) :=
  flat_append.2 ⟨hn, flat_cons.2 ⟨by decide, hv⟩⟩

theorem flat_booleanText {name value : Bytes} (hn : Flat name) (hv : Flat value) :
    Flat (booleanText name value) := by
  unfold booleanText
  split
  · exact hn
  · exact flat_assigned hn hv

theorem flat_openDelimiter : Flat openDelimiter := by decide

theorem flat_closeDelimiter : Flat closeDelimiter := by decide

theorem steady_delimited {name t : Bytes} (hn : Flat name) (hcr : Byte.cr ∉ t) :
    AttributeText.Steady ⟨assigned name (openDelimiter ++ t ++ closeDelimiter), true⟩ where
  ends := by
    have hends := flat_closeDelimiter.endsInLine.append_left
      (name ++ Byte.equals :: (openDelimiter ++ t)) (List.cons_ne_nil _ _)
    simpa [assigned] using hends
  returns := by
    have hname := (flat_iff.1 hn).2
    have hopen := (flat_iff.1 flat_openDelimiter).2
    have hclose := (flat_iff.1 flat_closeDelimiter).2
    simpa [assigned, hname, hopen, hclose, hcr] using (by decide : Byte.cr ≠ Byte.equals)
  flat := nofun

theorem steady_expressionText {name t : Bytes} (hn : Flat name) (ht : SteadyText t) :
    (expressionText name t).Steady := by
  rcases expressionText_cases name t with
    ⟨hliteral, htext | htext⟩ | ⟨-, htext⟩ | ⟨-, htext⟩ | ⟨hlf, htext⟩
  · rw [htext]
    exact steady_of_flat (flat_booleanText hn (flat_iff.2 ⟨ht.literal hliteral, ht.returns⟩))
  · rw [htext]
    exact steady_of_flat (flat_assigned hn (flat_iff.2 ⟨ht.literal hliteral, ht.returns⟩))
  · rw [htext]
    exact steady_of_flat (flat_assigned hn (flat_append.2 ⟨flat_openDelimiter, flat_closeDelimiter⟩))
  · rw [htext]
    exact steady_delimited hn ht.returns
  · have hflat : Flat t := flat_iff.2 ⟨hlf, ht.returns⟩
    rw [htext]
    refine steady_of_flat (flat_assigned hn ?_)
    refine flat_append.2 ⟨?_, flat_cons.2 ⟨by decide, flat_closeDelimiter⟩⟩
    exact flat_append.2 ⟨flat_openDelimiter, flat_cons.2 ⟨by decide, hflat⟩⟩

structure SteadyTag (shown : Bytes → Bytes) (tag : Tag) : Prop where
  name : Flat tag.name
  names : ∀ a ∈ tag.attributes, Flat a.name
  values : ∀ a ∈ tag.attributes, isFormatted a.kind = false → Flat a.value
  shown : ∀ a ∈ tag.attributes, isFormatted a.kind = true → SteadyText (shown a.value)

section Tag

variable {ctx : Context} {tag : Tag}

theorem steady_attributeTexts (h : SteadyTag ctx.shown tag) :
    ∀ a ∈ attributeTexts ctx tag, a.Steady := by
  rw [attributeTexts, List.forall_mem_map]
  intro a ha
  have hn := h.names a ha
  rcases attributeText_cases ctx a with ⟨hk, htext | htext⟩ | ⟨hk, htext⟩ <;> rw [htext]
  · exact steady_of_flat (flat_booleanText hn (h.values a ha hk))
  · exact steady_of_flat (flat_assigned hn (h.values a ha hk))
  · exact steady_expressionText hn (h.shown a ha hk)

theorem exceedsLine_wider (hlen : 0 ≤ ctx.options.lineLength) (depth : Nat) (tag : Tag) :
    exceedsLine ctx.wider (depth + 1) tag = exceedsLine ctx depth tag := by
  have hline : oneLine ctx.wider tag = oneLine ctx tag := rfl
  have hlength : ctx.wider.options.lineLength = ctx.options.lineLength + 2 := rfl
  rw [Bool.eq_iff_iff]
  simp only [exceedsLine, Options.exceeds, hline, hlength, displayWidth_indent, Bool.and_eq_true,
    decide_eq_true_eq]
  omega

theorem tagShape_wider (hlen : 0 ≤ ctx.options.lineLength) (depth : Nat) (tag : Tag) :
    tagShape ctx.wider (depth + 1) tag = tagShape ctx depth tag := by
  simp only [tagShape, exceedsLine_wider hlen]
  rfl

theorem single_of_oneLine {depth : Nat} (hshape : tagShape ctx depth tag = .oneLine) :
    ∀ a ∈ attributeTexts ctx tag, a.multiline = false := by
  unfold tagShape at hshape
  split at hshape
  · next htexts => simp [htexts]
  · next a htexts =>
      split at hshape
      · cases hshape
      · next hm => simpa [htexts] using hm
  · split at hshape
    · cases hshape
    · split at hshape
      · cases hshape
      · next hany => simpa using hany

theorem flat_of_oneLine (h : SteadyTag ctx.shown tag) {depth : Nat}
    (hshape : tagShape ctx depth tag = .oneLine) : ∀ a ∈ attributeTexts ctx tag, Flat a.text :=
  fun a ha => (steady_attributeTexts h a ha).flat (single_of_oneLine hshape a ha)

theorem flat_tagHead (h : SteadyTag ctx.shown tag) : Flat (tagHead tag) :=
  flat_cons.2 ⟨by decide, h.name⟩

theorem flat_tagEnd (tag : Tag) : Flat (tagEnd tag) := by
  unfold tagEnd
  split <;> decide

theorem flat_inlineEnd (tag : Tag) : Flat (inlineEnd tag) := by
  unfold inlineEnd
  split
  · exact flat_cons.2 ⟨by decide, flat_tagEnd tag⟩
  · exact flat_tagEnd tag

theorem flat_flatMap {α : Type} {f : α → Bytes} {as : List α} (h : ∀ a ∈ as, Flat (f a)) :
    Flat (as.flatMap f) := by
  intro c hc
  obtain ⟨a, ha, hca⟩ := List.mem_flatMap.1 hc
  exact h a ha c hca

theorem moves_openTag (hnl : ctx.options.newline = .lf) (hlen : 0 ≤ ctx.options.lineLength)
    (h : SteadyTag ctx.shown tag) (depth : Nat) :
    Moves (openTag ctx depth tag) (openTag ctx.wider (depth + 1) tag) := by
  have hsteady := steady_attributeTexts h
  have hhead := flat_tagHead h
  have htexts : attributeTexts ctx.wider tag = attributeTexts ctx tag := rfl
  have hline : oneLine ctx.wider tag = oneLine ctx tag := rfl
  have hlf : ctx.newline = [Byte.lf] := newline_eq hnl
  have hwider : ctx.wider.newline = [Byte.lf] := newline_eq hnl
  have hmove : ∀ k, ∀ a ∈ attributeTexts ctx tag,
      Moves (ctx.reindent k a.text) (ctx.wider.reindent (k + 1) a.text) :=
    fun k a ha => moves_reindent hnl k (hsteady a ha).returns (hsteady a ha).ends
  simp only [openTag, tagShape_wider hlen, htexts, hline]
  cases hshape : tagShape ctx depth tag with
  | oneLine =>
      have hflat := flat_of_oneLine h hshape
      have hattrs : Flat ((attributeTexts ctx tag).flatMap fun a => Byte.space :: a.text) :=
        flat_flatMap fun a ha => flat_cons.2 ⟨by decide, hflat a ha⟩
      exact moves_self (flat_append.2 ⟨flat_append.2 ⟨hhead, hattrs⟩, flat_inlineEnd tag⟩)
  | hugging =>
      have hspace : Flat [Byte.space] := by decide
      have hattrs := moves_flatMap fun a ha => (moves_self hspace).append (hmove depth a ha)
      exact ((moves_self hhead).append hattrs).append (moves_self (flat_inlineEnd tag))
  | wrapped reason =>
      -- a line of an attribute is indented even if nothing is on it
      have hindent : ∀ t, startsEmptyLine (indent (depth + 1) ++ t) = false := fun _ => rfl
      have hattrs := moves_flatMap fun a ha =>
        moves_marker hnl (depth + 1) false (hindent _) (hmove (depth + 1) a ha)
      have hend : startsEmptyLine (indent depth ++ tagEnd tag) = false :=
        startsEmptyLine_flat (flat_indent depth) (by unfold tagEnd; split <;> rfl)
      have hclose := moves_marker hnl depth false hend (moves_self (flat_tagEnd tag))
      have hall := ((moves_self hhead).append hattrs).append hclose
      simpa [markerText] using hall

theorem openTag_cons (depth : Nat) : ∃ t, openTag ctx depth tag = Byte.less :: t := by
  unfold openTag
  cases tagShape ctx depth tag with
  | oneLine => exact ⟨_, rfl⟩
  | hugging => exact ⟨_, rfl⟩
  | wrapped reason => exact ⟨_, rfl⟩

end Tag

structure Inline (t t' : Bytes) : Prop extends Moves t t' where
  starts : startsEmptyLine t = false

structure SteadyElement (e : Tag × List Node) : Prop where
  name : Flat e.1.name
  names : ∀ a ∈ e.1.attributes, Flat a.name
  values : ∀ a ∈ e.1.attributes, isFormatted a.kind = false → Flat a.value
  verbatim : e.1.selfClosing = false → e.1.sensitive = true → Flat (verbatimAll e.2)
  body : e.1.selfClosing = false → e.1.sensitive = false →
    MarkersApart e.2 ∧ ∀ t, Node.text t ∈ e.2 → OneLine t

theorem flat_closingTag {name : Bytes} (h : Flat name) : Flat (closingTag name) := by
  have hopen : Flat [Byte.less, Byte.slash] := by decide
  have hclose : Flat [Byte.greater] := by decide
  exact flat_append.2 ⟨flat_append.2 ⟨hopen, h⟩, hclose⟩

theorem Inline.starts_append {t t' : Bytes} (h : Inline t t') (u : Bytes) :
    startsEmptyLine (t ++ u) = false := by
  have hne : t ≠ [] := by
    rintro rfl
    cases h.starts
  rw [startsEmptyLine_append h.ends hne]
  exact h.starts

theorem Inline.append {t t' u u' : Bytes} (ht : Inline t t') (hu : Moves u u') :
    Inline (t ++ u) (t' ++ u') :=
  ⟨ht.toMoves.append hu, ht.starts_append u⟩

theorem inline_self {t : Bytes} (h : Flat t) (hne : t ≠ []) : Inline t t := by
  refine ⟨moves_self h, ?_⟩
  cases t with
  | nil => exact absurd rfl hne
  | cons c t =>
      obtain ⟨hlf, hcr⟩ := (flat_cons.1 h).1
      exact startsEmptyLine_cons t hlf hcr

theorem flat_oneLine {t : Bytes} (h : OneLine t) : Flat t := by
  intro c hc
  constructor
  · rintro rfl
    cases h.spaces _ hc isBlank_lf
  · rintro rfl
    cases h.spaces _ hc isBlank_cr

theorem markersApart_text {ns : List Node} (h : MarkersApart ns) (t : Bytes) :
    MarkersApart (ns ++ [Document.Node.text t]) := by
  refine List.isChain_append.2 ⟨h, .singleton _, ?_⟩
  rintro n - m hm ⟨-, hmark⟩
  cases (by simpa using hm : Document.Node.text t = m)
  cases hmark

theorem getLast?_text (ns : List Node) (t : Bytes) :
    ∀ n ∈ (ns ++ [Document.Node.text t]).getLast?, n.isMarker = false := by
  intro n hn
  rw [List.getLast?_concat, Option.mem_some_iff] at hn
  rw [← hn]
  rfl

section Nodes

variable {ctx : Context} (hnl : ctx.options.newline = .lf)
include hnl

theorem inline_expression (depth : Nat) {t : Bytes} (h : SteadyText t) :
    Inline (interpolationText ctx depth t) (interpolationText ctx.wider (depth + 1) t) := by
  unfold interpolationText
  split
  · exact inline_self (by decide) (by decide)
  · have hopen : Flat (openDelimiter ++ [Byte.space]) := by decide
    have hclose : Flat (Byte.space :: closeDelimiter) := by decide
    have hmove := moves_reindent hnl depth h.returns h.ends
    have hall := ((inline_self hopen (by decide)).append hmove).append (moves_self hclose)
    simpa using hall

theorem moves_nodes (dep : Node → Nat) {ns : List Node} (hm : MarkersApart ns)
    (hlast : ∀ n ∈ ns.getLast?, n.isMarker = false)
    (h : ∀ n ∈ ns, n.isMarker = false →
      Inline (layoutNode ctx (dep n) n) (layoutNode ctx.wider (dep n + 1) n)) :
    Moves (ns.flatMap fun n => layoutNode ctx (dep n) n)
      (ns.flatMap fun n => layoutNode ctx.wider (dep n + 1) n) := by
  induction ns with
  | nil => exact moves_self flat_nil
  | cons n ns ih =>
      obtain ⟨hn, hns⟩ := List.forall_mem_cons.1 h
      have htail : ∀ k ∈ ns.getLast?, k.isMarker = false := by
        intro k hk
        cases ns with
        | nil => cases hk
        | cons j js => exact hlast k (by rwa [List.getLast?_cons_cons])
      have ih := ih (List.IsChain.tail hm) htail hns
      rw [List.flatMap_cons, List.flatMap_cons]
      cases hmark : n.isMarker with
      | false => exact (hn hmark).toMoves.append ih
      | true =>
          cases ns with
          | nil =>
              have := hlast n rfl
              rw [hmark] at this
              cases this
          | cons k ks =>
              have hk := head_after_marker hm hmark k rfl
              have hstart := (hns k List.mem_cons_self hk).starts_append
                (ks.flatMap fun n => layoutNode ctx (dep n) n)
              cases n with
              | marker p b =>
                  exact moves_marker hnl (dep (.marker p b)) b
                    (startsEmptyLine_flat (flat_indent _) hstart) ih
              | text t => cases hmark
              | expression raw location => cases hmark
              | element tag children => cases hmark

theorem inline_openTag (hlen : 0 ≤ ctx.options.lineLength) {tag : Tag} (h : SteadyTag ctx.shown tag)
    (depth : Nat) : Inline (openTag ctx depth tag) (openTag ctx.wider (depth + 1) tag) := by
  refine ⟨moves_openTag hnl hlen h depth, ?_⟩
  obtain ⟨t, ht⟩ : ∃ t, openTag ctx depth tag = Byte.less :: t := openTag_cons depth
  rw [ht]
  exact startsEmptyLine_cons t (by decide) (by decide)

theorem moves_children {children : List Node} (hm : MarkersApart children) {close : Bytes}
    (hclose : Flat close) (hne : close ≠ []) (depth : Nat)
    (h : ∀ n ∈ children, n.isMarker = false → ∀ depth,
      Inline (layoutNode ctx depth n) (layoutNode ctx.wider (depth + 1) n)) :
    Moves (layoutChildren ctx depth children ++ close)
      (layoutChildren ctx.wider (depth + 1) children ++ close) := by
  have hall : ∀ n ∈ children ++ [Document.Node.text close], n.isMarker = false →
      Inline (layoutNode ctx (childDepth depth n) n)
        (layoutNode ctx.wider (childDepth depth n + 1) n) := by
    intro n hn hmark
    rcases List.mem_append.1 hn with hn | hn
    · exact h n hn hmark _
    · rw [List.mem_singleton.1 hn]
      exact inline_self hclose hne
  have hdepth : ∀ n : Node, childDepth (depth + 1) n = childDepth depth n + 1 := by
    intro n
    cases n with
    | marker p b => cases p <;> rfl
    | text t => rfl
    | expression raw location => rfl
    | element tag children => rfl
  have hmoves := moves_nodes hnl (childDepth depth) (markersApart_text hm close)
    (getLast?_text children close) hall
  simp only [List.flatMap_append, List.flatMap_singleton, layoutNode] at hmoves
  rw [layoutChildren_eq_flatMap, layoutChildren_eq_flatMap]
  simpa only [hdepth] using hmoves

end Nodes

mutual
theorem inline_node {ctx : Context} (hnl : ctx.options.newline = .lf)
    (hlen : 0 ≤ ctx.options.lineLength) {parent : Bytes} (n : Node) (hn : n.isMarker = false)
    (hline : ∀ t, n = .text t → OneLine t)
    (he : ∀ e ∈ n.elements, SteadyElement e)
    (hs : ∀ s ∈ nodeSnippets parent n, SteadyText (ctx.shown s.raw)) (depth : Nat) :
    Inline (layoutNode ctx depth n) (layoutNode ctx.wider (depth + 1) n) := by
  cases n with
  | marker p b => cases hn
  | text t =>
      have ht := hline t rfl
      exact inline_self (flat_oneLine ht) ht.ne_nil
  | expression raw location =>
      exact inline_expression hnl depth (hs ⟨raw, location, parent, []⟩ (by simp [nodeSnippets]))
  | element tag children =>
      obtain ⟨htag, hkids⟩ := List.forall_mem_cons.1 he
      obtain ⟨hattrs, hinner⟩ := List.forall_mem_append.1 hs
      have hsteady : SteadyTag ctx.shown tag := ⟨htag.name, htag.names, htag.values,
        (forall_tag_snippets (Q := fun raw => SteadyText (ctx.shown raw))).1 hattrs⟩
      have hopen := inline_openTag hnl hlen hsteady depth
      have hclose : Flat (closingTag tag.name) := flat_closingTag htag.name
      rw [layoutNode, layoutNode]
      refine hopen.append ?_
      cases hself : tag.selfClosing with
      | true => exact moves_self flat_nil
      | false =>
          cases hsens : tag.sensitive with
          | true =>
              have hbody := htag.verbatim hself hsens
              exact moves_self (flat_append.2 ⟨hbody, hclose⟩)
          | false =>
              obtain ⟨hapart, hlines⟩ := htag.body hself hsens
              rw [hsens] at hinner
              exact moves_children hnl hapart hclose (by simp [closingTag]) depth
                (inline_all hnl hlen children hlines hkids hinner)

theorem inline_all {ctx : Context} (hnl : ctx.options.newline = .lf)
    (hlen : 0 ≤ ctx.options.lineLength) {parent : Bytes} (ns : List Node)
    (hlines : ∀ t, Node.text t ∈ ns → OneLine t) (he : ∀ e ∈ elementsIn ns, SteadyElement e)
    (hs : ∀ s ∈ snippetsIn parent ns, SteadyText (ctx.shown s.raw)) :
    ∀ n ∈ ns, n.isMarker = false → ∀ depth,
      Inline (layoutNode ctx depth n) (layoutNode ctx.wider (depth + 1) n) := by
  cases ns with
  | nil => exact nofun
  | cons n ns =>
      obtain ⟨hen, hens⟩ := List.forall_mem_append.1 he
      obtain ⟨hsn, hsns⟩ := List.forall_mem_append.1 hs
      have hfirst : ∀ t, n = .text t → OneLine t := by
        rintro t rfl
        exact hlines t List.mem_cons_self
      have hrest := inline_all hnl hlen ns (fun t ht => hlines t (List.mem_cons_of_mem _ ht)) hens hsns
      exact List.forall_mem_cons.2
        ⟨fun hmark => inline_node hnl hlen n hmark hfirst hen hsn, hrest⟩
end

end MarkupFormat.Layout

namespace MarkupFormat

open Bytes Document Layout Expression

structure Steady (f : Formatter) (doc : List Node) : Prop where
  names : ∀ e ∈ elementsIn doc, Flat e.1.name ∧ ∀ a ∈ e.1.attributes, Flat a.name
  values : ∀ e ∈ elementsIn doc, ∀ a ∈ e.1.attributes, isFormatted a.kind = false → Flat a.value
  bodies : ∀ e ∈ elementsIn doc, e.1.sensitive = true → Flat (verbatimAll e.2)
  returns : ∀ s ∈ snippets doc, Byte.cr ∉ shown f s.raw
  literals : ∀ s ∈ snippets doc, Literal.kind? (shown f s.raw) ≠ none → Byte.lf ∉ shown f s.raw

def nested (name : Bytes) (b : Bool) (location : Location) (rest : List Node) : List Node :=
  [.marker .documentStart b,
    .element ⟨name, [], false, false, location⟩
      (.marker .beforeFirstChild false :: rest ++ [.marker .beforeClosingTag false])]

theorem forall_snippetsIn_parent {Q : Bytes → Prop} {p : Bytes} (q : Bytes) {ns : List Node}
    (h : ∀ s ∈ snippetsIn p ns, Q s.raw) : ∀ s ∈ snippetsIn q ns, Q s.raw := by
  induction ns with
  | nil => exact nofun
  | cons n ns ih =>
      obtain ⟨hn, hns⟩ := List.forall_mem_append.1 h
      refine List.forall_mem_append.2 ⟨?_, ih hns⟩
      cases n with
      | marker position b => exact nofun
      | text t => exact nofun
      | expression raw location => simpa [nodeSnippets] using hn
      | element tag children => exact hn

theorem forall_snippets_nested {Q : Bytes → Prop} {name : Bytes} {b : Bool} {location : Location}
    {rest : List Node} (h : ∀ s ∈ snippets rest, Q s.raw) :
    ∀ s ∈ snippets (nested name b location rest), Q s.raw := by
  have hinner := forall_snippetsIn_parent name h
  have hraws : snippets (nested name b location rest) = snippetsIn name rest := by
    simp [snippets, nested, snippetsIn, nodeSnippets, Tag.snippets, snippetsIn_eq_flatMap]
  rwa [hraws]

section Document

variable {src : Source} {tree : List Raw.Node} {b : Bool} {rest : List Node}

theorem steadyElement_of_regular {f : Formatter} {doc : List Node} (hreg : Regular src tree doc)
    (h : Steady f doc) : ∀ e ∈ elementsIn doc, SteadyElement e := by
  intro e he
  obtain ⟨raw, -, hraw⟩ := hreg.elements e he
  obtain ⟨hname, hnames⟩ := h.names e he
  exact {
    name := hname
    names := hnames
    values := h.values e he
    verbatim := fun _ hsens => h.bodies e he hsens
    body := fun hself hsens => ⟨(hraw.body hself hsens).apart, (hraw.body hself hsens).lines⟩ }

theorem moves_document {f : Formatter} {length : Int} (hlen : 0 ≤ length)
    (hreg : Regular src tree (.marker .documentStart b :: rest))
    (h : Steady f (.marker .documentStart b :: rest)) :
    Moves (rest.flatMap (layoutNode ⟨⟨length, .lf⟩, shown f⟩ 0))
      (rest.flatMap (layoutNode ⟨⟨length + 2, .lf⟩, shown f⟩ 1)) := by
  let ctx : Context := ⟨⟨length, .lf⟩, shown f⟩
  have htop := hreg.top
  have hsteady : ∀ s ∈ snippets rest, SteadyText (ctx.shown s.raw) := by
    intro s hs
    refine ⟨?_, h.returns s hs, h.literals s hs⟩
    change EndsInLine (shown f s.raw)
    unfold shown
    split
    · exact flat_nil.endsInLine
    · exact endsInLine_trim _
  have hlines : ∀ t, Node.text t ∈ rest → OneLine t :=
    fun t ht => htop.lines t (List.mem_cons_of_mem _ ht)
  have helements : ∀ e ∈ elementsIn rest, SteadyElement e := fun e he =>
    steadyElement_of_regular hreg h e he
  have hlf : ctx.options.newline = .lf := rfl
  have hnodes := inline_all hlf hlen rest hlines helements hsteady
  exact moves_nodes hlf (fun _ => 0) (List.IsChain.tail htop.apart) htop.getLast?_solid
    fun n hn hmark => hnodes n hn hmark 0

end Document

theorem layout_nested {ctx : Context} (name : Bytes) (b : Bool) (location : Location)
    {rest : List Node} (hbetween : ∀ p c, Node.marker p c ∈ rest → p = .betweenSiblings) :
    layout ctx (nested name b location rest) =
      Byte.less :: name ++ Byte.greater :: markerText ctx 1 false
        ++ rest.flatMap (layoutNode ctx 1) ++ markerText ctx 0 false ++ closingTag name
        ++ ctx.newline := by
  have hinner : layoutChildren ctx 0 rest = rest.flatMap (layoutNode ctx 1) := by
    rw [layoutChildren_eq_flatMap]
    refine List.flatMap_congr fun n hn => ?_
    cases n with
    | marker p c =>
        cases hbetween p c hn
        rfl
    | text t => rfl
    | expression raw location => rfl
    | element tag children => rfl
  have happend : ∀ ns ms, layoutChildren ctx 0 (ns ++ ms) =
      layoutChildren ctx 0 ns ++ layoutChildren ctx 0 ms := by
    intro ns ms
    simp only [layoutChildren_eq_flatMap, List.flatMap_append]
  rw [nested, layout_start b ⟨_, List.mem_singleton_self _, rfl⟩ (by simp)]
  simp [layoutNode, openTag, tagShape, attributeTexts, oneLine, tagHead, inlineEnd, tagEnd,
    layoutChildren, happend, hinner, childDepth]

-- A document that is put inside an element is shown as before, with its lines moved.
theorem render_nested {f : Formatter} {src : Source} {tree : List Raw.Node} {b : Bool}
    {rest : List Node} {length : Int} {t : Bytes}
    (hdoc : ofRaw? src tree = .ok (.marker .documentStart b :: rest))
    (hsteady : Steady f (.marker .documentStart b :: rest)) (hlen : 1 ≤ length)
    (hrender : render f ⟨length, .lf⟩ (.marker .documentStart b :: rest) = .ok (t ++ [Byte.lf]))
    (name : Bytes) (c : Bool) (location : Location) :
    render f ⟨length + 2, .lf⟩ (nested name c location rest) =
      .ok (Byte.less :: name ++ [Byte.greater, Byte.lf] ++ spaces 2 ++ hang (spaces 2) t
        ++ [Byte.lf] ++ closingTag name ++ [Byte.lf]) := by
  have hreg : Regular src tree (.marker .documentStart b :: rest) := by
    rw [eq_ofRaw_of_ok hdoc]
    exact regular_ofRaw src tree
  have hbetween := hreg.top.marker_eq
  obtain ⟨hsnippets, hlayout⟩ := render_iff.1 hrender
  have hne : rest ≠ [] := by
    rintro rfl
    have hempty : layout ⟨⟨length, .lf⟩, shown f⟩ [.marker .documentStart b] = [] := rfl
    rw [hempty] at hlayout
    simp at hlayout
  have hcontent : ∃ n ∈ rest, n.isMarker = false :=
    ⟨_, List.getLast_mem hne, hreg.top.getLast?_solid _ (List.getLast?_eq_getLast_of_ne_nil hne)⟩
  have hstart : ∀ d, Node.marker .documentStart d ∉ rest := by
    intro d hd
    cases hbetween _ _ hd
  have ht : rest.flatMap (layoutNode ⟨⟨length, .lf⟩, shown f⟩ 0) = t := by
    rw [layout_start b hcontent hstart] at hlayout
    exact List.append_cancel_right hlayout
  have hmoves := moves_document (Int.le_trans (by decide) hlen) hreg hsteady
  have hhang : hang (spaces 2) t = rest.flatMap (layoutNode ⟨⟨length + 2, .lf⟩, shown f⟩ 1) := by
    rw [← ht, ← reindent_eq_hang _ hmoves.returns, reindent_eq_relay]
    exact hmoves.moved
  refine render_iff.2 ⟨forall_snippets_nested (Q := fun raw => ∃ v, f raw = .ok v) hsnippets, ?_⟩
  rw [layout_nested name c location hbetween, ← hhang]
  simp [markerText, Context.newline, Newline.text, indent, indentWidth, spaces]

def listing : Source :=
  ⟨[], ascii "<p>\n\x7b\x7b[1,\n2]\x7d\x7d\n</p>"⟩

def listingTree : List Raw.Node :=
  [.element ⟨0, 19⟩ ⟨ascii "p", [], false, ⟨0, 3⟩, some ⟨15, 19⟩⟩ [.interpolation ⟨4, 14⟩ ⟨6, 12⟩]]

def listingBody : List Node :=
  [.element ⟨ascii "p", [], false, false, ⟨1, 1, 0⟩⟩
    [.marker .beforeFirstChild false, .expression (ascii "[1,\n2]") ⟨2, 1, 4⟩,
      .marker .beforeClosingTag false]]

theorem render_nested_listing :
    ofRaw? listing listingTree = .ok (.marker .documentStart false :: listingBody) ∧
      Steady .ok (.marker .documentStart false :: listingBody) ∧
      render .ok ⟨40, .lf⟩ (.marker .documentStart false :: listingBody) =
        .ok (ascii "<p>\n  \x7b\x7b [1,\n  2] \x7d\x7d\n</p>" ++ [Byte.lf]) ∧
      render .ok ⟨42, .lf⟩ (nested (ascii "div") false .start listingBody) =
        .ok (ascii "<div>\n  <p>\n    \x7b\x7b [1,\n    2] \x7d\x7d\n  </p>\n</div>\n") := by
  have hdoc : ofRaw? listing listingTree = .ok (.marker .documentStart false :: listingBody) := rfl
  have hsteady : Steady .ok (.marker .documentStart false :: listingBody) :=
    ⟨by decide, by decide, by decide, by decide, by decide⟩
  have hrender : render .ok ⟨40, .lf⟩ (.marker .documentStart false :: listingBody) =
      .ok (ascii "<p>\n  \x7b\x7b [1,\n  2] \x7d\x7d\n</p>" ++ [Byte.lf]) := rfl
  have hnested := render_nested hdoc hsteady (by decide) hrender (ascii "div") false .start
  exact ⟨hdoc, hsteady, hrender, hnested⟩

end MarkupFormat
