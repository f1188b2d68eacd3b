import MarkupFormat.Proofs.LineLength
import MarkupFormat.Proofs.Lossless
import MarkupFormat.Proofs.Normalized
import MarkupFormat.Proofs.TidyLines

namespace MarkupFormat.Written

open Bytes Document

theorem Value.text_kept (v : Value) (h : isFormatted v.kind = false) :
    (v.kind = .string ∧ ∃ body, v.text = Byte.quote :: body ++ [Byte.quote]) ∨
      Literal.isBoolean v.text = true := by
  cases v with
  | absent => exact .inr rfl
  | expression inner => cases h
  | quoted body => exact .inl ⟨rfl, body, rfl⟩
  | word t =>
      by_cases hb : Literal.isBoolean t = true
      · exact .inr (by simp [Value.text, hb])
      · by_cases hi : Value.isIntegerWord t = true
        · simp [Value.kind, hb, hi, isFormatted] at h
        · exact .inl ⟨by simp [Value.kind, hb, hi], t, by simp [Value.text, hb, hi]⟩

end MarkupFormat.Written

namespace MarkupFormat.Raw

open Bytes Document
open Written hiding Node

structure Header.Solid (head : Header) : Prop where
  name : ∀ c ∈ head.name, isBlank c = false
  names : ∀ a ∈ head.attributes, ∀ c ∈ a.name, isBlank c = false
  values : ∀ a ∈ head.attributes, isFormatted a.kind = false →
    (a.kind = .string ∧ ∃ body, a.value = Byte.quote :: body ++ [Byte.quote]) ∨
      Literal.isBoolean a.value = true

theorem mem_locateAttributes {as : List WrittenAttribute} : ∀ {start}, ∀ a ∈ locateAttributes start as,
    ∃ b ∈ as, a.name = b.name ∧ a.kind = b.value.kind ∧ a.value = b.value.text := by
  induction as with
  | nil => nofun
  | cons b as ih =>
      intro start a ha
      rcases List.mem_cons.1 ha with rfl | ha
      · exact ⟨b, List.mem_cons_self, rfl, rfl, rfl⟩
      · obtain ⟨b', hb', h⟩ := ih a ha
        exact ⟨b', List.mem_cons_of_mem _ hb', h⟩

theorem solid_ofTag {i : Item} {tag : OpenTag} (h : i.Legal) (ht : i.tag? = some tag) (start : Nat)
    (openTag : Span) (closeTag : Option Span) : (Header.ofTag start tag openTag closeTag).Solid where
  name := h.solid_name ht
  names := by
    intro a ha
    obtain ⟨b, hb, hname, -, -⟩ := mem_locateAttributes a ha
    rw [hname]
    exact h.solid_names ht b hb
  values := by
    intro a ha hf
    obtain ⟨b, -, -, hkind, hvalue⟩ := mem_locateAttributes a ha
    rw [hkind] at hf ⊢
    rw [hvalue]
    exact b.value.text_kept hf

mutual
theorem solid_locate (n : Written.Node) {start : Nat} {after : Bytes} (h : n.Legal after) :
    ∀ e ∈ (locate start n).elements, e.head.Solid := by
  cases n with
  | text t => nofun
  | comment t => nofun
  | interpolation inner => nofun
  | selfClosed tag => exact List.forall_mem_singleton.2 (solid_ofTag h rfl _ _ _)
  | verbatim tag body => exact List.forall_mem_singleton.2 (solid_ofTag h rfl _ _ _)
  | element tag children =>
      exact List.forall_mem_cons.2 ⟨solid_ofTag h.1 rfl _ _ _, solid_locateAll children h.2⟩

theorem solid_locateAll (ns : List Written.Node) {start : Nat} {after : Bytes} (h : LegalAll after ns) :
    ∀ e ∈ elementsIn (locateAll start ns), e.head.Solid := by
  cases ns with
  | nil => nofun
  | cons n ns => exact List.forall_mem_append.2 ⟨solid_locate n h.1, solid_locateAll ns h.2⟩
end

end MarkupFormat.Raw

namespace MarkupFormat.Layout

open Bytes Document

structure Closing (t : Bytes) : Prop where
  unbroken : Byte.lf ∉ t
  last : ∀ c ∈ t.getLast?, isBlank c = false

theorem Inked.closing {t : Bytes} (h : Inked t) : Closing t :=
  ⟨h.unbroken, h.last⟩

theorem closing_of_isBoolean {t : Bytes} (h : Literal.isBoolean t = true) : Closing t := by
  simp only [Literal.isBoolean, Bool.or_eq_true, decide_eq_true_eq] at h
  rcases h with rfl | rfl <;> exact (inked_of_all (List.cons_ne_nil _ _) rfl).closing

theorem inked_oneLine {t : Bytes} (h : OneLine t) : Inked t where
  ne_nil := h.ne_nil
  unbroken := fun hlf => by cases h.spaces _ hlf isBlank_lf
  first := h.first
  last := h.last

theorem reindent_closing (ctx : Context) (depth : Nat) {t : Bytes} (h : Closing t) :
    ctx.reindent depth t = t := by
  rw [Context.reindent, reindent_eq_relay]
  exact relay_of_no_break h.unbroken fun hcr => by cases h.last _ hcr

theorem inked_delimited {t : Bytes} (h : Byte.lf ∉ t) :
    Inked (openDelimiter ++ Byte.space :: t ++ Byte.space :: closeDelimiter) := by
  have hopen : Inked openDelimiter := inked_of_all (List.cons_ne_nil _ _) rfl
  have hclose : Inked closeDelimiter := inked_of_all (List.cons_ne_nil _ _) rfl
  have hspace : Byte.lf ≠ Byte.space := by decide
  have hinner : Byte.lf ∉ Byte.space :: t ++ [Byte.space] := by simp [h, hspace]
  simpa using hopen.around hinner hclose

section Values

variable {name value : Bytes} (hn : Inked name) (hv : Closing value)
include hn hv

theorem inked_assigned : Inked (assigned name value) := by
  have hequals : Inked [Byte.equals] := inked_of_all (List.cons_ne_nil _ _) rfl
  have hfront := hn.append hequals
  have happend : assigned name value = name ++ [Byte.equals] ++ value := by simp [assigned]
  rw [happend]
  by_cases hnil : value = []
  · rw [hnil, List.append_nil]
    exact hfront
  · constructor
    case ne_nil => exact List.append_ne_nil_of_left_ne_nil hfront.ne_nil value
    case unbroken => exact fun h => (List.mem_append.1 h).elim hfront.unbroken hv.unbroken
    case first =>
      rw [List.head?_append_of_ne_nil _ hfront.ne_nil]
      exact hfront.first
    case last =>
      rw [List.getLast?_append_of_ne_nil _ hnil]
      exact hv.last

theorem inked_booleanText : Inked (booleanText name value) := by
  unfold booleanText
  split
  · exact hn
  · exact inked_assigned hn hv

theorem inked_expressionText :
    Inked (expressionText name value).text ∧ (expressionText name value).multiline = false := by
  rcases expressionText_cases name value with
    ⟨-, htext | htext⟩ | ⟨-, htext⟩ | ⟨hlf, -⟩ | ⟨-, htext⟩
  · rw [htext]
    exact ⟨inked_booleanText hn hv, rfl⟩
  · rw [htext]
    exact ⟨inked_assigned hn hv, rfl⟩
  · rw [htext]
    exact ⟨inked_assigned hn (inked_of_all (List.cons_ne_nil _ _) rfl).closing, rfl⟩
  · exact absurd hlf hv.unbroken
  · rw [htext]
    exact ⟨inked_assigned hn (inked_delimited hv.unbroken).closing, rfl⟩

end Values

structure InkedTag (tag : Tag) : Prop where
  name : ∀ c ∈ tag.name, isBlank c = false
  names : ∀ a ∈ tag.attributes, Inked a.name
  values : ∀ a ∈ tag.attributes, isFormatted a.kind = false → Closing a.value

theorem inked_less {s : Bytes} (h : ∀ c ∈ s, isBlank c = false) : Inked (Byte.less :: s) :=
  inked_of_solid (List.cons_ne_nil _ _) (List.forall_mem_cons.2 ⟨rfl, h⟩)

theorem inked_closingTag {name : Bytes} (h : ∀ c ∈ name, isBlank c = false) : Inked (closingTag name) := by
  have hrest : ∀ c ∈ Byte.slash :: (name ++ [Byte.greater]), isBlank c = false :=
    List.forall_mem_cons.2 ⟨rfl, List.forall_mem_append.2 ⟨h, List.forall_mem_singleton.2 rfl⟩⟩
  exact inked_less hrest

theorem inked_tagEnd (tag : Tag) : Inked (tagEnd tag) := by
  unfold tagEnd
  split <;> exact inked_of_all (List.cons_ne_nil _ _) rfl

theorem newline_indent {ctx : Context} (hnl : ctx.options.newline = .lf) (depth : Nat) :
    ctx.newline ++ indent depth = lineBreak false depth := by
  rw [newline_eq hnl]
  rfl

theorem flowing_attributes {ctx : Context} (hnl : ctx.options.newline = .lf) (depth : Nat)
    {as : List AttributeText} (has : ∀ a ∈ as, Inked a.text) : ∀ t, Flowing t →
      Flowing (t ++ as.flatMap fun a => ctx.newline ++ indent depth ++ ctx.reindent depth a.text) := by
  induction as with
  | nil => simp
  | cons a as ih =>
      intro t ht
      obtain ⟨ha, has⟩ := List.forall_mem_cons.1 has
      have hnext := ih has _ (ht.under false depth (.line ha))
      rw [List.flatMap_cons, newline_indent hnl, reindent_closing ctx _ ha.closing, ← List.append_assoc]
      simpa [newline_indent hnl] using hnext

section Tag

variable {ctx : Context} {tag : Tag} (h : InkedTag tag)
  (hs : ∀ s ∈ tag.snippets, Closing (ctx.shown s.raw))
include h hs

theorem inked_attributeText : ∀ a ∈ tag.attributes,
    Inked (attributeText ctx a).text ∧ (attributeText ctx a).multiline = false := by
  intro a ha
  have hn := h.names a ha
  have hshown := (forall_tag_snippets (Q := fun raw => Closing (ctx.shown raw))).1 hs a ha
  rcases attributeText_cases ctx a with ⟨hk, htext | htext⟩ | ⟨hk, htext⟩ <;> rw [htext]
  · exact ⟨inked_booleanText hn (h.values a ha hk), rfl⟩
  · exact ⟨inked_assigned hn (h.values a ha hk), rfl⟩
  · exact inked_expressionText hn (hshown hk)

theorem inked_oneLineTag : Inked (oneLine ctx tag) := by
  have hgap : Byte.lf ∉ (if tag.selfClosing then [Byte.space] else []) := by split <;> decide
  have hattributes : Byte.lf ∉ (attributeTexts ctx tag).flatMap fun a => Byte.space :: a.text := by
    rw [attributeTexts, List.flatMap_map, List.mem_flatMap]
    rintro ⟨a, ha, hlf⟩
    rcases List.mem_cons.1 hlf with heq | hlf
    · cases heq
    · exact (inked_attributeText h hs a ha).1.unbroken hlf
  have hline : oneLine ctx tag = tagHead tag ++
      ((attributeTexts ctx tag).flatMap (fun a => Byte.space :: a.text) ++
        if tag.selfClosing then [Byte.space] else []) ++ tagEnd tag := by
    unfold oneLine inlineEnd
    split <;> simp
  rw [hline]
  exact (inked_less h.name).around (by simp [hattributes, hgap]) (inked_tagEnd tag)

theorem flowing_openTag (hnl : ctx.options.newline = .lf) (depth : Nat) :
    Flowing (openTag ctx depth tag) := by
  have htexts := inked_attributeText h hs
  rcases oneLine_or_wrapped ctx depth fun a ha => (htexts a ha).2 with hshape | ⟨reason, hshape⟩
  · rw [openTag, hshape]
    exact .line (inked_oneLineTag h hs)
  · have hinked : ∀ a ∈ attributeTexts ctx tag, Inked a.text :=
      List.forall_mem_map.2 fun a ha => (htexts a ha).1
    have hattributes := flowing_attributes hnl (depth + 1) hinked _ (.line (inked_less h.name))
    have hall := hattributes.under false depth (.line (inked_tagEnd tag))
    rw [openTag, hshape]
    simpa [← newline_indent hnl, tagHead] using hall

end Tag

theorem markerText_eq {ctx : Context} (hnl : ctx.options.newline = .lf) (depth : Nat) (blank : Bool) :
    markerText ctx depth blank = lineBreak blank depth := by
  rw [markerText, newline_eq hnl]
  rfl

theorem inked_interpolationText (ctx : Context) (depth : Nat) {t : Bytes} (h : Closing t) :
    Inked (interpolationText ctx depth t) := by
  unfold interpolationText
  split
  · exact inked_of_all (List.cons_ne_nil _ _) rfl
  · rw [reindent_closing ctx depth h]
    exact inked_delimited h.unbroken

section Nodes

variable {ctx : Context} (hnl : ctx.options.newline = .lf)
include hnl

theorem flowing_nodes (place : Node → Nat) {ns : List Node} (hm : MarkersApart ns)
    (hlast : ∀ n ∈ ns.getLast?, n.isMarker = false)
    (h : ∀ n ∈ ns, n.isMarker = false → Flowing (layoutNode ctx (place n) n)) :
    (∀ t, Flowing t → Flowing (t ++ ns.flatMap fun n => layoutNode ctx (place n) n)) ∧
      ((∃ n ∈ ns.head?, n.isMarker = false) →
        Flowing (ns.flatMap fun n => layoutNode ctx (place n) n)) := by
  induction ns with
  | nil => exact ⟨by simp, by simp⟩
  | cons n ns ih =>
      obtain ⟨hn, hns⟩ := List.forall_mem_cons.1 h
      have htail : ∀ k ∈ ns.getLast?, k.isMarker = false := by
        intro k hk
        cases ns with
        | nil => cases hk
        | cons j js => exact hlast k (by rwa [List.getLast?_cons_cons])
      obtain ⟨hfollow, hlead⟩ := ih (List.IsChain.tail hm) htail hns
      rw [List.flatMap_cons]
      cases hmark : n.isMarker with
      | false =>
          have hall := hfollow _ (hn hmark)
          exact ⟨fun t ht => ht.append hall, fun _ => hall⟩
      | true =>
          refine ⟨fun t ht => ?_, by simp [hmark]⟩
          cases ns with
          | nil =>
              have := hlast n rfl
              rw [hmark] at this
              cases this
          | cons k ks =>
              have hrest := hlead ⟨k, rfl, head_after_marker hm hmark k rfl⟩
              cases n with
              | marker p b =>
                  rw [layoutNode, markerText_eq hnl]
                  exact ht.under b _ hrest
              | text t => cases hmark
              | expression raw location => cases hmark
              | element tag children => cases hmark

theorem flowing_children {children : List Node} (hm : MarkersApart children) {front close : Bytes}
    (hfront : Flowing front) (hclose : Inked close) (depth : Nat)
    (h : ∀ n ∈ children, n.isMarker = false → ∀ depth, Flowing (layoutNode ctx depth n)) :
    Flowing (front ++ (layoutChildren ctx depth children ++ close)) := by
  have hnodes : ∀ n ∈ children ++ [Document.Node.text close], n.isMarker = false →
      Flowing (layoutNode ctx (childDepth depth n) n) := by
    intro n hn hmark
    rcases List.mem_append.1 hn with hn | hn
    · exact h n hn hmark _
    · rw [List.mem_singleton.1 hn]
      exact .line hclose
  have hall := (flowing_nodes hnl (childDepth depth) (markersApart_text hm close)
    (getLast?_text children close) hnodes).1 front hfront
  rw [layoutChildren_eq_flatMap]
  simpa [layoutNode] using hall

end Nodes

structure InkedElement (e : Tag × List Node) : Prop where
  tag : InkedTag e.1
  exposed : e.1.sensitive = false
  body : e.1.selfClosing = false → MarkersApart e.2 ∧ ∀ t, Node.text t ∈ e.2 → OneLine t

mutual
theorem flowing_node {ctx : Context} (hnl : ctx.options.newline = .lf) {parent : Bytes} (n : Node)
    (hn : n.isMarker = false) (hline : ∀ t, n = .text t → OneLine t)
    (he : ∀ e ∈ n.elements, InkedElement e)
    (hs : ∀ s ∈ nodeSnippets parent n, Closing (ctx.shown s.raw)) (depth : Nat) :
    Flowing (layoutNode ctx depth n) := by
  cases n with
  | marker p b => cases hn
  | text t => exact .line (inked_oneLine (hline t rfl))
  | expression raw location =>
      have hraw := hs ⟨raw, location, parent, []⟩ (by simp [nodeSnippets])
      exact .line (inked_interpolationText ctx depth hraw)
  | element tag children =>
      obtain ⟨helement, hkids⟩ := List.forall_mem_cons.1 he
      obtain ⟨hattrs, hinner⟩ := List.forall_mem_append.1 hs
      have hopen := flowing_openTag helement.tag hattrs hnl depth
      rw [layoutNode]
      cases hself : tag.selfClosing with
      | true => simpa using hopen
      | false =>
          obtain ⟨hapart, hlines⟩ := helement.body hself
          rw [helement.exposed] at hinner ⊢
          exact flowing_children hnl hapart hopen (inked_closingTag helement.tag.name) depth
            (flowing_all hnl children hlines hkids hinner)

theorem flowing_all {ctx : Context} (hnl : ctx.options.newline = .lf) {parent : Bytes}
    (ns : List Node) (hlines : ∀ t, Node.text t ∈ ns → OneLine t)
    (he : ∀ e ∈ elementsIn ns, InkedElement e)
    (hs : ∀ s ∈ snippetsIn parent ns, Closing (ctx.shown s.raw)) :
    ∀ n ∈ ns, n.isMarker = false → ∀ depth, Flowing (layoutNode ctx depth n) := by
  cases ns with
  | nil => exact nofun
  | cons n ns =>
      obtain ⟨hen, hens⟩ := List.forall_mem_append.1 he
      obtain ⟨hsn, hsns⟩ := List.forall_mem_append.1 hs
      have hfirst : ∀ t, n = .text t → OneLine t := by
        rintro t rfl
        exact hlines t List.mem_cons_self
      have hrest := flowing_all hnl ns (fun t ht => hlines t (List.mem_cons_of_mem _ ht)) hens hsns
      exact List.forall_mem_cons.2
        ⟨fun hmark => flowing_node hnl n hmark hfirst hen hsn, hrest⟩
end

theorem tidy_layout {ctx : Context} (hnl : ctx.options.newline = .lf) {doc : List Node}
    (htop : TopLevel doc) (he : ∀ e ∈ elementsIn doc, InkedElement e)
    (hs : ∀ s ∈ snippets doc, Closing (ctx.shown s.raw)) : layout ctx doc = [] ∨ Tidy (layout ctx doc) := by
  obtain ⟨b, hfirst⟩ := htop.first
  obtain ⟨rest, rfl⟩ := List.head?_eq_some_iff.1 hfirst
  cases rest with
  | nil => exact .inl rfl
  | cons n ns =>
      right
      have hmark : n.isMarker = false := head_after_marker htop.apart rfl n rfl
      have hlines : ∀ t, Node.text t ∈ n :: ns → OneLine t :=
        fun t ht => htop.lines t (List.mem_cons_of_mem _ ht)
      have hstart : ∀ c, Node.marker .documentStart c ∉ n :: ns := by
        intro c hc
        cases htop.marker_eq _ _ hc
      have hnodes := flowing_all hnl (n :: ns) hlines he hs
      have hflow := (flowing_nodes hnl (fun _ => 0) (List.IsChain.tail htop.apart) htop.getLast?_solid
        fun k hk hsolid => hnodes k hk hsolid 0).2 ⟨n, rfl, hmark⟩
      rw [layout_start b ⟨n, List.mem_cons_self, hmark⟩ hstart, newline_eq hnl]
      exact hflow.tidy

end MarkupFormat.Layout

namespace MarkupFormat

open Bytes Document Layout Expression
open Written hiding Node

structure PlainElement (e : Raw.Element) : Prop where
  exposed : ElementName.isSensitive e.head.name = false
  named : ∀ a ∈ e.head.attributes, a.name ≠ []
  strings : ∀ a ∈ e.head.attributes, a.kind = .string → Byte.lf ∉ a.value

theorem inkedTag_ofRaw {src : Source} {e : Raw.Element} (hsolid : e.head.Solid) (hplain : PlainElement e) :
    InkedTag (Tag.ofRaw src e.span e.head) := by
  constructor
  case name => exact hsolid.name
  case names =>
    exact List.forall_mem_map.2 fun a ha => inked_of_solid (hplain.named a ha) (hsolid.names a ha)
  case values =>
    refine List.forall_mem_map.2 fun a ha hf => ?_
    rcases hsolid.values a ha hf with ⟨hkind, body, hbody⟩ | hboolean
    · refine ⟨hplain.strings a ha hkind, ?_⟩
      change ∀ c ∈ a.value.getLast?, isBlank c = false
      rw [hbody, List.getLast?_concat]
      rintro c ⟨⟩
      rfl
    · exact closing_of_isBoolean hboolean

theorem inkedElement_of_read {src : Source} {tree : List Raw.Node} (hread : Raw.read src = .ok tree)
    (hplain : ∀ e ∈ Raw.elementsIn tree, PlainElement e) {doc : List Node} (hreg : Regular src tree doc) :
    ∀ e ∈ elementsIn doc, InkedElement e := by
  intro e he
  obtain ⟨raw, hraw, hreflects⟩ := hreg.elements e he
  obtain ⟨ns, hns, rfl⟩ := Raw.read_eq_ok.1 hread
  have hsolid := Raw.solid_locateAll ns (Written.read_iff.1 hns).2 raw hraw
  have hexposed : e.1.sensitive = false := by
    rw [hreflects.tag_eq]
    exact (hplain raw hraw).exposed
  have htag : InkedTag e.1 := by
    rw [hreflects.tag_eq]
    exact inkedTag_ofRaw hsolid (hplain raw hraw)
  refine ⟨htag, hexposed, fun hself => ?_⟩
  have hbody := hreflects.body hself hexposed
  exact ⟨hbody.apart, hbody.lines⟩

theorem render_of_format_ok {f : Formatter} {opts : Options} {src : Source} {tree : List Raw.Node}
    {t : Bytes} (h : format f opts src tree = .ok t) :
    (∀ s ∈ snippets (ofRaw src tree), ∃ v, f s.raw = .ok v) ∧
      layout ⟨opts, shown f⟩ (ofRaw src tree) = t := by
  unfold format at h
  split at h
  · cases h
  · split at h
    · cases h
    · next doc hdoc =>
        rw [eq_ofRaw_of_ok hdoc] at h
        exact render_iff.1 (Written.mapError_ok.1 h)

theorem closing_normalizing {raw v : Bytes} (h : normalizing raw = .ok v)
    (hline : ∀ k, normalize raw = .ok k → Byte.lf ∉ k) : Closing (shown normalizing raw) := by
  have hk := normalizing_ok.1 h
  rw [shown_normalizing hk]
  exact ⟨hline v hk, (getLast?_normalizeFrom raw .start v hk).2⟩

-- A source without elements in which whitespace counts is formatted as nothing or as tidy lines, if no
-- string and no normal form in it holds a line feed.
theorem tidy_of_format {src : Source} {tree : List Raw.Node} {length : Int} {t : Bytes}
    (hread : Raw.read src = .ok tree) (hplain : ∀ e ∈ Raw.elementsIn tree, PlainElement e)
    (hnormal : ∀ s ∈ snippets (ofRaw src tree), ∀ k, normalize s.raw = .ok k → Byte.lf ∉ k)
    (h : format normalizing ⟨length, .lf⟩ src tree = .ok t) : t = [] ∨ Tidy t := by
  have hreg : Regular src tree (ofRaw src tree) := regular_ofRaw src tree
  obtain ⟨hsnippets, rfl⟩ := render_of_format_ok h
  have hclosing : ∀ s ∈ snippets (ofRaw src tree), Closing (shown normalizing s.raw) := by
    intro s hs
    obtain ⟨v, hv⟩ := hsnippets s hs
    exact closing_normalizing hv (hnormal s hs)
  exact tidy_layout rfl hreg.top (inkedElement_of_read hread hplain hreg) hclosing

def chart : Source :=
  ⟨[], ascii "<p/q a=b c=1>\n\nx<!-- -->\n\x7b\x7by\x7d\x7d </p/q>"⟩

def chartRead : List Written.Node :=
  [.element ⟨ascii "p/q",
      [⟨ascii " ", ascii "a", .word (ascii "b")⟩, ⟨ascii " ", ascii "c", .word (ascii "1")⟩], []⟩
    [.text (ascii "\n\nx"), .comment (ascii "<!-- -->"), .text (ascii "\n"), .interpolation (ascii "y"),
      .text (ascii " ")]]

def chartTree : List Raw.Node :=
  [.element ⟨0, 37⟩
      ⟨ascii "p/q",
        [⟨ascii "a", .string, ascii "\"b\"", ⟨5, 8⟩⟩, ⟨ascii "c", .integer, ascii "1", ⟨9, 12⟩⟩], false,
        ⟨0, 13⟩, some ⟨31, 37⟩⟩
    [.text ⟨13, 16⟩, .comment ⟨16, 24⟩, .text ⟨24, 25⟩, .interpolation ⟨25, 30⟩ ⟨27, 28⟩,
      .text ⟨30, 31⟩]]

def chartShown : Bytes :=
  ascii "<p/q\n  a=\"b\"\n  c=1\n>\n\n  x\n  \x7b\x7b y \x7d\x7d\n</p/q>\n"

def chartNodes : List Node :=
  [.marker .documentStart false,
    .element
      ⟨ascii "p/q",
        [⟨ascii "a", .string, ascii "\"b\"", ⟨1, 6, 5⟩⟩, ⟨ascii "c", .integer, ascii "1", ⟨1, 10, 9⟩⟩], false,
        false, ⟨1, 1, 0⟩⟩
      [.marker .beforeFirstChild true, .text (ascii "x"), .marker .betweenSiblings false,
        .expression (ascii "y") ⟨4, 1, 25⟩, .marker .beforeClosingTag false]]

theorem document_chart : ofRaw? chart chartTree = .ok chartNodes := rfl

theorem read_chart : Raw.read chart = .ok chartTree := by
  have hread : Written.read chart.content = .ok chartRead := by
    refine Written.read_iff.2 ⟨rfl, ⟨⟨by cbv, rfl, by simp⟩, ?_⟩, trivial⟩
    exact ⟨⟨by decide, rfl⟩, ⟨by cbv, rfl, by simp⟩, ⟨by decide, rfl⟩, ⟨by cbv, rfl, by simp⟩,
      ⟨by decide, rfl⟩, trivial⟩
  exact read_raw chart hread

theorem tidy_chart :
    (∀ e ∈ Raw.elementsIn chartTree, PlainElement e) ∧
    format normalizing ⟨12, .lf⟩ chart chartTree = .ok chartShown ∧
    (chartShown = [] ∨ Tidy chartShown) := by
  have hplain : ∀ e ∈ Raw.elementsIn chartTree, PlainElement e := by
    refine List.forall_mem_singleton.2 ⟨rfl, ?_, ?_⟩
    · exact List.forall_mem_cons.2 ⟨by decide, List.forall_mem_singleton.2 (by decide)⟩
    · exact List.forall_mem_cons.2 ⟨fun _ => by decide, List.forall_mem_singleton.2 nofun⟩
  have hnormal : ∀ s ∈ snippets (ofRaw chart chartTree), ∀ k, normalize s.raw = .ok k → Byte.lf ∉ k := by
    have hone : normalize (ascii "1") = .ok (ascii "1") := rfl
    have hname : normalize (ascii "y") = .ok (ascii "y") := rfl
    rw [← eq_ofRaw_of_ok document_chart]
    refine List.forall_mem_cons.2 ⟨fun k hk => ?_, List.forall_mem_singleton.2 fun k hk => ?_⟩
    · cases hone.symm.trans hk
      decide
    · cases hname.symm.trans hk
      decide
  have hrender : render normalizing ⟨12, .lf⟩ chartNodes = .ok chartShown := by rfl
  have hformat : format normalizing ⟨12, .lf⟩ chart chartTree = .ok chartShown := by
    have hopts : Options.report? ⟨12, .lf⟩ = none := rfl
    rw [format, hopts, document_chart]
    exact Written.mapError_ok.2 hrender
  exact ⟨hplain, hformat, tidy_of_format read_chart hplain hnormal hformat⟩

end MarkupFormat
