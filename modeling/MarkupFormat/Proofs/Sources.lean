import MarkupFormat.Document.Snippet
import MarkupFormat.Proofs.Rereading

namespace MarkupFormat.Written

open Bytes

def Node.tag? : Node → Option OpenTag
  | .selfClosed tag => some tag
  | .verbatim tag _ => some tag
  | .element tag _ => some tag
  | .text _ => none
  | .comment _ => none
  | .interpolation _ => none

mutual
def Node.exposed : Node → List Node
  | .element tag children =>
      .element tag children :: if ElementName.isSensitive tag.name then [] else exposedAll children
  | .text t => [.text t]
  | .comment t => [.comment t]
  | .interpolation inner => [.interpolation inner]
  | .selfClosed tag => [.selfClosed tag]
  | .verbatim tag body => [.verbatim tag body]

def exposedAll : List Node → List Node
  | [] => []
  | n :: ns => n.exposed ++ exposedAll ns
end

structure TameAttribute (P : Bytes → Prop) (a : WrittenAttribute) : Prop where
  named : a.name ≠ []
  noSlash : Byte.slash ∉ a.name
  quoted : a.value.kind = .string → ∃ body, a.value = .quoted body ∧ P body

structure TameTag (P : Bytes → Prop) (tag : OpenTag) : Prop where
  noSlash : Byte.slash ∉ tag.name
  attributes : ∀ a ∈ tag.attributes, TameAttribute P a

def Tame (P : Bytes → Prop) (ns : List Node) : Prop :=
  ∀ n ∈ exposedAll ns, ∀ tag ∈ n.tag?, TameTag P tag

def Uncommented (ns : List Node) : Prop :=
  ∀ n ∈ exposedAll ns, ∀ t, n ≠ .comment t

theorem mem_exposed (n : Node) : n ∈ n.exposed := by
  cases n <;> simp [Node.exposed]

theorem exposed_element {tag : OpenTag} {children : List Node}
    (h : ElementName.isSensitive tag.name = false) :
    ∀ n ∈ exposedAll children, n ∈ (Node.element tag children).exposed := by
  intro n hn
  simp [Node.exposed, h, hn]

end MarkupFormat.Written

namespace MarkupFormat.Document

open Bytes Layout
open Written hiding Node

structure Unmarked (t : Bytes) : Prop where
  less : Byte.less ∉ t
  braces : ¬openDelimiter <:+: t

theorem Unmarked.of_infix {t u : Bytes} (h : Unmarked u) (ht : t <:+: u) : Unmarked t :=
  ⟨fun hm => h.less (ht.subset hm), fun hi => h.braces (hi.trans ht)⟩

theorem notMem_of_allBlank {w : Bytes} {c : UInt8} (hb : allBlank w = true)
    (hc : isBlank c = false) : c ∉ w := by
  intro hmem
  rw [List.all_eq_true.1 hb c hmem] at hc
  cases hc

theorem unmarked_of_allBlank {w : Bytes} (hb : allBlank w = true) : Unmarked w where
  less := notMem_of_allBlank hb (by decide)
  braces h := notMem_of_allBlank (c := Byte.openBrace) hb (by decide) (h.subset (.head _))

theorem Unmarked.append_blank {t w u : Bytes} (ht : Unmarked t) (hu : Unmarked u) (hw : w ≠ [])
    (hb : allBlank w = true) : Unmarked (t ++ w ++ u) where
  less := by
    simp only [List.mem_append, not_or]
    exact ⟨⟨ht.less, (unmarked_of_allBlank hb).less⟩, hu.less⟩
  braces := by
    have hbrace : Byte.openBrace ∉ w := notMem_of_allBlank hb (by decide)
    rw [List.append_assoc]
    refine braces_append ht.braces
      (braces_append (unmarked_of_allBlank hb).braces hu.braces fun h => ?_) fun _ h => ?_
    · exact absurd (List.mem_of_getLast? h) hbrace
    · rw [List.head?_append_of_ne_nil _ hw] at h
      exact hbrace (List.mem_of_head? h)

theorem unmarked_of_mem_textPieces {t x : Bytes} (h : Unmarked t)
    (hx : Piece.content (.text x) ∈ textPieces t) : Unmarked x := by
  have := content_of_mem_textPieces hx
  cases this
  exact h

theorem unmarked_of_mem_linePieces {x : Bytes} (t : Bytes) : ∀ line, Unmarked (line ++ t) →
    Piece.content (.text x) ∈ linePieces line (runs t) → Unmarked x := by
  induction t using blank_induction with
  | nil =>
      intro line h hx
      rw [List.append_nil] at h
      exact unmarked_of_mem_textPieces h hx
  | solid c t hc ih =>
      intro line h hx
      rw [linePieces_solid hc] at hx
      exact ih _ (by simpa using h) hx
  | blank m t hm hb ht ih =>
      intro line h hx
      have hline : Unmarked line := h.of_infix ⟨[], m ++ t, by simp⟩
      have ht : Unmarked t := h.of_infix ⟨line ++ m, [], by simp⟩
      rw [linePieces_blank hm hb (by assumption)] at hx
      split at hx
      · simp only [List.mem_append, content_mem_spacePieces, or_false] at hx
        rcases hx with hx | hx
        · exact unmarked_of_mem_textPieces hline hx
        · exact ih [] (by simpa using ht) hx
      · exact ih _ (hline.append_blank ht (List.cons_ne_nil _ _) rfl) hx

theorem unmarked_of_legal {t after : Bytes} (h : (Written.Node.text t).Legal after) : Unmarked t := by
  obtain ⟨hl, hb, -⟩ := cutAt_startsMarkup_iff.1 h.2
  exact ⟨hl, hb⟩

theorem solid_piecesOf (n : Written.Node) : Solid (piecesOf n) := by
  intro m hm
  cases n with
  | text t =>
      obtain ⟨x, rfl⟩ := content_of_mem_linePieces _ _ hm
      rfl
  | comment t => simp [piecesOf] at hm
  | interpolation inner =>
      rw [piecesOf, List.mem_singleton] at hm
      cases hm
      rfl
  | selfClosed tag =>
      rw [piecesOf, List.mem_singleton] at hm
      cases hm
      rfl
  | verbatim tag body =>
      rw [piecesOf, List.mem_singleton] at hm
      cases hm
      rfl
  | element tag children =>
      rw [piecesOf, List.mem_singleton] at hm
      cases hm
      rfl

theorem content_mem_piecesAll {m : Node} {ns : List Written.Node} :
    Piece.content m ∈ piecesAll ns ↔ ∃ n ∈ ns, Piece.content m ∈ piecesOf n := by
  induction ns with
  | nil => simp [piecesAll]
  | cons n ns ih => simp [piecesAll, ih]

theorem solid_joinSpaces_piecesAll (ns : List Written.Node) : Solid (joinSpaces (piecesAll ns)) := by
  intro m hm
  rw [content_mem_joinSpaces, content_mem_piecesAll] at hm
  obtain ⟨n, -, hn⟩ := hm
  exact solid_piecesOf n m hn

def contents : List Piece → List Node
  | [] => []
  | .space _ :: ps => contents ps
  | .content n :: ps => n :: contents ps

def solids (ns : List Node) : List Node :=
  ns.filter fun n => !n.isMarker

theorem contents_append (ps qs : List Piece) : contents (ps ++ qs) = contents ps ++ contents qs := by
  induction ps with
  | nil => rfl
  | cons p ps ih => cases p <;> simp [contents, ih]

theorem mem_contents {n : Node} {ps : List Piece} : n ∈ contents ps ↔ Piece.content n ∈ ps := by
  induction ps with
  | nil => simp [contents]
  | cons p ps ih => cases p <;> simp [contents, ih]

theorem contents_joinSpaces (ps : List Piece) : contents (joinSpaces ps) = contents ps := by
  have hcons : ∀ p qs, contents (consPiece p qs) = contents [p] ++ contents qs := by
    intro p qs
    cases p with
    | content n => rfl
    | space b =>
        cases qs with
        | nil => rfl
        | cons q qs => cases q <;> rfl
  induction ps with
  | nil => rfl
  | cons p ps ih =>
      change contents (consPiece p (joinSpaces ps)) = _
      rw [hcons, ih]
      cases p <;> rfl

theorem solids_innerNodes {ps : List Piece} (h : Solid ps) : solids (innerNodes ps) = contents ps := by
  induction ps with
  | nil => rfl
  | cons p ps ih =>
      have ih := ih fun n hn => h n (by simp [hn])
      cases p with
      | content n => simpa [innerNodes, solids, contents, h n (by simp)] using ih
      | space b =>
          cases ps with
          | nil => rfl
          | cons q qs => exact ih

theorem solids_trailingNodes {ps : List Piece} (h : Solid ps) :
    solids (trailingNodes ps) = contents ps := by
  induction ps with
  | nil => rfl
  | cons p ps ih =>
      have ih := ih fun n hn => h n (by simp [hn])
      cases p with
      | content n => simpa [trailingNodes, solids, contents, h n (by simp)] using ih
      | space b =>
          cases ps with
          | nil => rfl
          | cons q qs => exact ih

theorem solids_bodyNodes {ps : List Piece} (h : Solid ps) : solids (bodyNodes ps) = contents ps := by
  cases ps with
  | nil => rfl
  | cons p ps =>
      cases p with
      | content n => exact solids_innerNodes h
      | space b =>
          cases ps with
          | nil => rfl
          | cons q qs => exact solids_innerNodes fun n hn => h n (by simp [hn])

theorem solids_documentNodes {ps : List Piece} (h : Solid ps) :
    solids (documentNodes ps) = contents ps := by
  cases ps with
  | nil => rfl
  | cons p ps =>
      cases p with
      | content n => exact solids_trailingNodes h
      | space b => exact solids_trailingNodes fun n hn => h n (by simp [hn])

def QuotedWith (P : Bytes → Prop) (v : Bytes) : Prop :=
  ∃ body, v = Byte.quote :: body ++ [Byte.quote] ∧
    closesString .quoted (body ++ [Byte.quote]) = true ∧ P body

theorem QuotedWith.isQuoted {P : Bytes → Prop} {v : Bytes} (h : QuotedWith P v) : IsQuoted v := by
  obtain ⟨body, rfl, hc, -⟩ := h
  exact ⟨_, rfl, hc⟩

theorem snippetsIn_eq_flatMap (parent : Bytes) (ns : List Node) :
    snippetsIn parent ns = ns.flatMap (nodeSnippets parent) := by
  induction ns with
  | nil => rfl
  | cons n ns ih => rw [snippetsIn, ih, List.flatMap_cons]

theorem forall_tag_snippets {Q : Bytes → Prop} {tag : Tag} :
    (∀ s ∈ tag.snippets, Q s.raw) ↔ ∀ a ∈ tag.attributes, isFormatted a.kind = true → Q a.value := by
  simp only [Tag.snippets, List.forall_mem_map, List.mem_filter, and_imp]

section Source

variable {P R : Bytes → Prop}

theorem soundAttribute_ofWritten {i : Written.Item} {tag : OpenTag} (h : i.Legal)
    (ht : i.tag? = some tag) {a : WrittenAttribute} (ha : a ∈ tag.attributes)
    (htame : TameAttribute P a)
    (hr : (attributeOf a).kind = .integer ∨ (attributeOf a).kind = .expression →
      R (attributeOf a).value) :
    SoundAttribute (QuotedWith P) R (attributeOf a) := by
  obtain ⟨hname, hquoted⟩ := h.attribute ht ha htame.named htame.noSlash
  refine ⟨hname, ?_, ?_, hr⟩
  · intro hk
    change a.value.kind = .boolean at hk
    change Literal.isBoolean a.value.text = true
    cases hv : a.value with
    | absent => rfl
    | expression inner =>
        rw [hv] at hk
        cases hk
    | quoted body =>
        rw [hv] at hk
        cases hk
    | word t =>
        rw [hv] at hk
        by_cases hb : Literal.isBoolean t = true
        · simp [Value.text, hb]
        · by_cases hi : Value.isIntegerWord t = true
          · simp [Value.kind, hb, hi] at hk
          · simp [Value.kind, hb, hi] at hk
  · intro hk
    obtain ⟨body, hb, hP⟩ := htame.quoted hk
    refine ⟨body, ?_, hquoted body hb, hP⟩
    change a.value.text = _
    rw [hb]
    rfl

theorem soundTag_ofWritten {i : Written.Item} {tag : OpenTag} (h : i.Legal)
    (ht : i.tag? = some tag) (htame : TameTag P tag) (selfClosing : Bool)
    (hr : ∀ s ∈ (Tag.ofWritten tag selfClosing).snippets, R s.raw) :
    SoundTag (QuotedWith P) R (Tag.ofWritten tag selfClosing) where
  name := h.plainName ht htame.noSlash
  noComment := h.noComment ht
  sensitive := rfl
  attributes := by
    intro b hb
    obtain ⟨a, ha, rfl⟩ := List.mem_map.1 hb
    have hvalue := forall_tag_snippets.1 hr _ hb
    refine soundAttribute_ofWritten h ht ha (htame.attributes a ha) fun hk => hvalue ?_
    rcases hk with hk | hk <;> rw [hk] <;> rfl

theorem hollow_spacePieces (t : Bytes) :
    bodyNodes (joinSpaces (spacePieces t)) = [] ∨
      ∃ b, bodyNodes (joinSpaces (spacePieces t)) = [.marker .beforeClosingTag b] := by
  unfold spacePieces
  split
  · exact .inl rfl
  · exact .inr ⟨_, rfl⟩

mutual
theorem sound_piecesOf (parent : Bytes) (n : Written.Node) {after : Bytes} (hl : n.Legal after)
    (ht : ∀ k ∈ n.exposed, ∀ tag ∈ k.tag?, TameTag P tag) {m : Node}
    (hm : Piece.content m ∈ piecesOf n)
    (hr : ∀ s ∈ nodeSnippets parent m, R s.raw) : Sound (QuotedWith P) R m := by
  cases n with
  | text t =>
      obtain ⟨x, rfl⟩ := content_of_mem_linePieces _ _ hm
      exact .text (isLine_of_mem_linePieces _ _ _ (.inl rfl) hm)
        (unmarked_of_mem_linePieces t [] (unmarked_of_legal hl) hm).less
  | comment t => simp [piecesOf] at hm
  | interpolation inner =>
      rw [piecesOf, List.mem_singleton] at hm
      cases hm
      exact .expression _ (hr ⟨inner, .start, parent, []⟩ (by simp [nodeSnippets]))
  | selfClosed tag =>
      rw [piecesOf, List.mem_singleton] at hm
      cases hm
      refine .selfClosed (soundTag_ofWritten hl rfl (ht _ (mem_exposed _) tag rfl) true ?_) rfl
      exact fun s hs => hr s (by simp [nodeSnippets, hs])
  | verbatim tag body =>
      rw [piecesOf, List.mem_singleton] at hm
      cases hm
      obtain ⟨hhash, hcut⟩ := hl.verbatim
      have htag : SoundTag (QuotedWith P) R (Tag.ofWritten tag false) :=
        soundTag_ofWritten hl rfl (ht _ (mem_exposed _) tag rfl) false
          fun s hs => hr s (by simp [nodeSnippets, hs])
      cases hs : ElementName.isSensitive tag.name with
      | true => exact .verbatim htag rfl hhash hs hcut
      | false => exact .hollow htag rfl hhash hs (hollow_spacePieces body)
  | element tag children =>
      rw [piecesOf, List.mem_singleton] at hm
      cases hm
      obtain ⟨hitem, hc⟩ := hl
      have htag : SoundTag (QuotedWith P) R (Tag.ofWritten tag false) :=
        soundTag_ofWritten hitem rfl (ht _ (mem_exposed _) tag rfl) false
          fun s hs => hr s (by simp [nodeSnippets, hs])
      cases hs : ElementName.isSensitive tag.name with
      | true =>
          exact .sensitive htag rfl hitem.opened hs
            (hc.alike (alike_of_less (ends_closingTag _ _) (.inl rfl)))
      | false =>
          have hsolid := solid_joinSpaces_piecesAll children
          refine .element htag rfl hitem.opened hs (settled_bodyNodes hsolid)
            (markersApart_bodyNodes hsolid (apart_joinSpaces _)) ?_
          intro k hk
          rcases mem_bodyNodes hk with hmark | hmem
          · cases k <;> first | exact .marker _ _ | cases hmark
          · refine sound_piecesAll tag.name children hc
              (fun j hj => ht j (exposed_element hs j hj)) (content_mem_joinSpaces.1 hmem) fun s hsn => hr s ?_
            rw [nodeSnippets]
            have hopen : (Tag.ofWritten tag false).sensitive = false := hs
            rw [hopen]
            simp only [Bool.false_eq_true, if_false, List.mem_append]
            right
            rw [snippetsIn_eq_flatMap]
            exact List.mem_flatMap.2 ⟨k, by simpa [hs] using hk, hsn⟩

theorem sound_piecesAll (parent : Bytes) (ns : List Written.Node) {after : Bytes} (hl : LegalAll after ns)
    (ht : ∀ k ∈ exposedAll ns, ∀ tag ∈ k.tag?, TameTag P tag) {m : Node}
    (hm : Piece.content m ∈ piecesAll ns)
    (hr : ∀ s ∈ nodeSnippets parent m, R s.raw) : Sound (QuotedWith P) R m := by
  cases ns with
  | nil => simp [piecesAll] at hm
  | cons n ns =>
      rw [piecesAll, List.mem_append] at hm
      rcases hm with hm | hm
      · exact sound_piecesOf parent n hl.1 (fun k hk => ht k (by simp [exposedAll, hk])) hm hr
      · exact sound_piecesAll parent ns hl.2 (fun k hk => ht k (by simp [exposedAll, hk])) hm hr
end

theorem lined_joinSpaces_piecesAll (ns : List Written.Node) : Lined (joinSpaces (piecesAll ns)) := by
  intro t ht
  rw [content_mem_joinSpaces, content_mem_piecesAll] at ht
  obtain ⟨n, -, hn⟩ := ht
  cases n with
  | text u => exact isLine_of_mem_linePieces _ _ _ (.inl rfl) hn
  | comment t => simp [piecesOf] at hn
  | interpolation inner => simp [piecesOf] at hn
  | selfClosed tag => simp [piecesOf] at hn
  | verbatim tag body => simp [piecesOf] at hn
  | element tag children => simp [piecesOf] at hn

theorem topLevel_ofWritten (ns : List Written.Node) : TopLevel (ofWritten ns) :=
  topLevel_documentNodes (solid_joinSpaces_piecesAll ns) (apart_joinSpaces _)
    (lined_joinSpaces_piecesAll ns)

theorem ofWritten_eq_cons (ns : List Written.Node) :
    ∃ b rest, ofWritten ns = .marker .documentStart b :: rest := by
  obtain ⟨b, hb⟩ := (topLevel_ofWritten ns).first
  cases hd : ofWritten ns with
  | nil =>
      rw [hd] at hb
      cases hb
  | cons n rest =>
      rw [hd] at hb
      exact ⟨b, rest, by rw [Option.some.inj hb]⟩

theorem soundDocument_ofWritten {ns : List Written.Node} {b : Bool} {rest : List Node}
    (hdoc : ofWritten ns = .marker .documentStart b :: rest) (hl : LegalAll [] ns) (ht : Tame P ns)
    (hr : ∀ s ∈ snippets (ofWritten ns), R s.raw) : SoundDocument (QuotedWith P) R rest := by
  have htop := topLevel_ofWritten ns
  rw [hdoc] at htop hr
  refine ⟨?_, List.IsChain.tail htop.apart, head_after_marker htop.apart rfl, htop.getLast?_solid,
    htop.marker_eq⟩
  intro n hn
  have hmem : n ∈ ofWritten ns := by simp [hdoc, hn]
  rcases mem_documentNodes (apart_joinSpaces _) hmem with hmark | hc
  · cases n <;> first | exact .marker _ _ | cases hmark
  · refine sound_piecesAll [] ns hl ht (content_mem_joinSpaces.1 hc) fun s hs => hr s ?_
    rw [snippets, snippetsIn_eq_flatMap]
    exact List.mem_flatMap.2 ⟨n, by simp [hn], hs⟩

end Source

end MarkupFormat.Document
