import MarkupFormat.Proofs.Lossless
import MarkupFormat.Proofs.Regularity

namespace MarkupFormat.Raw

open Bytes Written
open Document hiding Node

inductive Occurrence where
  | child (parent : Bytes) (span inner : Span)
  | value (element : Bytes) (a : Attribute Span)

namespace Occurrence

def offset : Occurrence → Nat
  | .child _ span _ => span.start
  | .value _ a => a.place.start

def raw (src : Source) : Occurrence → Bytes
  | .child _ _ inner => src.slice inner.start inner.stop
  | .value _ a => a.value

def snippet (src : Source) : Occurrence → Snippet
  | .child parent span inner =>
      ⟨src.slice inner.start inner.stop, src.location span.start, parent, []⟩
  | .value element a => ⟨a.value, src.location a.place.start, element, a.name⟩

def StandsIn (src : Source) : Occurrence → Prop
  | .child _ span inner =>
      openDelimiter ++ src.slice inner.start inner.stop ++ closeDelimiter <+: src.content.drop span.start
  | .value _ a =>
      (a.kind = .expression ∧
        a.name ++ Byte.equals :: openDelimiter ++ a.value ++ closeDelimiter <+:
          src.content.drop a.place.start) ∨
      (a.kind = .integer ∧ a.name ++ Byte.equals :: a.value <+: src.content.drop a.place.start)

theorem raw_snippet (src : Source) (q : Occurrence) : (q.snippet src).raw = q.raw src := by
  cases q <;> rfl

theorem location_snippet (src : Source) (q : Occurrence) :
    (q.snippet src).location = src.location q.offset := by
  cases q <;> rfl

end Occurrence

def attributeOccurrences (element : Bytes) (as : List (Attribute Span)) : List Occurrence :=
  (as.filter fun a => isFormatted a.kind).map (.value element)

mutual
def Node.occurrences (parent : Bytes) : Node → List Occurrence
  | .text _ => []
  | .comment _ => []
  | .interpolation span inner => [.child parent span inner]
  | .element _ head children =>
      attributeOccurrences head.name head.attributes
        ++ if head.isOpen then occurrencesIn head.name children else []

def occurrencesIn (parent : Bytes) : List Node → List Occurrence
  | [] => []
  | n :: ns => n.occurrences parent ++ occurrencesIn parent ns
end

section Snippets

variable {src : Source}

theorem snippetsIn_append (parent : Bytes) (ms ns : List Document.Node) :
    snippetsIn parent (ms ++ ns) = snippetsIn parent ms ++ snippetsIn parent ns := by
  simp only [snippetsIn_eq_flatMap, List.flatMap_append]

theorem snippetsIn_solids (parent : Bytes) (ns : List Document.Node) :
    snippetsIn parent (solids ns) = snippetsIn parent ns := by
  induction ns with
  | nil => rfl
  | cons n ns ih =>
      rw [snippetsIn, ← ih]
      cases n <;> rfl

theorem snippetsIn_texts {parent : Bytes} {ns : List Document.Node}
    (h : ∀ n ∈ ns, ∃ t, n = .text t) : snippetsIn parent ns = [] := by
  rw [snippetsIn_eq_flatMap, List.flatMap_eq_nil_iff]
  intro n hn
  obtain ⟨t, rfl⟩ := h n hn
  rfl

theorem contents_spacePieces (t : Bytes) : contents (spacePieces t) = [] := by
  unfold spacePieces
  split <;> rfl

theorem snippets_attributes (span : Span) (head : Header) :
    (Tag.ofRaw src span head).snippets =
      (attributeOccurrences head.name head.attributes).map (Occurrence.snippet src) := by
  simp only [Tag.snippets, Tag.ofRaw, attributeOccurrences, List.filter_map, List.map_map]
  rfl

mutual
theorem snippets_nodePieces (parent : Bytes) (n : Node) :
    snippetsIn parent (contents (nodePieces src n)) =
      (n.occurrences parent).map (Occurrence.snippet src) := by
  cases n with
  | comment span => rfl
  | text span =>
      exact snippetsIn_texts fun n hn => content_of_mem_linePieces _ _ (mem_contents.1 hn)
  | interpolation span inner => rfl
  | element span head children =>
      have hkids := snippets_childPieces head.name head.body.start head.body.stop children
      have hsolid := solid_childPieces src head.body.start head.body.stop children
      simp only [nodePieces, contents, snippetsIn, nodeSnippets, List.append_nil, Node.occurrences,
        List.map_append, snippets_attributes]
      congr 1
      cases hself : head.selfClosing with
      | true => simp [Header.isOpen, hself, snippetsIn]
      | false =>
          cases hsens : ElementName.isSensitive head.name with
          | true => simp [Header.isOpen, hsens, Tag.ofRaw]
          | false =>
              simp only [Header.isOpen, hself, hsens, Tag.ofRaw, Bool.not_false, Bool.true_and,
                Bool.false_eq_true, if_false, if_true]
              rw [← snippetsIn_solids, solids_bodyNodes hsolid, contents_joinSpaces, hkids]

theorem snippets_childPieces (parent : Bytes) (cursor stop : Nat) (ns : List Node) :
    snippetsIn parent (contents (childPieces src cursor stop ns)) =
      (occurrencesIn parent ns).map (Occurrence.snippet src) := by
  cases ns with
  | nil => rw [childPieces, contents_spacePieces]; rfl
  | cons n ns =>
      rw [childPieces, contents_append, contents_append, contents_spacePieces, List.nil_append,
        snippetsIn_append, snippets_nodePieces parent n, snippets_childPieces parent _ _ ns, occurrencesIn,
        List.map_append]
end

theorem snippets_ofRaw (src : Source) (tree : List Node) :
    snippets (ofRaw src tree) = (occurrencesIn [] tree).map (Occurrence.snippet src) := by
  rw [snippets, ofRaw, ← snippetsIn_solids, solids_documentNodes (solid_childPieces src _ _ _),
    contents_joinSpaces, snippets_childPieces]

end Snippets

structure Standing (src : Source) (start stop : Nat) (qs : List Occurrence) : Prop where
  inside : ∀ q ∈ qs, start ≤ q.offset ∧ q.offset < stop
  ordered : qs.Pairwise fun p q => p.offset < q.offset
  stands : ∀ q ∈ qs, q.StandsIn src

namespace Standing

variable {src : Source} {start mid stop : Nat} {ps qs : List Occurrence}

theorem nil : Standing src start stop [] :=
  ⟨nofun, .nil, nofun⟩

theorem singleton {q : Occurrence} (h : q.StandsIn src) (hstart : start ≤ q.offset)
    (hstop : q.offset < stop) : Standing src start stop [q] where
  inside := by simpa using ⟨hstart, hstop⟩
  ordered := .cons nofun .nil
  stands := by simpa using h

theorem append (hp : Standing src start mid ps) (hq : Standing src mid stop qs) (h1 : start ≤ mid)
    (h2 : mid ≤ stop) : Standing src start stop (ps ++ qs) where
  inside := by
    refine List.forall_mem_append.2 ⟨fun p h => ?_, fun q h => ?_⟩
    · exact ⟨(hp.inside p h).1, Nat.lt_of_lt_of_le (hp.inside p h).2 h2⟩
    · exact ⟨Nat.le_trans h1 (hq.inside q h).1, (hq.inside q h).2⟩
  ordered := by
    refine List.pairwise_append.2 ⟨hp.ordered, hq.ordered, fun p h q h' => ?_⟩
    exact Nat.lt_of_lt_of_le (hp.inside p h).2 (hq.inside q h').1
  stands := List.forall_mem_append.2 ⟨hp.stands, hq.stands⟩

theorem mono {start' stop' : Nat} (h : Standing src start stop qs) (h1 : start' ≤ start)
    (h2 : stop ≤ stop') : Standing src start' stop' qs where
  inside q hq := ⟨Nat.le_trans h1 (h.inside q hq).1, Nat.lt_of_lt_of_le (h.inside q hq).2 h2⟩
  ordered := h.ordered
  stands := h.stands

end Standing

theorem write_of_formatted {v : Value} (h : isFormatted v.kind = true) :
    (v.kind = .expression ∧ v.write = Byte.equals :: openDelimiter ++ v.text ++ closeDelimiter) ∨
      (v.kind = .integer ∧ v.write = Byte.equals :: v.text) := by
  cases v with
  | absent => cases h
  | expression inner => exact .inl ⟨rfl, rfl⟩
  | quoted body => cases h
  | word t =>
      rw [Value.kind] at h ⊢
      by_cases hb : Literal.isBoolean t = true
      · simp [hb, isFormatted] at h
      · by_cases hi : Value.isIntegerWord t = true
        · exact .inr ⟨by simp [hb, hi], by simp [Value.write, Value.text, hi]⟩
        · simp [hb, hi, isFormatted] at h

section Located

variable {src : Source}

theorem prefix_drop {x y z : Bytes} {start : Nat} (h : src.content = x ++ (y ++ z))
    (hstart : start = x.length) : y <+: src.content.drop start := by
  rw [h, hstart, List.drop_left]
  exact List.prefix_append _ _

theorem standsIn_value {a : WrittenAttribute} {x z : Bytes} {start : Nat} (element : Bytes) (stop : Nat)
    (hkind : isFormatted a.value.kind = true) (h : src.content = x ++ (a.name ++ a.value.write ++ z))
    (hstart : start = x.length) :
    (Occurrence.value element ⟨a.name, a.value.kind, a.value.text, ⟨start, stop⟩⟩).StandsIn src := by
  have hprefix : a.name ++ a.value.write <+: src.content.drop start := prefix_drop h hstart
  rcases write_of_formatted hkind with ⟨hexpr, hwrite⟩ | ⟨hint, hwrite⟩
  · rw [hwrite] at hprefix
    exact .inl ⟨hexpr, by simpa using hprefix⟩
  · rw [hwrite] at hprefix
    exact .inr ⟨hint, hprefix⟩

theorem standing_attributes (element : Bytes) (as : List WrittenAttribute) : ∀ {x z : Bytes} {start},
    src.content = x ++ (as.flatMap WrittenAttribute.write ++ z) → start = x.length →
    Standing src start (start + (as.flatMap WrittenAttribute.write).length)
      (attributeOccurrences element (locateAttributes start as)) := by
  induction as with
  | nil => exact fun _ _ => .nil
  | cons a as ih =>
      intro x z start h hstart
      have hrest : src.content = (x ++ a.write) ++ (as.flatMap WrittenAttribute.write ++ z) := by
        simpa using h
      have hlength : start + a.write.length = (x ++ a.write).length := by simp [hstart]
      have hnext := ih hrest hlength
      have hlen : start + ((a :: as).flatMap WrittenAttribute.write).length =
          start + a.write.length + (as.flatMap WrittenAttribute.write).length := by
        rw [List.flatMap_cons, List.length_append, Nat.add_assoc]
      rw [hlen]
      simp only [attributeOccurrences, locateAttributes, List.filter_cons] at hnext ⊢
      split
      · next hkind =>
          have hpos : 0 < a.value.write.length := by
            rcases write_of_formatted hkind with ⟨-, hw⟩ | ⟨-, hw⟩ <;> simp [hw]
          have hcontent : src.content = (x ++ a.space) ++
              (a.name ++ a.value.write ++ (as.flatMap WrittenAttribute.write ++ z)) := by
            simpa [WrittenAttribute.write] using h
          have hplace : start + a.space.length = (x ++ a.space).length := by simp [hstart]
          have hstands := standsIn_value element (start + a.write.length) hkind hcontent hplace
          have hbefore : start + a.space.length < start + a.write.length := by
            simp [WrittenAttribute.write]
            omega
          have hfirst : Standing src start (start + a.write.length) _ :=
            .singleton hstands (Nat.le_add_right _ _) hbefore
          exact hfirst.append hnext (Nat.le_add_right _ _) (Nat.le_add_right _ _)
      · exact hnext.mono (Nat.le_add_right _ _) (Nat.le_refl _)

theorem standing_tag {tag : OpenTag} {x z : Bytes} {start : Nat}
    (h : src.content = x ++ (tag.write ++ z)) (hstart : start = x.length) :
    Standing src start (start + tag.write.length)
      (attributeOccurrences tag.name (locateAttributes (start + 1 + tag.name.length) tag.attributes)) := by
  have hcontent : src.content = (x ++ Byte.less :: tag.name) ++
      (tag.attributes.flatMap WrittenAttribute.write ++ (tag.space ++ z)) := by
    simpa [OpenTag.write] using h
  have hplace : start + 1 + tag.name.length = (x ++ Byte.less :: tag.name).length := by
    simp [hstart]
    omega
  refine (standing_attributes tag.name tag.attributes hcontent hplace).mono (by omega) ?_
  simp only [OpenTag.write, List.cons_append, List.length_cons, List.length_append]
  omega

theorem standing_element {span : Span} {head : Header} {children : List Node} {start mid stop : Nat}
    (parent : Bytes) (htag : Standing src start mid (attributeOccurrences head.name head.attributes))
    (hkids : head.isOpen = true → Standing src mid stop (occurrencesIn head.name children))
    (h1 : start ≤ mid) (h2 : mid ≤ stop) :
    Standing src start stop ((Node.element span head children).occurrences parent) := by
  rw [Node.occurrences]
  refine htag.append ?_ h1 h2
  split
  · next hopen => exact hkids hopen
  · exact .nil

mutual
theorem standing_locate (parent : Bytes) (n : Written.Node) {x z : Bytes} {start : Nat}
    (hstart : start = x.length) (h : src.content = x ++ (n.write ++ z)) :
    Standing src start (start + n.size) ((locate start n).occurrences parent) := by
  cases n with
  | text t => exact .nil
  | comment t => exact .nil
  | interpolation inner =>
      have hinner : src.slice (start + 2) (start + 2 + inner.length) = inner :=
        slice_eq (x := x ++ openDelimiter) (z := closeDelimiter ++ z)
          (by simpa [Written.Node.write] using h) (by simp [hstart, openDelimiter])
          (by simp [hstart, openDelimiter])
      have hstands : (Occurrence.child parent (Span.ofLength start (inner.length + 4))
          (Span.ofLength (start + 2) inner.length)).StandsIn src := by
        rw [Occurrence.StandsIn, Span.ofLength, Span.ofLength, hinner]
        exact prefix_drop h hstart
      exact .singleton hstands (Nat.le_refl _)
        (by simp [Occurrence.offset, Span.ofLength, Written.Node.size])
  | selfClosed tag =>
      have hcontent : src.content = x ++ (tag.write ++ (Byte.slash :: Byte.greater :: z)) := by
        simpa [Written.Node.write] using h
      have htag := standing_tag hcontent hstart
      rw [locate, Written.Node.size]
      exact standing_element parent htag (fun _ => .nil) (Nat.le_add_right _ _) (by omega)
  | verbatim tag body =>
      have hcontent : src.content =
          x ++ (tag.write ++ (Byte.greater :: body ++ closingTag tag.name ++ z)) := by
        simpa [Written.Node.write] using h
      have htag := standing_tag hcontent hstart
      rw [locate, Written.Node.size]
      exact standing_element parent htag (fun _ => .nil) (Nat.le_add_right _ _) (by omega)
  | element tag children =>
      have hcontent : src.content =
          x ++ (tag.write ++ (Byte.greater :: writeAll children ++ closingTag tag.name ++ z)) := by
        simpa [Written.Node.write] using h
      have htag := standing_tag hcontent hstart
      have hinside : src.content = (x ++ tag.write ++ [Byte.greater]) ++
          (writeAll children ++ (closingTag tag.name ++ z)) := by
        simpa [Written.Node.write] using h
      have hbody : start + tag.write.length + 1 = (x ++ tag.write ++ [Byte.greater]).length := by
        simp [hstart]
        omega
      have hkids := standing_locateAll tag.name children hbody hinside
      rw [locate, Written.Node.size]
      exact standing_element parent htag (fun _ => hkids.mono (Nat.le_succ _) (by omega))
        (Nat.le_add_right _ _) (by omega)

theorem standing_locateAll (parent : Bytes) (ns : List Written.Node) {x z : Bytes} {start : Nat}
    (hstart : start = x.length) (h : src.content = x ++ (writeAll ns ++ z)) :
    Standing src start (start + sizeAll ns) (occurrencesIn parent (locateAll start ns)) := by
  cases ns with
  | nil => exact .nil
  | cons n ns =>
      have hfirst : src.content = x ++ (n.write ++ (writeAll ns ++ z)) := by
        simpa [writeAll] using h
      have hrest : src.content = (x ++ n.write) ++ (writeAll ns ++ z) := by
        simpa [writeAll] using h
      have hnext : start + n.size = (x ++ n.write).length := by
        simp [hstart, Node.length_write]
      rw [locateAll, occurrencesIn, sizeAll, ← Nat.add_assoc]
      exact (standing_locate parent n hstart hfirst).append (standing_locateAll parent ns hnext hrest)
        (Nat.le_add_right _ _) (Nat.le_add_right _ _)
end

end Located

theorem standing_of_read {src : Source} {tree : List Node} (h : read src = .ok tree) :
    Standing src 0 src.length (occurrencesIn [] tree) := by
  obtain ⟨ns, hread, rfl⟩ := read_eq_ok.1 h
  have hwrite := writeAll_read hread
  have hlength : src.length = 0 + sizeAll ns := by
    rw [Source.length, ← hwrite, length_writeAll, Nat.zero_add]
  rw [hlength]
  exact standing_locateAll [] ns (x := []) (z := []) rfl (by simp [hwrite])

end MarkupFormat.Raw
