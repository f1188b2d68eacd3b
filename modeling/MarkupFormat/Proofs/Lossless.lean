import Mathlib
import MarkupFormat.Proofs.Sources

namespace MarkupFormat.Raw

open Bytes Written Document

mutual
def Node.nodes : Node → List Node
  | .text span => [.text span]
  | .comment span => [.comment span]
  | .interpolation span inner => [.interpolation span inner]
  | .element span head children => .element span head children :: nodesIn children

def nodesIn : List Node → List Node
  | [] => []
  | n :: ns => n.nodes ++ nodesIn ns
end

def Tiles (start stop : Nat) : List Node → Prop
  | [] => start = stop
  | n :: ns => n.span.start = start ∧ start < n.span.stop ∧ Tiles n.span.stop stop ns

def Node.isText : Node → Bool
  | .text _ => true
  | _ => false

def TextsApart (ns : List Node) : Prop :=
  ns.IsChain fun m n => ¬(m.isText = true ∧ n.isText = true)

structure AttributesIn (src : Source) (openTag : Span) (as : List (Attribute Span)) : Prop where
  inside : ∀ a ∈ as, openTag.start ≤ a.place.start ∧ a.place.start ≤ a.place.stop ∧
    a.place.stop ≤ openTag.stop
  ordered : as.Pairwise fun a b => a.place.stop ≤ b.place.start
  named : ∀ a ∈ as, a.name <+: src.slice a.place.start a.place.stop

structure Header.Encloses (src : Source) (head : Header) (span : Span) (children : List Node) : Prop where
  opens : head.openTag.start = span.start
  named : Byte.less :: head.name <+: src.slice head.openTag.start head.openTag.stop
  attributes : AttributesIn src head.openTag head.attributes
  selfClosed : head.selfClosing = true →
    head.openTag = span ∧ head.closeTag = none ∧ children = []
  closed : head.selfClosing = false → ∃ close, head.closeTag = some close ∧
    head.openTag.stop ≤ close.start ∧ close.stop = span.stop ∧
    src.slice close.start close.stop = closingTag head.name ∧
    if startsWith [Byte.hash] head.name then children = []
    else Tiles head.openTag.stop close.start children
  apart : TextsApart children

def Node.Exact (src : Source) : Node → Prop
  | .text span =>
      Byte.less ∉ src.slice span.start span.stop ∧
        ¬openDelimiter <:+: src.slice span.start span.stop
  | .comment span =>
      commentStart <+: src.slice span.start span.stop ∧
        commentEnd <:+ src.slice span.start span.stop
  | .interpolation span inner =>
      inner.start = span.start + 2 ∧ inner.stop + 2 = span.stop ∧
        src.slice span.start span.stop =
          openDelimiter ++ src.slice inner.start inner.stop ++ closeDelimiter
  | .element span head children => head.Encloses src span children

structure Lossless (src : Source) (tree : List Node) : Prop where
  tiles : Tiles 0 src.length tree
  apart : TextsApart tree
  nodes : ∀ n ∈ nodesIn tree, n.Exact src

section Attributes

variable {src : Source} {as : List WrittenAttribute}

theorem inside_locateAttributes : ∀ start, ∀ a ∈ locateAttributes start as,
    start ≤ a.place.start ∧ a.place.start ≤ a.place.stop ∧
      a.place.stop ≤ start + (as.flatMap WrittenAttribute.write).length := by
  induction as with
  | nil =>
      intro start a ha
      cases ha
  | cons b as ih =>
      intro start a ha
      have hb : b.space.length ≤ b.write.length := by
        simp [WrittenAttribute.write]
      rw [List.flatMap_cons, List.length_append]
      rcases List.mem_cons.1 ha with rfl | ha
      · simp only
        omega
      · have := ih _ a ha
        omega

theorem ordered_locateAttributes : ∀ start,
    (locateAttributes start as).Pairwise fun a b => a.place.stop ≤ b.place.start := by
  induction as with
  | nil => exact fun _ => .nil
  | cons b as ih =>
      intro start
      refine .cons ?_ (ih _)
      intro a ha
      exact (inside_locateAttributes _ a ha).1

theorem named_locateAttributes : ∀ {x z : Bytes} {start},
    src.content = x ++ (as.flatMap WrittenAttribute.write ++ z) → start = x.length →
    ∀ a ∈ locateAttributes start as, a.name <+: src.slice a.place.start a.place.stop := by
  induction as with
  | nil =>
      intro x z start _ _ a ha
      cases ha
  | cons b as ih =>
      intro x z start h hstart a ha
      rcases List.mem_cons.1 ha with rfl | ha
      · have hslice : src.slice (start + b.space.length) (start + b.write.length) =
            b.name ++ b.value.write :=
          slice_eq (x := x ++ b.space) (z := as.flatMap WrittenAttribute.write ++ z)
            (by simpa [WrittenAttribute.write] using h) (by simp [hstart])
            (by simp [WrittenAttribute.write, hstart]; omega)
        rw [hslice]
        exact List.prefix_append _ _
      · have hrest : src.content = (x ++ b.write) ++ (as.flatMap WrittenAttribute.write ++ z) := by
          simpa using h
        exact ih hrest (by simp [hstart]) a ha

theorem attributesIn_ofTag {tag : OpenTag} {x z : Bytes} {start : Nat} {openTag : Span}
    (closeTag : Option Span) (h : src.content = x ++ (tag.write ++ z)) (hstart : start = x.length)
    (hopen : openTag.start = start) (hstop : start + tag.write.length ≤ openTag.stop) :
    AttributesIn src openTag (Header.ofTag start tag openTag closeTag).attributes where
  inside := by
    intro a ha
    have hin := inside_locateAttributes _ a ha
    simp only [OpenTag.write, List.cons_append, List.length_cons, List.length_append] at hstop
    omega
  ordered := ordered_locateAttributes _
  named := by
    refine named_locateAttributes (x := x ++ Byte.less :: tag.name) (z := tag.space ++ z) ?_ ?_
    · simpa [OpenTag.write] using h
    · simp [hstart]
      omega

end Attributes

theorem tiles_locateAll {after : Bytes} (ns : List Written.Node) : ∀ start, LegalAll after ns →
    Tiles start (start + sizeAll ns) (locateAll start ns) := by
  induction ns with
  | nil => exact fun start _ => rfl
  | cons n ns ih =>
      intro start h
      have hpos : 0 < n.size := by
        rw [← Node.length_write]
        exact List.length_pos_iff.2 h.1.ne_nil
      have hrest := ih (start + n.size) h.2
      rw [locateAll, Tiles, span_locate, sizeAll, ← Nat.add_assoc]
      exact ⟨rfl, Nat.lt_add_of_pos_right hpos, hrest⟩

theorem isText_locate {start : Nat} {n : Written.Node} (h : (locate start n).isText = true) :
    ∃ t, n = .text t := by
  cases n with
  | text t => exact ⟨t, rfl⟩
  | comment t => cases h
  | interpolation inner => cases h
  | selfClosed tag => cases h
  | verbatim tag body => cases h
  | element tag children => cases h

theorem textsApart_locateAll {after : Bytes} (ns : List Written.Node) : ∀ start, LegalAll after ns →
    TextsApart (locateAll start ns) := by
  induction ns with
  | nil => exact fun _ _ => .nil
  | cons n ns ih =>
      intro start h
      have hrest := ih (start + n.size) h.2
      cases ns with
      | nil => exact .singleton _
      | cons m ms =>
          refine List.isChain_cons_cons.2 ⟨?_, hrest⟩
          rintro ⟨hn, hm⟩
          obtain ⟨t, rfl⟩ := isText_locate hn
          obtain ⟨u, rfl⟩ := isText_locate hm
          exact not_text_after_text h

theorem comment_of_legal {t : Bytes} (h : Item.Legal (.node (.comment t))) :
    commentStart <+: t ∧ commentEnd <:+ t := by
  rcases readItem_cases h.read with ⟨hs, hc⟩ | ⟨s, -, -, hr⟩ | ⟨inner, hi, -⟩ | ⟨u, hu, -⟩
  · obtain ⟨u, hu, -⟩ := readComment_iff.1 hc
    cases hu
    exact ⟨List.isPrefixOf_iff_prefix.1 hs, List.suffix_append _ _⟩
  · obtain ⟨tag, _, -, -, ⟨v, -, hb⟩ | ⟨ht, -⟩⟩ := readTag_iff.1 hr
    · rw [readBody_iff] at hb
      split at hb
      · obtain ⟨body, hn, -⟩ := hb
        cases hn
      · cases hb.1
    · cases ht
  · cases hi
  · cases hu

section Located

variable {src : Source} {x z : Bytes} {start : Nat}

theorem encloses_selfClosed {tag : OpenTag} (hstart : start = x.length)
    (h : src.content = x ++ ((Written.Node.selfClosed tag).write ++ z)) :
    (Header.ofTag start tag (Span.ofLength start (tag.write.length + 2)) none).Encloses src
      (Span.ofLength start (tag.write.length + 2)) [] where
  opens := rfl
  named := by
    have hslice : src.slice start (start + (tag.write.length + 2)) =
        (Written.Node.selfClosed tag).write :=
      slice_eq h hstart (by simp [Written.Node.write, hstart])
    simp only [Header.ofTag, Span.ofLength, hslice]
    simp [Written.Node.write, OpenTag.write]
  attributes := by
    refine attributesIn_ofTag (z := Byte.slash :: Byte.greater :: z) none ?_ hstart rfl ?_
    · simpa [Written.Node.write] using h
    · exact Nat.add_le_add_left (Nat.le_add_right _ _) _
  selfClosed _ := ⟨rfl, rfl, rfl⟩
  closed := nofun
  apart := .nil

theorem encloses_open {tag : OpenTag} {body : Bytes} {children : List Node} (hstart : start = x.length)
    (h : src.content = x ++ (tag.write ++ Byte.greater :: body ++ closingTag tag.name ++ z))
    (hkids : if startsWith [Byte.hash] tag.name then children = []
      else Tiles (start + tag.write.length + 1) (start + tag.write.length + 1 + body.length) children)
    (hapart : TextsApart children) :
    (Header.ofOpen start tag body.length).Encloses src
      (Span.ofLength start (tag.write.length + 1 + body.length + (closingTag tag.name).length))
      children where
  opens := rfl
  named := by
    have hslice : src.slice start (start + tag.write.length + 1) = tag.write ++ [Byte.greater] :=
      slice_eq (z := body ++ closingTag tag.name ++ z) (by simpa using h) hstart
        (by simp [hstart]; omega)
    simp only [Header.ofOpen, Header.ofTag, hslice]
    simp [OpenTag.write]
  attributes := by
    refine attributesIn_ofTag (z := Byte.greater :: body ++ closingTag tag.name ++ z) _ ?_ hstart rfl ?_
    · simpa using h
    · exact Nat.le_succ _
  selfClosed := nofun
  closed := by
    intro _
    have hclose : src.slice (start + tag.write.length + 1 + body.length)
        (start + tag.write.length + 1 + body.length + (closingTag tag.name).length) =
          closingTag tag.name := by
      refine slice_eq (x := x ++ tag.write ++ Byte.greater :: body) (z := z) ?_ ?_ ?_
      · simpa using h
      · simp [hstart]
        omega
      · simp [hstart]
        omega
    refine ⟨_, rfl, Nat.le_add_right _ _, ?_, hclose, hkids⟩
    simp only [Span.ofLength]
    omega
  apart := hapart

mutual
theorem exact_locate (n : Written.Node) {x z after : Bytes} {start : Nat} (hstart : start = x.length)
    (h : src.content = x ++ (n.write ++ z)) (hl : n.Legal after) :
    ∀ m ∈ (locate start n).nodes, m.Exact src := by
  have hspan : src.slice start (start + n.size) = n.write :=
    slice_eq h hstart (by simp [hstart, Node.length_write])
  cases n with
  | text t =>
      have hu := unmarked_of_legal hl
      have ht : src.slice start (start + t.length) = t := hspan
      simpa [locate, Node.nodes, Node.Exact, Span.ofLength, ht] using And.intro hu.less hu.braces
  | comment t =>
      have ht : src.slice start (start + t.length) = t := hspan
      simpa [locate, Node.nodes, Node.Exact, Span.ofLength, ht] using comment_of_legal hl
  | interpolation inner =>
      have hinner : src.slice (start + 2) (start + 2 + inner.length) = inner :=
        slice_eq (x := x ++ openDelimiter) (z := closeDelimiter ++ z)
          (by simpa [Written.Node.write] using h) (by simp [hstart, openDelimiter])
          (by simp [hstart, openDelimiter])
      have hstop : start + 2 + inner.length + 2 = start + (inner.length + 4) := by omega
      simpa [locate, Node.nodes, Node.Exact, Span.ofLength, hinner, hstop, Written.Node.size,
        Written.Node.write] using hspan
  | selfClosed tag =>
      have hhead := encloses_selfClosed hstart h
      simpa [locate, Node.nodes, nodesIn, Node.Exact] using hhead
  | verbatim tag body =>
      have hhash := (Item.Legal.verbatim hl).1
      have hnone : if startsWith [Byte.hash] tag.name then ([] : List Node) = []
          else Tiles (start + tag.write.length + 1) (start + tag.write.length + 1 + body.length) [] := by
        rw [if_pos hhash]
      have hhead := encloses_open hstart (by simpa [Written.Node.write] using h) hnone .nil
      simpa [locate, Node.nodes, nodesIn, Node.Exact, Written.Node.size] using hhead
  | element tag children =>
      obtain ⟨hitem, hkids⟩ := hl
      have hcontent : src.content = (x ++ tag.write ++ [Byte.greater]) ++
          (writeAll children ++ (closingTag tag.name ++ z)) := by
        simpa [Written.Node.write] using h
      have hbody : start + tag.write.length + 1 = (x ++ tag.write ++ [Byte.greater]).length := by
        simp [hstart]
        omega
      have htiles := tiles_locateAll children (start + tag.write.length + 1) hkids
      rw [← length_writeAll] at htiles
      have hhead := encloses_open hstart (by simpa [Written.Node.write] using h)
        (by rw [if_neg (by simp [hitem.opened])]; exact htiles)
        (textsApart_locateAll children _ hkids)
      rw [length_writeAll] at hhead
      intro m hm
      rw [locate, Node.nodes, List.mem_cons] at hm
      rcases hm with rfl | hm
      · exact hhead
      · exact exact_locateAll children hbody hcontent hkids m hm

theorem exact_locateAll (ns : List Written.Node) {x z after : Bytes} {start : Nat}
    (hstart : start = x.length) (h : src.content = x ++ (writeAll ns ++ z)) (hl : LegalAll after ns) :
    ∀ m ∈ nodesIn (locateAll start ns), m.Exact src := by
  cases ns with
  | nil =>
      intro m hm
      cases hm
  | cons n ns =>
      obtain ⟨hn, hns⟩ := hl
      have hfirst : src.content = x ++ (n.write ++ (writeAll ns ++ z)) := by
        simpa [writeAll] using h
      have hrest : src.content = (x ++ n.write) ++ (writeAll ns ++ z) := by
        simpa [writeAll] using h
      have hnext : start + n.size = (x ++ n.write).length := by
        simp [hstart, Node.length_write]
      intro m hm
      rw [locateAll, nodesIn, List.mem_append] at hm
      rcases hm with hm | hm
      · exact exact_locate n hstart hfirst hn m hm
      · exact exact_locateAll ns hnext hrest hns m hm
end

end Located

theorem read_eq_ok {src : Source} {tree : List Node} :
    read src = .ok tree ↔ ∃ ns, Written.read src.content = .ok ns ∧ tree = locateAll 0 ns := by
  unfold read
  cases Written.read src.content with
  | error e => simp [Except.map]
  | ok ns => simp [Except.map, eq_comm]

theorem lossless_locateAll {src : Source} {ns : List Written.Node}
    (h : Written.read src.content = .ok ns) : Lossless src (locateAll 0 ns) := by
  obtain ⟨hwrite, hlegal⟩ := read_iff.1 h
  have hcontent : src.content = [] ++ (writeAll ns ++ []) := by simpa using hwrite.symm
  have hlength : src.length = 0 + sizeAll ns := by
    rw [Source.length, ← hwrite, length_writeAll, Nat.zero_add]
  constructor
  case tiles =>
    rw [hlength]
    exact tiles_locateAll ns 0 hlegal
  case apart => exact textsApart_locateAll ns 0 hlegal
  case nodes => exact exact_locateAll ns rfl hcontent hlegal

-- Reading a text loses none of its bytes.
theorem lossless_of_read {src : Source} {tree : List Node} (h : read src = .ok tree) :
    Lossless src tree := by
  obtain ⟨ns, hread, rfl⟩ := read_eq_ok.1 h
  exact lossless_locateAll hread

def assorted : Source :=
  ⟨[], ascii "a<p id=\"b\">\x7b\x7b y \x7d\x7d<!-- c --></p><#x><d></#x>"⟩

def assortedTree : List Node :=
  [.text ⟨0, 1⟩,
    .element ⟨1, 32⟩ ⟨ascii "p", [⟨ascii "id", .string, ascii "\"b\"", ⟨4, 10⟩⟩], false, ⟨1, 11⟩,
        some ⟨28, 32⟩⟩
      [.interpolation ⟨11, 18⟩ ⟨13, 16⟩, .comment ⟨18, 28⟩],
    .element ⟨32, 44⟩ ⟨ascii "#x", [], false, ⟨32, 36⟩, some ⟨39, 44⟩⟩ []]

theorem lossless_assorted : read assorted = .ok assortedTree ∧ Lossless assorted assortedTree := by
  have hwritten : Written.read assorted.content =
      .ok [.text (ascii "a"),
        .element ⟨ascii "p", [⟨ascii " ", ascii "id", .quoted (ascii "b")⟩], []⟩
          [.interpolation (ascii " y "), .comment (ascii "<!-- c -->")],
        .verbatim ⟨ascii "#x", [], []⟩ (ascii "<d>")] := by
    refine read_iff.2 ⟨rfl, ⟨by decide, by cbv⟩, ⟨⟨by cbv, rfl, by simp⟩, ?_⟩, ?_, trivial⟩
    · exact ⟨⟨by cbv, rfl, by simp⟩, ⟨by cbv, rfl, by simp⟩, trivial⟩
    · exact ⟨by cbv, rfl, by simp⟩
  have hread : read assorted = .ok assortedTree := by
    rw [read, hwritten]
    rfl
  exact ⟨hread, lossless_of_read hread⟩

end MarkupFormat.Raw
