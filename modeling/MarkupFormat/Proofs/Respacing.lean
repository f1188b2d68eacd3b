import MarkupFormat.Proofs.Gaps
import MarkupFormat.Proofs.Seams

namespace MarkupFormat.Written

open Bytes Document

structure SameClass (r r' : Bytes) : Prop where
  ne_nil : r ≠ []
  ne_nil' : r' ≠ []
  blank : allBlank r = true
  blank' : allBlank r' = true
  lineFeed : Byte.lf ∈ r ↔ Byte.lf ∈ r'
  blankLine : hasBlankLine r = hasBlankLine r'

theorem alike_of_blank {r r' : Bytes} (hr : startsSolid r = false) (hr' : startsSolid r' = false) :
    Alike r r' := by
  have key : ∀ s : Bytes, startsSolid s = false →
      s.head? ≠ some Byte.openBrace ∧ ¬(s = [] ∨ startsMarkup s = true) := by
    intro s hs
    cases s with
    | nil => cases hs
    | cons c s =>
        have hc : isBlank c = true := by simpa [startsSolid] using hs
        refine ⟨?_, ?_⟩
        · rintro h
          rw [Option.some.inj h] at hc
          cases hc
        · rw [startsMarkup_cons]
          rintro (h | rfl | ⟨rfl, -⟩)
          · cases h
          · cases hc
          · cases hc
  obtain ⟨h1, h2⟩ := key r hr
  obtain ⟨h3, h4⟩ := key r' hr'
  exact ⟨iff_of_false h1 h3, iff_of_false h2 h4⟩

section Text

variable {t r r' u : Bytes} (h : SameClass r r')
include h

theorem linePieces_respaced (ht : EndsSolid t) (hu : startsSolid u = true) :
    linePieces [] (runs (t ++ r ++ u)) = linePieces [] (runs (t ++ r' ++ u)) := by
  obtain ⟨ps, line, -, hps⟩ := linePieces_append ht []
  have hspace : spacePieces r = spacePieces r' := by
    rw [spacePieces, spacePieces, if_neg h.ne_nil, if_neg h.ne_nil', h.blankLine]
  rw [List.append_assoc, List.append_assoc, hps, hps, linePieces_blank h.ne_nil h.blank hu,
    linePieces_blank h.ne_nil' h.blank' hu, hspace]
  simp only [h.lineFeed]

theorem legal_respaced {after : Bytes} (hl : (Node.text (t ++ r ++ u)).Legal after) :
    (Node.text (t ++ r' ++ u)).Legal after := by
  have hunmarked := unmarked_of_legal hl
  have ht : Unmarked t := hunmarked.of_infix ⟨[], r ++ u, by simp⟩
  have hu : Unmarked u := hunmarked.of_infix ⟨t ++ r, [], by simp⟩
  have hnew := ht.append_blank hu h.ne_nil' h.blank'
  obtain ⟨-, -, hlast, hend⟩ := cutAt_startsMarkup_iff.1 hl.2
  refine ⟨by simp [h.ne_nil'],
    cutAt_startsMarkup_iff.2 ⟨hnew.less, hnew.braces, fun hbrace => ?_, hend⟩⟩
  cases u with
  | nil =>
      rw [List.append_nil, List.getLast?_append_of_ne_nil _ h.ne_nil'] at hbrace
      exact absurd (List.mem_of_getLast? hbrace) (notMem_of_allBlank h.blank' (by decide))
  | cons c u =>
      refine hlast ?_
      rw [List.getLast?_append_of_ne_nil _ (List.cons_ne_nil c u)] at hbrace ⊢
      exact hbrace

theorem interchangeable_text (ht : EndsSolid t) (hu : startsSolid u = true) :
    Interchangeable (.text (t ++ r ++ u)) (.text (t ++ r' ++ u)) where
  legal _ := legal_respaced h
  alike x := by
    have hold : startsSolid (r ++ (u ++ x)) = false := startsSolid_blank h.blank h.ne_nil
    have hnew : startsSolid (r' ++ (u ++ x)) = false := startsSolid_blank h.blank' h.ne_nil'
    simpa [Node.write] using (alike_of_blank hold hnew).append t
  covered := .rfl
  pieces := by
    rw [piecesOf, piecesOf]
    exact linePieces_respaced h ht hu

end Text

end MarkupFormat.Written

namespace MarkupFormat.Document

open Bytes

theorem documentNodes_spacePieces (t : Bytes) (ps : List Piece) :
    (documentNodes (joinSpaces (spacePieces t ++ ps))).tail = (documentNodes (joinSpaces ps)).tail := by
  unfold spacePieces
  split
  · rfl
  · exact documentNodes_cons_space _ ps

theorem documentNodes_append_spacePieces (ps : List Piece) (t : Bytes) :
    (documentNodes (joinSpaces (ps ++ spacePieces t))).tail = (documentNodes (joinSpaces ps)).tail := by
  unfold spacePieces
  split
  · rw [List.append_nil]
  · exact documentNodes_append_space ps _

end MarkupFormat.Document

namespace MarkupFormat.Written

open Bytes Document

theorem linePieces_blank_start {m v : Bytes} (hm : allBlank m = true) (hv : startsSolid v = true) :
    linePieces [] (runs (m ++ v)) = spacePieces m ++ linePieces [] (runs v) := by
  by_cases hne : m = []
  · subst hne
    simp [spacePieces]
  · rw [linePieces_blank hne hm hv, if_pos (.inl rfl), textPieces, if_pos rfl, List.nil_append]

theorem sameDocument_front {w : Bytes} (hb : allBlank w = true) (ns : List Node) :
    SameDocument ns (across w [] ns) where
  covered := by simp [coveredAll_across, CoveredAll]
  tail := by
    obtain ⟨ps, t, u, qs, hnil, hpieces, hacross, -, -⟩ :=
      piecesAll_across (show LegalAll [] [] from trivial) ns
    obtain ⟨rfl, ht⟩ := List.append_eq_nil_iff.1 hnil.symm
    obtain ⟨-, rfl⟩ := linePieces_eq_nil t [] ht
    obtain ⟨m, v, rfl, hm, hv⟩ := exists_blank_start u
    have hwm : allBlank (w ++ m) = true := by rw [allBlank_append, hb, hm]; rfl
    rw [ofWritten, ofWritten, hpieces, hacross, List.nil_append, List.nil_append,
      ← List.append_assoc w, linePieces_blank_start hm hv, linePieces_blank_start hwm hv,
      List.append_assoc, List.append_assoc, documentNodes_spacePieces, documentNodes_spacePieces]

theorem sameDocument_back {w : Bytes} (hb : allBlank w = true) {ns : List Node} {after : Bytes}
    (hns : LegalAll after ns) : SameDocument ns (across w ns []) where
  covered := by simp [coveredAll_across, CoveredAll]
  tail := by
    obtain ⟨ps, t, u, qs, hpieces, hnil, hacross, -, -⟩ := piecesAll_across hns []
    obtain ⟨hu, rfl⟩ := List.append_eq_nil_iff.1 hnil.symm
    obtain ⟨-, rfl⟩ := linePieces_eq_nil u [] hu
    obtain ⟨v, m, rfl, hv, hm⟩ := exists_blank_end t
    have hmw : allBlank (m ++ w) = true := by rw [allBlank_append, hb, hm]; rfl
    have hend : ∀ x, allBlank x = true →
        linePieces [] (runs (v ++ x)) = linePieces [] (runs v) ++ spacePieces x := by
      intro x hx
      have := linePieces_break hv hx (u := []) rfl (.inl rfl)
      simpa [runs, linePieces, textPieces] using this
    rw [ofWritten, ofWritten, hpieces, hacross, List.append_nil, List.append_nil, List.append_assoc,
      hend m hm, hend _ hmw, ← List.append_assoc, ← List.append_assoc,
      documentNodes_append_spacePieces, documentNodes_append_spacePieces]

end MarkupFormat.Written

namespace MarkupFormat.Raw

open Bytes Written Document
open Document hiding Node

inductive Respaced (src : Source) (tree : List Node) : Bytes → Prop
  | text {a t r s u c : Bytes} : src.content = a ++ (t ++ r ++ u) ++ c →
      .text (Span.ofLength a.length (t ++ r ++ u).length) ∈ exposedAll tree →
      EndsSolid t → startsSolid u = true → SameClass r s → Respaced src tree (a ++ (t ++ s ++ u) ++ c)
  | between {a r s c : Bytes} {span : Span} {head : Header} {children : List Node}
      {before after : List (Attribute Span)} {p q : Attribute Span} :
      .element span head children ∈ exposedAll tree → head.attributes = before ++ p :: q :: after →
      src.content = a ++ r ++ c → p.place.stop ≤ a.length → a.length + r.length ≤ q.place.start →
      r ≠ [] → s ≠ [] → allBlank s = true → Respaced src tree (a ++ s ++ c)
  | front {w : Bytes} : allBlank w = true → Respaced src tree (w ++ src.content)
  | back {w : Bytes} : allBlank w = true → Respaced src tree (src.content ++ w)

theorem eq_text_of_locate {start : Nat} {n : Written.Node} {span : Span}
    (h : .text span = locate start n) : ∃ t, n = .text t ∧ span = Span.ofLength start t.length := by
  cases n with
  | text t =>
      rw [locate, Node.text.injEq] at h
      exact ⟨t, rfl, h⟩
  | comment t => cases h
  | interpolation inner => cases h
  | selfClosed tag => cases h
  | verbatim tag body => cases h
  | element tag children => cases h

theorem tag_of_locate {start : Nat} {n : Written.Node} {span : Span} {head : Header}
    {children : List Node} (h : .element span head children = locate start n) :
    ∃ tag u, n.tag? = some tag ∧ n.write = tag.write ++ u ∧
      head.attributes = locateAttributes (start + 1 + tag.name.length) tag.attributes ∧
      ∀ tag', tag'.name = tag.name → (n.withTag tag').write = tag'.write ++ u := by
  cases n with
  | text t => cases h
  | comment t => cases h
  | interpolation inner => cases h
  | selfClosed tag =>
      rw [locate, Node.element.injEq] at h
      exact ⟨tag, [Byte.slash, Byte.greater], rfl, rfl, by rw [h.2.1]; rfl, fun _ _ => rfl⟩
  | verbatim tag body =>
      rw [locate, Node.element.injEq] at h
      refine ⟨tag, Byte.greater :: body ++ closingTag tag.name, rfl, ?_, by rw [h.2.1]; rfl, ?_⟩
      · simp [Written.Node.write]
      · intro tag' hname
        simp [Node.withTag, Written.Node.write, hname]
  | element tag children =>
      rw [locate, Node.element.injEq] at h
      refine ⟨tag, Byte.greater :: writeAll children ++ closingTag tag.name, rfl, ?_,
        by rw [h.2.1]; rfl, ?_⟩
      · simp [Written.Node.write]
      · intro tag' hname
        simp [Node.withTag, Written.Node.write, hname]

theorem gap_of_locateAttributes {before after : List (Attribute Span)} {p q : Attribute Span} :
    ∀ {start : Nat} {ds : List WrittenAttribute},
    locateAttributes start ds = before ++ p :: q :: after →
    ∃ as b bs, ds = as ++ b :: bs ∧
      p.place.stop = start + (as.flatMap WrittenAttribute.write).length ∧
      q.place.start = start + (as.flatMap WrittenAttribute.write).length + b.space.length := by
  induction before with
  | nil =>
      intro start ds h
      obtain ⟨a, ds, rfl⟩ := List.exists_cons_of_ne_nil (l := ds) (by rintro rfl; cases h)
      obtain ⟨b, bs, rfl⟩ := List.exists_cons_of_ne_nil (l := ds) (by rintro rfl; cases h)
      simp only [locateAttributes, List.nil_append, List.cons.injEq] at h
      obtain ⟨rfl, rfl, -⟩ := h
      exact ⟨[a], b, bs, rfl, by simp, by simp⟩
  | cons x before ih =>
      intro start ds h
      obtain ⟨a, ds, rfl⟩ := List.exists_cons_of_ne_nil (l := ds) (by rintro rfl; cases h)
      simp only [locateAttributes, List.cons_append, List.cons.injEq] at h
      obtain ⟨as, b, bs, rfl, hp, hq⟩ := ih h.2
      refine ⟨a :: as, b, bs, rfl, ?_, ?_⟩
      · rw [hp, List.flatMap_cons, List.length_append, Nat.add_assoc]
      · rw [hq, List.flatMap_cons, List.length_append, Nat.add_assoc start]

theorem append_split {a b c d : Bytes} (h : a ++ b = c ++ d) (hle : a.length ≤ c.length) :
    ∃ y, c = a ++ y ∧ b = y ++ d := by
  rcases List.append_eq_append_iff.1 h with ⟨y, hc, hb⟩ | ⟨y, ha, hd⟩
  · exact ⟨y, hc, hb⟩
  · have hlength := congrArg List.length ha
    rw [List.length_append] at hlength
    have hy : y = [] := List.length_eq_zero_iff.1 (by omega)
    subst hy
    exact ⟨[], by simpa using ha.symm, by simpa using hd.symm⟩

theorem split_of_gap {front gap back a r c : Bytes} (h : front ++ (gap ++ back) = a ++ (r ++ c))
    (hstart : front.length ≤ a.length) (hstop : a.length + r.length ≤ front.length + gap.length) :
    ∃ x y, a = front ++ x ∧ gap = x ++ r ++ y ∧ c = y ++ back := by
  obtain ⟨x, rfl, hx⟩ := append_split h hstart
  rw [List.length_append] at hstop
  obtain ⟨y, hy, hc⟩ := append_split (a := x ++ r) (by rw [hx, List.append_assoc])
    (by rw [List.length_append]; omega)
  exact ⟨x, y, rfl, hy, hc⟩

section Respaced

variable {src : Source} {tree : List Node} (hread : read src = .ok tree)
include hread

theorem respaced_text {a t r r' u c : Bytes} (hcontent : src.content = a ++ (t ++ r ++ u) ++ c)
    (hmem : .text (Span.ofLength a.length (t ++ r ++ u).length) ∈ exposedAll tree) (ht : EndsSolid t)
    (hu : startsSolid u = true) (hclass : SameClass r r') :
    ∃ tree', read ⟨src.name, a ++ (t ++ r' ++ u) ++ c⟩ = .ok tree' ∧
      FormattedAlike src tree ⟨src.name, a ++ (t ++ r' ++ u) ++ c⟩ tree' := by
  obtain ⟨n, left, right, hn, hcontent', -, hexchange⟩ := read_interchanged hread hmem
  obtain ⟨v, rfl, hspan⟩ := eq_text_of_locate hn
  rw [hcontent] at hcontent'
  obtain ⟨rfl, rfl, rfl⟩ := split_of_span hcontent' hspan
  exact hexchange _ (interchangeable_text hclass ht hu)

theorem respaced_between {a r r' c : Bytes} {span : Span} {head : Header} {children : List Node}
    {before after : List (Attribute Span)} {p q : Attribute Span}
    (hmem : .element span head children ∈ exposedAll tree)
    (hattributes : head.attributes = before ++ p :: q :: after) (hcontent : src.content = a ++ r ++ c)
    (hstart : p.place.stop ≤ a.length) (hstop : a.length + r.length ≤ q.place.start) (hr : r ≠ [])
    (hr' : r' ≠ []) (hb : allBlank r' = true) :
    ∃ tree', read ⟨src.name, a ++ r' ++ c⟩ = .ok tree' ∧
      FormattedAlike src tree ⟨src.name, a ++ r' ++ c⟩ tree' := by
  obtain ⟨n, left, right, hn, hcontent', ⟨rest, hlegal⟩, hexchange⟩ := read_interchanged hread hmem
  obtain ⟨⟨name, attributes, sp⟩, z, htag, hwrite, hlocated, hwrite'⟩ := tag_of_locate hn
  rw [hattributes] at hlocated
  obtain ⟨as, b, bs, rfl, hp, hq⟩ := gap_of_locateAttributes hlocated.symm
  -- what stands before the gap, and what stands after it
  let front := left ++ Byte.less :: name ++ as.flatMap WrittenAttribute.write
  let back := b.name ++ b.value.write ++ bs.flatMap WrittenAttribute.write ++ sp ++ z ++ right
  have hsplit : front ++ (b.space ++ back) = a ++ (r ++ c) := by
    rw [← List.append_assoc a, ← hcontent, hcontent', hwrite]
    simp [front, back, OpenTag.write, WrittenAttribute.write]
  have hfront : front.length = p.place.stop ∧ front.length + b.space.length = q.place.start := by
    rw [hp, hq]
    simp [front]
    omega
  obtain ⟨x, y, rfl, hy, rfl⟩ := split_of_gap hsplit (by omega) (by omega)
  let tag' : OpenTag := ⟨name, as ++ { b with space := x ++ r' ++ y } :: bs, sp⟩
  have hspace := hlegal.blank_space htag b (by simp)
  have hblank : allBlank (x ++ r' ++ y) = true := by
    simp only [hy, allBlank_append, Bool.and_eq_true] at hspace ⊢
    exact ⟨⟨hspace.1.1, hb⟩, hspace.2⟩
  have hrespaced : OpenTag.Respaced ⟨name, as ++ b :: bs, sp⟩ tag' :=
    .intro (by simp [hy, hr]) (by simp [hr']) hblank
  have hnew : front ++ x ++ r' ++ (y ++ back) = left ++ (n.withTag tag').write ++ right := by
    rw [hwrite' tag' rfl]
    simp [front, back, tag', OpenTag.write, WrittenAttribute.write]
  rw [hnew]
  exact hexchange _ (interchangeable_respaced htag hrespaced)

theorem respaced_front {w : Bytes} (hb : allBlank w = true) :
    ∃ tree', read ⟨src.name, w ++ src.content⟩ = .ok tree' ∧
      FormattedAlike src tree ⟨src.name, w ++ src.content⟩ tree' := by
  by_cases hw : w = []
  · subst hw
    exact ⟨tree, hread, fun f opts => ⟨rfl, rfl⟩⟩
  · obtain ⟨ns, hns, rfl⟩ := read_eq_ok.1 hread
    obtain ⟨hwrite, hlegal⟩ := read_iff.1 hns
    refine (sameDocument_front hb ns).read hns (read_iff.2 ⟨?_, legalAll_across hw hb trivial hlegal⟩)
    rw [writeAll_across, hwrite]
    rfl

theorem respaced_back {w : Bytes} (hb : allBlank w = true) :
    ∃ tree', read ⟨src.name, src.content ++ w⟩ = .ok tree' ∧
      FormattedAlike src tree ⟨src.name, src.content ++ w⟩ tree' := by
  by_cases hw : w = []
  · subst hw
    rw [List.append_nil]
    exact ⟨tree, hread, fun f opts => ⟨rfl, rfl⟩⟩
  · obtain ⟨ns, hns, rfl⟩ := read_eq_ok.1 hread
    obtain ⟨hwrite, hlegal⟩ := read_iff.1 hns
    refine (sameDocument_back hb hlegal).read hns
      (read_iff.2 ⟨?_, legalAll_across hw hb hlegal trivial⟩)
    rw [writeAll_across, hwrite, writeAll, List.append_nil]

-- Formatting sees of whitespace no more than its class.
theorem formattedAlike_respaced {content : Bytes} (h : Respaced src tree content) :
    ∃ tree', read ⟨src.name, content⟩ = .ok tree' ∧
      FormattedAlike src tree ⟨src.name, content⟩ tree' := by
  cases h with
  | text hcontent hmem ht hu hclass => exact respaced_text hread hcontent hmem ht hu hclass
  | between hmem hattributes hcontent hstart hstop hr hr' hb =>
      exact respaced_between hread hmem hattributes hcontent hstart hstop hr hr' hb
  | front hb => exact respaced_front hread hb
  | back hb => exact respaced_back hread hb

end Respaced

def roomy : Source :=
  ⟨[], ascii "<p a  b>x \n y</p>"⟩

def roomyTree : List Node :=
  [.element ⟨0, 17⟩ ⟨ascii "p", [⟨ascii "a", .boolean, ascii "true", ⟨3, 4⟩⟩,
      ⟨ascii "b", .boolean, ascii "true", ⟨6, 7⟩⟩], false, ⟨0, 8⟩, some ⟨13, 17⟩⟩ [.text ⟨8, 13⟩]]

theorem formattedAlike_roomy :
    read roomy = .ok roomyTree ∧ Respaced roomy roomyTree (ascii "<p a  b>x\ny</p>") ∧
      Respaced roomy roomyTree (ascii "<p a\tb>x \n y</p>") ∧
      (∃ tree', read ⟨[], ascii "<p a  b>x\ny</p>"⟩ = .ok tree' ∧
        FormattedAlike roomy roomyTree ⟨[], ascii "<p a  b>x\ny</p>"⟩ tree' ∧
        format Expression.normalizing .default ⟨[], ascii "<p a  b>x\ny</p>"⟩ tree' = .ok (ascii "<p a b>x\n  y</p>\n")) ∧
      ∃ tree', read ⟨[], ascii "<p a\tb>x \n y</p>"⟩ = .ok tree' ∧
        FormattedAlike roomy roomyTree ⟨[], ascii "<p a\tb>x \n y</p>"⟩ tree' ∧
        format Expression.normalizing .default ⟨[], ascii "<p a\tb>x \n y</p>"⟩ tree' =
          .ok (ascii "<p a b>x\n  y</p>\n") := by
  have hread : read roomy = .ok roomyTree := by
    refine read_eq_ok.2 ⟨[.element ⟨ascii "p", [⟨ascii " ", ascii "a", .absent⟩,
      ⟨ascii "  ", ascii "b", .absent⟩], []⟩ [.text (ascii "x \n y")]], ?_, rfl⟩
    refine read_iff.2 ⟨rfl, ⟨⟨by cbv, rfl, by simp⟩, ?_⟩, trivial⟩
    exact ⟨⟨by decide, by cbv⟩, trivial⟩
  have hclass : SameClass (ascii " \n ") (ascii "\n") :=
    ⟨by decide, by decide, by decide, by decide, by decide, by decide⟩
  have htext : Respaced roomy roomyTree (ascii "<p a  b>x\ny</p>") :=
    .text (a := ascii "<p a  b>") (t := ascii "x") (u := ascii "y") (c := ascii "</p>") rfl
      (.tail _ (.head _)) (by decide) rfl hclass
  have hbetween : Respaced roomy roomyTree (ascii "<p a\tb>x \n y</p>") :=
    .between (a := ascii "<p a") (r := ascii "  ") (s := ascii "\t") (c := ascii "b>x \n y</p>")
      (.head _) (List.nil_append _).symm rfl (by decide) (by decide) (by decide) (by decide) (by decide)
  have hformat : format Expression.normalizing .default roomy roomyTree = .ok (ascii "<p a b>x\n  y</p>\n") := by
    decide +kernel
  obtain ⟨tree, hreadText, halikeText⟩ := formattedAlike_respaced hread htext
  obtain ⟨tree', hreadBetween, halikeBetween⟩ := formattedAlike_respaced hread hbetween
  exact ⟨hread, htext, hbetween, ⟨tree, hreadText, halikeText, FormattedAlike.ok halikeText hformat⟩,
    tree', hreadBetween, halikeBetween, FormattedAlike.ok halikeBetween hformat⟩

end MarkupFormat.Raw
