import MarkupFormat.Proofs.Answers
import MarkupFormat.Proofs.Seams

namespace MarkupFormat.Document

open Bytes Layout Expression
open Written hiding Node

section Ends

variable {n : Written.Node} {ns : List Written.Node}

theorem piecesAll_append (ms ns : List Written.Node) :
    piecesAll (ms ++ ns) = piecesAll ms ++ piecesAll ns := by
  induction ms with
  | nil => rfl
  | cons m ms ih => rw [List.cons_append, piecesAll, piecesAll, ih, List.append_assoc]

theorem exists_content (hcomment : ∀ t, n ≠ .comment t) (htext : ∀ t, n ≠ .text t) :
    ∃ m, piecesOf n = [.content m] := by
  cases n with
  | text t => exact absurd rfl (htext t)
  | comment t => exact absurd rfl (hcomment t)
  | interpolation inner => exact ⟨_, rfl⟩
  | selfClosed tag => exact ⟨_, rfl⟩
  | verbatim tag body => exact ⟨_, rfl⟩
  | element tag children => exact ⟨_, rfl⟩

theorem starts_with_content (hl : LegalAll [] ns) (hstart : startsSolid (writeAll ns) = true)
    (hne : ns ≠ []) (hcomment : ∀ t, ns.head? ≠ some (.comment t)) :
    ∃ m ps, piecesAll ns = .content m :: ps := by
  cases ns with
  | nil => exact absurd rfl hne
  | cons n ns =>
      by_cases htext : ∃ t, n = .text t
      · obtain ⟨t, rfl⟩ := htext
        cases t with
        | nil => exact absurd rfl hl.1.1
        | cons c t =>
            have hc : isBlank c = false := by
              simpa [startsSolid, writeAll, Written.Node.write] using hstart
            obtain ⟨m, ps, h⟩ := linePieces_starts (runs t) (List.cons_ne_nil c [])
            refine ⟨m, ps ++ piecesAll ns, ?_⟩
            rw [piecesAll, piecesOf, linePieces_solid hc, List.nil_append, h, List.cons_append]
      · obtain ⟨m, h⟩ := exists_content (n := n) (fun t ht => hcomment t (by rw [ht]; rfl))
          (fun t ht => htext ⟨t, ht⟩)
        exact ⟨m, piecesAll ns, by rw [piecesAll, h]; rfl⟩

theorem legal_of_mem {after : Bytes} (hl : LegalAll after ns) (hn : n ∈ ns) : ∃ r, n.Legal r := by
  induction ns with
  | nil => cases hn
  | cons k ns ih =>
      rcases List.mem_cons.1 hn with rfl | hn
      · exact ⟨_, hl.1⟩
      · exact ih hl.2 hn

theorem ends_with_content {after : Bytes} (hl : LegalAll after ns) (hend : EndsSolid (writeAll ns))
    (hne : ns ≠ []) (hcomment : ∀ t, ns.getLast? ≠ some (.comment t)) :
    ∃ ps m, piecesAll ns = ps ++ [.content m] := by
  obtain ⟨ms, n, rfl⟩ := (List.eq_nil_or_concat ns).resolve_left hne
  rw [List.concat_eq_append] at hl hend hcomment ⊢
  rw [piecesAll_append]
  by_cases htext : ∃ t, n = .text t
  · obtain ⟨t, rfl⟩ := htext
    obtain ⟨r, hlegal⟩ := legal_of_mem hl (n := .text t) (by simp)
    have hsolid : EndsSolid t := by
      rw [writeAll_append] at hend
      simpa [writeAll, Written.Node.write] using hend.suffix
    obtain ⟨ps, m, h⟩ := linePieces_ends hsolid hlegal.1
    exact ⟨piecesAll ms ++ ps, m, by rw [piecesAll, piecesOf, h]; simp [piecesAll]⟩
  · obtain ⟨m, h⟩ := exists_content (n := n) (fun t ht => hcomment t (by rw [ht]; simp))
      (fun t ht => htext ⟨t, ht⟩)
    exact ⟨piecesAll ms, m, by rw [piecesAll, h]; rfl⟩

end Ends

theorem exists_solid {n : Node} {ns : List Written.Node} (h : Piece.content n ∈ piecesAll ns) :
    ∃ k ∈ (ofWritten ns).tail, k.isMarker = false := by
  have hmem : n ∈ solids (ofWritten ns) := by
    rw [ofWritten, solids_documentNodes (solid_joinSpaces_piecesAll ns), mem_contents,
      content_mem_joinSpaces]
    exact h
  obtain ⟨b, rest, hdoc⟩ := ofWritten_eq_cons ns
  rw [hdoc] at hmem ⊢
  obtain ⟨hn, hmark⟩ := List.mem_filter.1 hmem
  rcases List.mem_cons.1 hn with rfl | hn
  · cases hmark
  · exact ⟨n, hn, by simpa using hmark⟩

theorem layout_ofWritten (ctx : Context) {ns : List Written.Node}
    (h : ∃ k ∈ (ofWritten ns).tail, k.isMarker = false) :
    layout ctx (ofWritten ns) = (ofWritten ns).tail.flatMap (layoutNode ctx 0) ++ ctx.newline := by
  have htop := topLevel_ofWritten ns
  obtain ⟨b, rest, hdoc⟩ := ofWritten_eq_cons ns
  rw [hdoc] at h htop ⊢
  refine layout_start b h fun c hc => ?_
  cases htop.marker_eq _ _ hc

theorem snippets_append (ms ns : List Node) : snippets (ms ++ ns) = snippets ms ++ snippets ns := by
  simp only [snippets, snippetsIn_eq_flatMap, List.flatMap_append]

section Both

variable {w : Bytes} {ms ns : List Written.Node} (hms : LegalAll [] ms) (hns : LegalAll [] ns)
  (hend : EndsSolid (writeAll ms)) (hstart : startsSolid (writeAll ns) = true)
  (hb : allBlank w = true) (hlf : Byte.lf ∈ w)
include hms hns hend hstart hb hlf

theorem piecesAll_seam :
    piecesAll (across w ms ns) = piecesAll ms ++ .space (hasBlankLine w) :: piecesAll ns := by
  obtain ⟨ps, t, u, qs, hps, hqs, hacross, ht, hu⟩ := piecesAll_across hms ns
  have hsolid : EndsSolid t := by
    rcases ht with rfl | ht
    · simp [EndsSolid]
    · obtain ⟨ms', rfl⟩ := List.getLast?_eq_some_iff.1 ht
      rw [writeAll_append] at hend
      simpa [writeAll, Written.Node.write] using hend.suffix
  have hstarts : startsSolid u = true := by
    rcases hu with rfl | hu
    · rfl
    · obtain ⟨ns', rfl⟩ := List.head?_eq_some_iff.1 hu
      rw [writeAll, Written.Node.write] at hstart
      rwa [startsSolid_append hns.1.1] at hstart
  have hspace : spacePieces w = [.space (hasBlankLine w)] := if_neg (List.ne_nil_of_mem hlf)
  rw [hacross, linePieces_break hsolid hb hstarts (.inr hlf), hps, hqs, hspace]
  simp

section Contents

variable {ps qs : List Piece} {m n : Node} (hm : piecesAll ms = ps ++ [.content m])
  (hn : piecesAll ns = .content n :: qs)
include hm hn

theorem tail_ofWritten_across :
    (ofWritten (across w ms ns)).tail =
      (ofWritten ms).tail ++ .marker .betweenSiblings (hasBlankLine w) :: (ofWritten ns).tail := by
  rw [ofWritten, ofWritten, ofWritten, piecesAll_seam hms hns hend hstart hb hlf, hm, hn,
    documentNodes_seam]

theorem snippets_across :
    snippets (ofWritten (across w ms ns)) = snippets (ofWritten ms) ++ snippets (ofWritten ns) := by
  rw [snippets_ofWritten, tail_ofWritten_across hms hns hend hstart hb hlf hm hn, snippets_append,
    snippets_ofWritten ms, snippets_ofWritten ns]
  rfl

theorem layout_across (ctx : Context) :
    layout ctx (ofWritten (across w ms ns)) =
      layout ctx (ofWritten ms) ++ (if hasBlankLine w then ctx.newline else [])
        ++ layout ctx (ofWritten ns) := by
  have hpieces := piecesAll_seam hms hns hend hstart hb hlf
  rw [layout_ofWritten ctx (exists_solid (n := m) (by rw [hpieces, hm]; simp)),
    layout_ofWritten ctx (exists_solid (n := m) (by rw [hm]; simp)),
    layout_ofWritten ctx (exists_solid (n := n) (by rw [hn]; simp)),
    tail_ofWritten_across hms hns hend hstart hb hlf hm hn]
  simp [layoutNode, markerText, indent, indentWidth, spaces]

end Contents

end Both

end MarkupFormat.Document

namespace MarkupFormat.Raw

open Bytes Written
open Document hiding Node

theorem locateAll_append (start : Nat) (ms ns : List Written.Node) :
    locateAll start (ms ++ ns) = locateAll start ms ++ locateAll (start + sizeAll ms) ns := by
  induction ms generalizing start with
  | nil => rfl
  | cons m ms ih => simp [locateAll, sizeAll, ih, Nat.add_assoc]

theorem getLast?_locateAll_comment {start : Nat} {ns : List Written.Node} {t : Bytes}
    (h : ns.getLast? = some (.comment t)) :
    ∃ span, (locateAll start ns).getLast? = some (.comment span) := by
  obtain ⟨ms, rfl⟩ := List.getLast?_eq_some_iff.1 h
  refine ⟨Span.ofLength (start + sizeAll ms) t.length, ?_⟩
  rw [locateAll_append]
  simp [locateAll, locate]

theorem head?_locateAll_comment {start : Nat} {ns : List Written.Node} {t : Bytes}
    (h : ns.head? = some (.comment t)) :
    ∃ span, (locateAll start ns).head? = some (.comment span) := by
  obtain ⟨ms, rfl⟩ := List.head?_eq_some_iff.1 h
  exact ⟨_, rfl⟩

section Solid

variable {src : Source} {tree : List Node} (hread : read src = .ok tree)
include hread

theorem exists_ending (hend : ∃ c, src.content.getLast? = some c ∧ isBlank c = false)
    (hcomment : ∀ span, tree.getLast? ≠ some (.comment span)) :
    ∃ ms, Written.read src.content = .ok ms ∧ tree = locateAll 0 ms ∧ EndsSolid (writeAll ms) ∧
      ∃ ps m, piecesAll ms = ps ++ [.content m] := by
  obtain ⟨ms, hms, rfl⟩ := read_eq_ok.1 hread
  obtain ⟨hwrite, hlegal⟩ := read_iff.1 hms
  obtain ⟨c, hlast, hc⟩ := hend
  rw [← hwrite] at hlast
  have hends : EndsSolid (writeAll ms) := by
    rw [EndsSolid, hlast]
    simpa using hc
  refine ⟨ms, hms, rfl, hends, ends_with_content hlegal hends (by rintro rfl; cases hlast) ?_⟩
  intro t ht
  obtain ⟨span, hspan⟩ := getLast?_locateAll_comment ht
  exact hcomment span hspan

theorem exists_beginning (hstart : ∃ c, src.content.head? = some c ∧ isBlank c = false)
    (hcomment : ∀ span, tree.head? ≠ some (.comment span)) :
    ∃ ns, Written.read src.content = .ok ns ∧ tree = locateAll 0 ns ∧
      startsSolid (writeAll ns) = true ∧ ∃ n qs, piecesAll ns = .content n :: qs := by
  obtain ⟨ns, hns, rfl⟩ := read_eq_ok.1 hread
  obtain ⟨hwrite, hlegal⟩ := read_iff.1 hns
  obtain ⟨c, hhead, hc⟩ := hstart
  rw [← hwrite] at hhead
  have hstarts : startsSolid (writeAll ns) = true := by
    obtain ⟨r, hr⟩ := List.head?_eq_some_iff.1 hhead
    simp [hr, startsSolid, hc]
  refine ⟨ns, hns, rfl, hstarts,
    starts_with_content hlegal hstarts (by rintro rfl; cases hhead) ?_⟩
  intro t ht
  obtain ⟨span, hspan⟩ := head?_locateAll_comment ht
  exact hcomment span hspan

end Solid

end MarkupFormat.Raw

namespace MarkupFormat

open Bytes Document Layout Expression

-- Two texts with a line break between them are formatted as they are apart, with an empty line between
-- the results where there was one.
theorem format_across {f : Formatter} {opts : Options} {src₁ src₂ : Source}
    {tree₁ tree₂ : List Raw.Node} {t₁ t₂ w : Bytes}
    (hread₁ : Raw.read src₁ = .ok tree₁) (hread₂ : Raw.read src₂ = .ok tree₂)
    (hformat₁ : format f opts src₁ tree₁ = .ok t₁) (hformat₂ : format f opts src₂ tree₂ = .ok t₂)
    (hend : ∃ c, src₁.content.getLast? = some c ∧ isBlank c = false)
    (hstart : ∃ c, src₂.content.head? = some c ∧ isBlank c = false)
    (hcomment₁ : ∀ span, tree₁.getLast? ≠ some (.comment span))
    (hcomment₂ : ∀ span, tree₂.head? ≠ some (.comment span))
    (hb : allBlank w = true) (hlf : Byte.lf ∈ w) (name : Bytes) :
    ∃ tree, Raw.read ⟨name, src₁.content ++ w ++ src₂.content⟩ = .ok tree ∧
      format f opts ⟨name, src₁.content ++ w ++ src₂.content⟩ tree =
        .ok (t₁ ++ (if hasBlankLine w then opts.newline.text else []) ++ t₂) ∧
      formatCalls f opts ⟨name, src₁.content ++ w ++ src₂.content⟩ tree =
        formatCalls f opts src₁ tree₁ ++ formatCalls f opts src₂ tree₂ := by
  obtain ⟨ms, hms, rfl, hends, ps, m, hm⟩ := Raw.exists_ending hread₁ hend hcomment₁
  obtain ⟨ns, hns, rfl, hstarts, n, qs, hn⟩ := Raw.exists_beginning hread₂ hstart hcomment₂
  obtain ⟨hwrite₁, hlegal₁⟩ := Written.read_iff.1 hms
  obtain ⟨hwrite₂, hlegal₂⟩ := Written.read_iff.1 hns
  obtain ⟨hopts, hcov₁, haccepted₁, hlayout₁⟩ := (format_iff src₁ hms).1 hformat₁
  obtain ⟨-, hcov₂, haccepted₂, hlayout₂⟩ := (format_iff src₂ hns).1 hformat₂
  have hnew : Written.read (Source.mk name (src₁.content ++ w ++ src₂.content)).content =
      .ok (Written.across w ms ns) := by
    refine Written.read_iff.2 ⟨?_, Written.legalAll_across (List.ne_nil_of_mem hlf) hb hlegal₁ hlegal₂⟩
    rw [Written.writeAll_across, hwrite₁, hwrite₂, List.append_assoc]
  have hcov : Written.CoveredAll (Written.across w ms ns) :=
    Written.coveredAll_across.2 ⟨hcov₁, hcov₂⟩
  have hsnippets := snippets_across hlegal₁ hlegal₂ hends hstarts hb hlf hm hn
  have hreport := report?_eq_none.2 hopts
  refine ⟨_, Raw.read_eq_ok.2 ⟨_, hnew, rfl⟩, ?_, ?_⟩
  · refine (format_iff _ hnew).2 ⟨hopts, hcov, ?_, ?_⟩
    · rw [hsnippets]
      exact List.forall_mem_append.2 ⟨haccepted₁, haccepted₂⟩
    · rw [layout_across hlegal₁ hlegal₂ hends hstarts hb hlf hm hn, hlayout₁, hlayout₂]
      rfl
  · rw [formatCalls_ofWritten f hnew hreport hcov, formatCalls_ofWritten f hms hreport hcov₁,
      formatCalls_ofWritten f hns hreport hcov₂, hsnippets,
      calls_accepted haccepted₁, calls_accepted haccepted₂, calls_accepted, List.map_append]
    exact List.forall_mem_append.2 ⟨haccepted₁, haccepted₂⟩

def heading : Source :=
  ⟨[], ascii "<p>x</p>"⟩

def headingTree : List Raw.Node :=
  [.element ⟨0, 8⟩ ⟨ascii "p", [], false, ⟨0, 3⟩, some ⟨4, 8⟩⟩ [.text ⟨3, 4⟩]]

def remainder : Source :=
  ⟨[], ascii "y \x7b\x7bz\x7d\x7d"⟩

def remainderTree : List Raw.Node :=
  [.text ⟨0, 2⟩, .interpolation ⟨2, 7⟩ ⟨4, 5⟩]

theorem format_heading_remainder :
    Raw.read heading = .ok headingTree ∧ Raw.read remainder = .ok remainderTree ∧
      format .ok .default heading headingTree = .ok (ascii "<p>x</p>\n") ∧
      format .ok .default remainder remainderTree = .ok (ascii "y\n\x7b\x7b z \x7d\x7d\n") ∧
      ∃ tree, Raw.read ⟨[], heading.content ++ ascii " \n\n" ++ remainder.content⟩ = .ok tree ∧
        format .ok .default ⟨[], heading.content ++ ascii " \n\n" ++ remainder.content⟩ tree =
          .ok (ascii "<p>x</p>\n\ny\n\x7b\x7b z \x7d\x7d\n") ∧
        formatCalls .ok .default ⟨[], heading.content ++ ascii " \n\n" ++ remainder.content⟩ tree =
          [ascii "z"] := by
  have hheading : Raw.read heading = .ok headingTree := by
    refine Raw.read_eq_ok.2 ⟨[.element ⟨ascii "p", [], []⟩ [.text (ascii "x")]], ?_, rfl⟩
    refine Written.read_iff.2 ⟨rfl, ⟨⟨by cbv, rfl, by simp⟩, ?_⟩, trivial⟩
    exact ⟨⟨by decide, by cbv⟩, trivial⟩
  have hremainder : Raw.read remainder = .ok remainderTree := by
    refine Raw.read_eq_ok.2 ⟨[.text (ascii "y "), .interpolation (ascii "z")], ?_, rfl⟩
    refine Written.read_iff.2 ⟨rfl, ⟨by decide, by cbv⟩, ⟨by cbv, rfl, by simp⟩, trivial⟩
  have hformat₁ : format .ok .default heading headingTree = .ok (ascii "<p>x</p>\n") := rfl
  have hformat₂ : format .ok .default remainder remainderTree =
      .ok (ascii "y\n\x7b\x7b z \x7d\x7d\n") := rfl
  have hboth := format_across hheading hremainder hformat₁ hformat₂ ⟨_, rfl, by decide⟩
    ⟨_, rfl, by decide⟩ (by simp [headingTree]) (by simp [remainderTree]) (w := ascii " \n\n")
    (by decide) (by decide) []
  exact ⟨hheading, hremainder, hformat₁, hformat₂, hboth⟩

end MarkupFormat
