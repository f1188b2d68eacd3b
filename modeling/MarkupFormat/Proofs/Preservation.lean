import Mathlib
import MarkupFormat.Proofs.Canonical
import MarkupFormat.Proofs.OneLine
import MarkupFormat.Proofs.Openings

namespace MarkupFormat

open Bytes Document Layout Expression
open Written hiding Node

section Reread

variable {opts : Options}

theorem canonicalAttribute_reread {a : Attribute Location}
    (h : SoundAttribute QuotedLine (Known normalizing) a) (lay : TagLay) :
    canonicalAttribute (attributeOf (laidAttribute ⟨opts, shown normalizing⟩ lay a)) =
      canonicalAttribute a := by
  have hexpr : isFormatted a.kind = true → Known normalizing a.value →
      ∀ v : Written.Value,
        v = expressionValue ((⟨opts, shown normalizing⟩ : Context).lay lay.values)
          (shown normalizing a.value) →
        canonicalAttribute ⟨a.name, v.kind, v.text, .start⟩ = canonicalAttribute a := by
    rintro hf ⟨-, k, -, hk, hlf⟩ v hv
    have ha := canonicalAttribute_of_normalize hf hk
    have hkk := normalize_normalize hk
    rw [shown_normalizing hk] at hv
    rcases expressionValue_cases ⟨opts, shown normalizing⟩ lay.values hkk hlf with
      ⟨ht, h1, h2⟩ | ⟨ht, h1, h2⟩ | ⟨ht, h1, h2⟩ | ⟨ht, h1, h2⟩ <;> rw [← hv] at h1 h2
    · rw [ha, h1, h2, ht]
      rfl
    · rw [ha, h1, h2]
      exact canonicalAttribute_of_normalize rfl hkk
    · rw [ha, h1, h2, ht]
      rfl
    · rw [ha, h1]
      exact canonicalAttribute_of_normalize rfl h2
  simp only [attributeOf, laidAttribute, valueOf]
  cases hk : a.kind with
  | boolean =>
      obtain ⟨h1, h2⟩ := kind_booleanValue (h.boolean hk)
      simp only [h1, h2]
      simp [canonicalAttribute, hk, isFormatted]
  | string =>
      have hs := h.string hk
      have htext : (Written.Value.quoted (inside a.value)).text = a.value :=
        (quoted_inside hs.isQuoted).1
      simp only [hs.lay, htext, Written.Value.kind]
      simp [canonicalAttribute, hk, isFormatted]
  | integer => exact hexpr (by rw [hk]; rfl) (h.expression (.inl hk)) _ rfl
  | expression => exact hexpr (by rw [hk]; rfl) (h.expression (.inr hk)) _ rfl

theorem canonical_tag_reread {tag : Tag} (h : SoundTag QuotedLine (Known normalizing) tag) (d : Nat) :
    (Tag.ofWritten (laidTag ⟨opts, shown normalizing⟩ d tag) tag.selfClosing).canonical =
      tag.canonical := by
  have hattrs : ((laidTag ⟨opts, shown normalizing⟩ d tag).attributes.map attributeOf).map
      canonicalAttribute = tag.attributes.map canonicalAttribute := by
    simp only [laidTag, List.map_map]
    exact List.map_congr_left fun a ha => canonicalAttribute_reread (h.attributes a ha) _
  simp only [Tag.canonical, Tag.ofWritten, hattrs]
  simp only [laidTag, h.sensitive]

theorem canonical_reread {n : Node} (h : Sound QuotedLine (Known normalizing) n) (d : Nat) :
    (rereadNode ⟨opts, shown normalizing⟩ d n).canonical = n.canonical := by
  refine reread_induction (Q := fun _ n' n => n'.canonical = n.canonical) (fun _ _ _ => rfl)
    (fun _ _ => rfl) ?_ ?_ h d
  · rintro d raw location ⟨-, k, -, hk, hlf⟩
    have hin := normalize_innerText (normalize_normalize hk) hlf ⟨opts, shown normalizing⟩ d
    simp only [Node.canonical, shown_normalizing hk, normalForm_eq hin, normalForm_eq hk]
  · intro d tag children ht hsame hkids
    have hs : (Tag.ofWritten (laidTag ⟨opts, shown normalizing⟩ d tag) tag.selfClosing).sensitive =
        tag.sensitive := ht.sensitive.symm
    rw [Node.canonical, Node.canonical, canonical_tag_reread ht, hs]
    cases hv : tag.sensitive with
    | true =>
        rw [hsame hv]
    | false =>
        rw [canonicalAll_eq_map, canonicalAll_eq_map, rereadAll_eq_map, List.map_map]
        have := List.map_congr_left fun n hn => hkids hv n hn
        exact congrArg (Document.Node.element tag.canonical) this

end Reread

theorem keeps_of_normalizable {opts : Options} {r : Bytes} (h : Normalizable r) :
    Keeps ⟨opts, shown normalizing⟩ r := by
  obtain ⟨k, hk⟩ := h
  rw [Keeps]
  simp only [shown_normalizing hk]
  exact count_normalize (by decide) hk

section Document

variable {opts : Options} {ns ns' : List Written.Node}

theorem canonical_of_clean (opts : Options) (b : Bool) {rest : List Node}
    (hsound : SoundDocument QuotedLine (Known normalizing) rest) (hclean : CleanAll (mergedAll rest)) :
    ∃ ns', Written.read (layout ⟨opts, shown normalizing⟩ (.marker .documentStart b :: rest)) = .ok ns' ∧
      CoveredAll ns' ∧ canonical (ofWritten ns') = canonical (.marker .documentStart b :: rest) := by
  obtain ⟨ns', hread, hcov, hdoc⟩ :=
    read_layout (supports_known faithful_normalizing opts) hsound.merged hclean b
  have hlayout : layout ⟨opts, shown normalizing⟩ (.marker .documentStart b :: mergedAll rest) =
      layout ⟨opts, shown normalizing⟩ (.marker .documentStart b :: rest) := by
    rw [← layout_mergedAll _ (.marker .documentStart b :: rest)]
    rfl
  refine ⟨ns', hlayout ▸ hread, hcov, ?_⟩
  have hall : canonicalAll (rereadAll ⟨opts, shown normalizing⟩ (fun _ => 0) (mergedAll rest)) =
      canonicalAll (mergedAll rest) := by
    rw [canonicalAll_eq_map, canonicalAll_eq_map, rereadAll_eq_map, List.map_map]
    exact List.map_congr_left fun n hn => canonical_reread (hsound.merged.sound n hn) 0
  rw [hdoc, canonical, canonical, hall, canonicalAll_mergedAll, mergedAll_mergedAll]

theorem clean_of_canonical (hl : LegalAll [] ns')
    (hsnip : ∀ s ∈ snippets (ofWritten ns), Normalizable s.raw)
    (hwrite : layout ⟨opts, shown normalizing⟩ (ofWritten ns) = writeAll ns')
    (h : canonical (ofWritten ns') = canonical (ofWritten ns)) : CleanAll (canonical (ofWritten ns)) := by
  obtain ⟨b, rest, hrest⟩ := ofWritten_eq_cons ns
  obtain ⟨b', rest', hrest'⟩ := ofWritten_eq_cons ns'
  have hsnip' : ∀ s ∈ snippets (ofWritten ns'), Normalizable s.raw := by
    rw [hrest', ← normalizable_document, ← hrest', h, hrest, normalizable_document, ← hrest]
    exact hsnip
  have hlayout : layout ⟨opts, shown normalizing⟩ (ofWritten ns') = writeAll ns' := by
    rw [← hwrite]
    rw [hrest] at h hsnip ⊢
    rw [hrest'] at h hsnip' ⊢
    rw [← layout_canonical opts hsnip', h, layout_canonical opts hsnip]
  have hns := uncommented_of_layout hl (fun s hs => keeps_of_normalizable (hsnip' s hs)) hlayout
  have hclean := clean_ofWritten hl hns
  rw [hrest'] at hclean
  rw [← h, hrest', clean_document]
  exact cleanAll_mergedAll rest' hclean.2.2

end Document

theorem canonical_ofRaw (src : Source) {ns : List Written.Node}
    (hread : Written.read src.content = .ok ns) :
    canonical (ofRaw src (Raw.locateAll 0 ns)) = canonical (ofWritten ns) := by
  rw [← unplaced_ofRaw src (Written.writeAll_read hread).symm, canonical_unplacedAll]

-- What formatting keeps. The text that it gives is read into a document of the same canonical form if
-- and only if that form is clean.
theorem preserved_iff_clean {src : Source} {ns : List Written.Node}
    (hread : Written.read src.content = .ok ns) (hline : OneLine src ns) {opts : Options} {t : Bytes}
    (h : format normalizing opts src (Raw.locateAll 0 ns) = .ok t) (name : Bytes) :
    (∃ tree doc, Raw.read ⟨name, t⟩ = .ok tree ∧ ofRaw? ⟨name, t⟩ tree = .ok doc ∧
        canonical doc = canonical (ofRaw src (Raw.locateAll 0 ns))) ↔
      CleanAll (canonical (ofRaw src (Raw.locateAll 0 ns))) := by
  obtain ⟨-, -, hsnip, ht⟩ := (format_iff src hread).1 h
  rw [canonical_ofRaw src hread]
  constructor
  · rintro ⟨tree, doc, htree, hdoc, hcanon⟩
    cases hread' : Written.read t with
    | error e =>
        rw [Raw.read, hread'] at htree
        cases htree
    | ok ns' =>
        have htree' := read_raw ⟨name, t⟩ hread'
        rw [htree] at htree'
        cases htree'
        obtain ⟨-, rfl⟩ := (ofRaw?_iff ⟨name, t⟩ hread').1 hdoc
        rw [canonical_ofRaw ⟨name, t⟩ hread'] at hcanon
        -- `t` is what the document of `ns'` is laid out as, too, so `ns'` holds no comment
        obtain ⟨hwrite, hl⟩ := read_iff.1 hread'
        refine clean_of_canonical hl (fun s hs => ?_) (ht.trans hwrite.symm) hcanon
        obtain ⟨k, hk⟩ := hsnip s hs
        exact ⟨k, normalizing_ok.1 hk⟩
  · intro hclean
    obtain ⟨b, rest, hrest⟩ := ofWritten_eq_cons ns
    have hsound := hline.soundDocument faithful_normalizing hread hsnip hrest
    rw [hrest, clean_document] at hclean
    obtain ⟨ns', hread', hcov, hcanon⟩ := canonical_of_clean opts b hsound hclean
    rw [← hrest, ht] at hread'
    refine ⟨_, _, read_raw ⟨name, t⟩ hread',
      (ofRaw?_iff ⟨name, t⟩ hread').2 ⟨hcov, rfl⟩, ?_⟩
    rw [canonical_ofRaw ⟨name, t⟩ hread', hcanon, hrest]

def apartBraces : Source :=
  ⟨[], ascii "a\x7b<!-- c --> \x7b\x7bx\x7d\x7d"⟩

def apartBracesRead : List Written.Node :=
  [.text (ascii "a\x7b"), .comment (ascii "<!-- c -->"), .text (ascii " "), .interpolation (ascii "x")]

def apartBracesFormatted : Bytes :=
  ascii "a\x7b\n\x7b\x7b x \x7d\x7d\n"

theorem preserved_apart_braces :
    ∃ tree doc, Raw.read ⟨[], apartBracesFormatted⟩ = .ok tree ∧
      ofRaw? ⟨[], apartBracesFormatted⟩ tree = .ok doc ∧
      canonical doc = canonical (ofRaw apartBraces (Raw.locateAll 0 apartBracesRead)) := by
  have hread : Written.read apartBraces.content = .ok apartBracesRead := read_iff.2
    ⟨rfl, ⟨by decide, rfl⟩, ⟨by cbv, rfl, by simp⟩, ⟨by decide, rfl⟩, ⟨by cbv, rfl, by simp⟩, trivial⟩
  have hformat : format normalizing .default apartBraces (Raw.locateAll 0 apartBracesRead) =
      .ok apartBracesFormatted := by cbv
  have hdoc : ofRaw apartBraces (Raw.locateAll 0 apartBracesRead) =
      [.marker .documentStart false, .text (ascii "a\x7b"), .marker .betweenSiblings false,
        .expression (ascii "x") ⟨1, 14, 13⟩] := by cbv
  refine (preserved_iff_clean hread ⟨?_, ?_⟩ hformat []).2 ?_
  · simp [apartBracesRead, Tame, exposedAll, Written.Node.exposed, Written.Node.tag?]
  · rw [hdoc]
    intro s hs k hk
    rw [List.mem_singleton.1 hs, show normalize (ascii "x") = .ok (ascii "x") from rfl] at hk
    cases hk
    decide
  · rw [hdoc, clean_document]
    exact ⟨(by decide : ¬openDelimiter <:+: ascii "a\x7b"), fun m hm => by cases hm; rfl,
      trivial, fun m hm => by cases hm; rfl, trivial, fun m hm => (by cases hm), trivial⟩

def touchingBraces : Source :=
  ⟨[], ascii "a\x7b<!-- c -->\x7b\x7bx\x7d\x7d"⟩

def touchingBracesRead : List Written.Node :=
  [.text (ascii "a\x7b"), .comment (ascii "<!-- c -->"), .interpolation (ascii "x")]

def touchingBracesFormatted : Bytes :=
  ascii "a\x7b\x7b\x7b x \x7d\x7d\n"

theorem not_preserved_touching_braces :
    Written.read touchingBraces.content = .ok touchingBracesRead ∧
      OneLine touchingBraces touchingBracesRead ∧
      format normalizing .default touchingBraces (Raw.locateAll 0 touchingBracesRead) =
        .ok touchingBracesFormatted ∧
      ∀ tree, Raw.read ⟨[], touchingBracesFormatted⟩ ≠ .ok tree := by
  refine ⟨?_, ⟨?_, ?_⟩, by cbv, ?_⟩
  · exact read_iff.2 ⟨rfl, ⟨by decide, rfl⟩, ⟨by cbv, rfl, by simp⟩, ⟨by cbv, rfl, by simp⟩, trivial⟩
  · simp [touchingBracesRead, Tame, exposedAll, Written.Node.exposed, Written.Node.tag?]
  · have hdoc : ofRaw touchingBraces (Raw.locateAll 0 touchingBracesRead) =
        [.marker .documentStart false, .text (ascii "a\x7b"),
          .expression (ascii "x") ⟨1, 13, 12⟩] := by cbv
    rw [hdoc]
    intro s hs k hk
    rw [List.mem_singleton.1 hs, show normalize (ascii "x") = .ok (ascii "x") from rfl] at hk
    cases hk
    decide
  · intro tree h
    obtain ⟨e, he⟩ : ∃ e, readItem (ascii "\x7b\x7b\x7b x \x7d\x7d\n") = .error e := ⟨_, rfl⟩
    have hread : Written.read touchingBracesFormatted = .error (e.located 10) := by
      rw [touchingBracesFormatted, Written.read, readNodes_node (by decide) rfl (n := .text (ascii "a"))
        (r := ascii "\x7b\x7b\x7b x \x7d\x7d\n") rfl, readNodes_error (by decide) rfl he]
      rfl
    rw [Raw.read, hread] at h
    cases h

end MarkupFormat
