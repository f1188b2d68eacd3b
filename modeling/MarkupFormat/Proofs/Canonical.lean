import MarkupFormat.Proofs.Formatting
import MarkupFormat.Proofs.Normalized

namespace MarkupFormat.Document

open Bytes Layout Expression
open Written hiding Node

def Normalizable (r : Bytes) : Prop :=
  ∃ k, normalize r = .ok k

def normalForm (r : Bytes) : Bytes :=
  (normalize r).toOption.getD r

theorem normalForm_eq {r k : Bytes} (h : normalize r = .ok k) : normalForm r = k := by
  rw [normalForm, h]
  rfl

theorem normalizable_normalForm {r : Bytes} : Normalizable (normalForm r) ↔ Normalizable r := by
  cases h : normalize r with
  | error e => rw [normalForm, h]; rfl
  | ok k =>
      rw [normalForm_eq h]
      exact ⟨fun _ => ⟨k, h⟩, fun _ => ⟨k, normalize_normalize h⟩⟩

def kindOfLiteral : Option LiteralKind → AttributeKind
  | some .string => .string
  | some .integer => .integer
  | some .boolean => .boolean
  | none => .expression

def canonicalAttribute (a : Attribute Location) : Attribute Location :=
  if isFormatted a.kind then
    ⟨a.name, kindOfLiteral (Literal.kind? (normalForm a.value)), normalForm a.value, .start⟩
  else { a with place := .start }

theorem canonicalAttribute_of_normalize {a : Attribute Location} {k : Bytes}
    (hf : isFormatted a.kind = true) (hk : normalize a.value = .ok k) :
    canonicalAttribute a = ⟨a.name, kindOfLiteral (Literal.kind? k), k, .start⟩ := by
  rw [canonicalAttribute, if_pos hf, normalForm_eq hk]

def Tag.canonical (tag : Tag) : Tag :=
  { tag with attributes := tag.attributes.map canonicalAttribute, location := .start }

mutual
def Node.canonical : Node → Node
  | .marker position blank => .marker position blank
  | .text t => .text t
  | .expression raw _ => .expression (normalForm raw) .start
  | .element tag children =>
      .element tag.canonical
        (if tag.sensitive then verbatimText (verbatimAll children) else canonicalAll children)

def canonicalAll : List Node → List Node
  | [] => []
  | n :: ns => n.canonical :: canonicalAll ns
end

def canonical : List Node → List Node
  | .marker .documentStart _ :: ns => .marker .documentStart false :: mergedAll (canonicalAll ns)
  | ns => mergedAll (canonicalAll ns)

theorem canonicalAll_eq_map (ns : List Node) : canonicalAll ns = ns.map Node.canonical := by
  induction ns with
  | nil => rfl
  | cons n ns ih => simp [canonicalAll, ih]

theorem canonicalAttribute_unplaced (a : Attribute Location) :
    canonicalAttribute { a with place := .start } = canonicalAttribute a := by
  unfold canonicalAttribute
  split <;> rfl

theorem canonical_tag_unplaced (tag : Tag) : tag.unplaced.canonical = tag.canonical := by
  simp [Tag.canonical, Tag.unplaced, canonicalAttribute_unplaced]

mutual
theorem canonical_node_unplaced (n : Node) : n.unplaced.canonical = n.canonical := by
  cases n with
  | marker p b => rfl
  | text t => rfl
  | expression raw location => rfl
  | element tag children =>
      rw [Node.unplaced, Node.canonical, Node.canonical, canonical_tag_unplaced,
        verbatimAll_unplacedAll, canonicalAll_unplacedAll children]
      rfl

theorem canonicalAll_unplacedAll (ns : List Node) : canonicalAll (unplacedAll ns) = canonicalAll ns := by
  cases ns with
  | nil => rfl
  | cons n ns =>
      rw [unplacedAll, canonicalAll, canonicalAll, canonical_node_unplaced n,
        canonicalAll_unplacedAll ns]
end

theorem canonical_unplacedAll (ns : List Node) : canonical (unplacedAll ns) = canonical ns := by
  have h := canonicalAll_unplacedAll ns
  cases ns with
  | nil => rfl
  | cons n ns =>
      cases n with
      | marker p b =>
          cases p with
          | documentStart =>
              rw [unplacedAll, Node.unplaced, canonical, canonical, canonicalAll_unplacedAll]
          | beforeFirstChild => exact congrArg mergedAll h
          | betweenSiblings => exact congrArg mergedAll h
          | beforeClosingTag => exact congrArg mergedAll h
      | text t => exact congrArg mergedAll h
      | expression raw location => exact congrArg mergedAll h
      | element tag children => exact congrArg mergedAll h

theorem canonicalAll_consNode (n : Node) (ns : List Node) :
    canonicalAll (consNode n ns) = consNode n.canonical (canonicalAll ns) := by
  rcases consNode_cases n ns with h | ⟨a, b, ms, rfl, rfl, h⟩
  · rw [h, canonicalAll]
    cases n with
    | text a =>
        cases ns with
        | nil => rfl
        | cons m ms =>
            cases m with
            | text b => simp [consNode] at h
            | marker p b => rfl
            | expression raw location => rfl
            | element tag children => rfl
    | marker p b => rfl
    | expression raw location => rfl
    | element tag children => rfl
  · rw [h]
    rfl

mutual
theorem canonical_merged (n : Node) : n.merged.canonical = n.canonical.merged := by
  cases n with
  | marker p b => rfl
  | text t => rfl
  | expression raw location => rfl
  | element tag children =>
      rw [Node.merged, Node.canonical, Node.canonical, Node.merged, verbatimAll_mergedAll,
        canonicalAll_mergedAll children]
      split
      · rw [mergedAll_verbatimText]
      · rfl

theorem canonicalAll_mergedAll (ns : List Node) :
    canonicalAll (mergedAll ns) = mergedAll (canonicalAll ns) := by
  cases ns with
  | nil => rfl
  | cons n ns =>
      rw [mergedAll, canonicalAll_consNode, canonical_merged n, canonicalAll_mergedAll ns]
      rfl
end

mutual
theorem nodeSnippets_merged (parent : Bytes) (n : Node) :
    nodeSnippets parent n.merged = nodeSnippets parent n := by
  cases n with
  | marker p b => rfl
  | text t => rfl
  | expression raw location => rfl
  | element tag children =>
      rw [Node.merged, nodeSnippets, nodeSnippets, snippetsIn_mergedAll]

theorem snippetsIn_mergedAll (parent : Bytes) (ns : List Node) :
    snippetsIn parent (mergedAll ns) = snippetsIn parent ns := by
  cases ns with
  | nil => rfl
  | cons n ns =>
      rw [mergedAll, snippetsIn, ← nodeSnippets_merged parent n, ← snippetsIn_mergedAll parent ns]
      rcases consNode_cases n.merged (mergedAll ns) with h | ⟨a, b, ms, ha, hb, h⟩
      · rw [h, snippetsIn]
      · rw [h, ha, hb]
        rfl
end

theorem normalizable_canonicalAttribute (a : Attribute Location) :
    (isFormatted (canonicalAttribute a).kind = true → Normalizable (canonicalAttribute a).value) ↔
      (isFormatted a.kind = true → Normalizable a.value) := by
  unfold canonicalAttribute
  split
  · next hf =>
      simp only [hf, forall_const]
      constructor
      · intro h
        rw [← normalizable_normalForm]
        by_cases hk : Literal.kind? (normalForm a.value) = none
        · exact h (by rw [hk]; rfl)
        · exact ⟨_, normalize_literal hk⟩
      · exact fun h _ => normalizable_normalForm.2 h
  · exact Iff.rfl

mutual
theorem normalizable_canonical (parent : Bytes) (n : Node) :
    (∀ s ∈ nodeSnippets parent n.canonical, Normalizable s.raw) ↔
      ∀ s ∈ nodeSnippets parent n, Normalizable s.raw := by
  cases n with
  | marker p b => exact Iff.rfl
  | text t => exact Iff.rfl
  | expression raw location => simp [Node.canonical, nodeSnippets, normalizable_normalForm]
  | element tag children =>
      have htag : (∀ s ∈ tag.canonical.snippets, Normalizable s.raw) ↔
          ∀ s ∈ tag.snippets, Normalizable s.raw := by
        rw [forall_tag_snippets, forall_tag_snippets]
        simp [Tag.canonical, normalizable_canonicalAttribute]
      have hs : tag.canonical.sensitive = tag.sensitive := rfl
      rw [Node.canonical, nodeSnippets, nodeSnippets, List.forall_mem_append, List.forall_mem_append,
        htag, hs]
      cases tag.sensitive with
      | true => simp
      | false => exact and_congr_right fun _ => normalizableAll_canonical tag.name children

theorem normalizableAll_canonical (parent : Bytes) (ns : List Node) :
    (∀ s ∈ snippetsIn parent (canonicalAll ns), Normalizable s.raw) ↔
      ∀ s ∈ snippetsIn parent ns, Normalizable s.raw := by
  cases ns with
  | nil => exact Iff.rfl
  | cons n ns =>
      rw [canonicalAll, snippetsIn, snippetsIn, List.forall_mem_append, List.forall_mem_append,
        normalizable_canonical parent n, normalizableAll_canonical parent ns]
end

theorem normalizable_document {b : Bool} {rest : List Node} :
    (∀ s ∈ snippets (canonical (.marker .documentStart b :: rest)), Normalizable s.raw) ↔
      ∀ s ∈ snippets (.marker .documentStart b :: rest), Normalizable s.raw := by
  rw [canonical, snippets, snippets, snippetsIn, snippetsIn, snippetsIn_mergedAll]
  exact normalizableAll_canonical [] rest

section Layout

variable (opts : Options)

theorem attributeText_canonical {a : Attribute Location}
    (h : isFormatted a.kind = true → Normalizable a.value) :
    attributeText ⟨opts, shown normalizing⟩ (canonicalAttribute a) =
      attributeText ⟨opts, shown normalizing⟩ a := by
  by_cases hf : isFormatted a.kind = true
  · obtain ⟨k, hk⟩ := h hf
    have ha : attributeText ⟨opts, shown normalizing⟩ a = expressionText a.name k := by
      cases hkind : a.kind with
      | boolean => simp [hkind, isFormatted] at hf
      | string => simp [hkind, isFormatted] at hf
      | integer => simp only [attributeText, hkind, shown_normalizing hk]
      | expression => simp only [attributeText, hkind, shown_normalizing hk]
    have hshown := shown_normalizing (normalize_normalize hk)
    rw [canonicalAttribute_of_normalize hf hk, ha]
    rcases kind?_cases k with ⟨ht, -⟩ | ⟨ht, -⟩ | ⟨ht, -⟩ | ht
    · rw [ht]
      simp only [kindOfLiteral, attributeText, expressionText, ht]
    · rw [ht]
      simp only [kindOfLiteral, attributeText, hshown]
    · rw [ht]
      simp only [kindOfLiteral, attributeText, expressionText, ht]
    · rw [ht]
      simp only [kindOfLiteral, attributeText, hshown]
  · rw [canonicalAttribute, if_neg hf]
    exact attributeText_unplaced _ a

mutual
theorem layoutNode_canonical (depth : Nat) (n : Node) {parent : Bytes}
    (h : ∀ s ∈ nodeSnippets parent n, Normalizable s.raw) :
    layoutNode ⟨opts, shown normalizing⟩ depth n.canonical =
      layoutNode ⟨opts, shown normalizing⟩ depth n := by
  cases n with
  | marker p b => rfl
  | text t => rfl
  | expression raw location =>
      obtain ⟨k, hk⟩ : Normalizable raw := h ⟨raw, location, parent, []⟩ (by simp [nodeSnippets])
      simp only [Node.canonical, layoutNode, normalForm_eq hk, shown_normalizing hk,
        shown_normalizing (normalize_normalize hk)]
  | element tag children =>
      rw [nodeSnippets, List.forall_mem_append] at h
      have htag : openTag ⟨opts, shown normalizing⟩ depth tag.canonical =
          openTag ⟨opts, shown normalizing⟩ depth tag := by
        refine openTag_congr depth rfl rfl ?_
        simp only [attributeTexts, Tag.canonical, List.map_map]
        exact List.map_congr_left fun a ha =>
          attributeText_canonical opts (forall_tag_snippets.1 h.1 a ha)
      have hs : tag.canonical.sensitive = tag.sensitive := rfl
      rw [Node.canonical, layoutNode, layoutNode, htag, hs]
      cases hv : tag.sensitive with
      | true =>
          simp only [if_true, verbatimAll_verbatimText]
          rfl
      | false =>
          rw [hv] at h
          simp only [Bool.false_eq_true, if_false] at h ⊢
          rw [layoutChildren_canonicalAll depth children h.2]
          rfl

theorem layoutChildren_canonicalAll (depth : Nat) (ns : List Node) {parent : Bytes}
    (h : ∀ s ∈ snippetsIn parent ns, Normalizable s.raw) :
    layoutChildren ⟨opts, shown normalizing⟩ depth (canonicalAll ns) =
      layoutChildren ⟨opts, shown normalizing⟩ depth ns := by
  cases ns with
  | nil => rfl
  | cons n ns =>
      rw [snippetsIn, List.forall_mem_append] at h
      have hdepth : childDepth depth n.canonical = childDepth depth n := by cases n <;> rfl
      rw [canonicalAll, layoutChildren, layoutChildren, hdepth, layoutNode_canonical _ n h.1,
        layoutChildren_canonicalAll depth ns h.2]
end

theorem layout_canonical {b : Bool} {rest : List Node}
    (h : ∀ s ∈ snippets (.marker .documentStart b :: rest), Normalizable s.raw) :
    layout ⟨opts, shown normalizing⟩ (canonical (.marker .documentStart b :: rest)) =
      layout ⟨opts, shown normalizing⟩ (.marker .documentStart b :: rest) := by
  have htop : ∀ n ∈ rest, layoutTop ⟨opts, shown normalizing⟩ n.canonical =
      layoutTop ⟨opts, shown normalizing⟩ n := by
    intro n hn
    have hs : ∀ s ∈ nodeSnippets [] n, Normalizable s.raw := by
      intro s hs
      refine h s ?_
      rw [snippets, snippetsIn_eq_flatMap]
      exact List.mem_flatMap.2 ⟨n, by simp [hn], hs⟩
    cases n with
    | marker p b => rfl
    | text t => rfl
    | expression raw location => exact layoutNode_canonical opts 0 _ hs
    | element tag children => exact layoutNode_canonical opts 0 _ hs
  have hmark : ∀ n : Node, n.canonical.isMarker = n.isMarker := by
    intro n
    cases n <;> rfl
  rw [canonical, layout, layout, List.all_cons, List.all_cons, all_isMarker_mergedAll,
    List.flatMap_cons, List.flatMap_cons, flatMap_mergedAll, canonicalAll_eq_map, List.all_map,
    List.flatMap_map, List.flatMap_congr htop]
  simp only [Function.comp_def, hmark]
  rfl

end Layout

theorem abuts_canonical (m n : Node) : abuts m.canonical n.canonical = abuts m n := by
  cases m <;> cases n <;> rfl

mutual
theorem clean_canonical (n : Node) : n.canonical.Clean ↔ n.Clean := by
  cases n with
  | marker p b => exact Iff.rfl
  | text t => exact Iff.rfl
  | expression raw location => exact Iff.rfl
  | element tag children =>
      rw [Node.canonical, Node.Clean, Node.Clean, Tag.canonical]
      cases hv : tag.sensitive with
      | true => simp
      | false =>
          simp only [Bool.false_eq_true, if_false, false_or]
          exact cleanAll_canonicalAll children

theorem cleanAll_canonicalAll (ns : List Node) : CleanAll (canonicalAll ns) ↔ CleanAll ns := by
  cases ns with
  | nil => exact Iff.rfl
  | cons n ns =>
      rw [canonicalAll, CleanAll, CleanAll, clean_canonical n, cleanAll_canonicalAll ns]
      cases ns with
      | nil => simp [canonicalAll]
      | cons m ms => simp [canonicalAll, abuts_canonical]
end

theorem abuts_of_solid {m : Node} (hm : ∀ t, m ≠ .text t) (n : Node) : abuts m n = false := by
  cases m with
  | text t => exact absurd rfl (hm t)
  | marker p b => rfl
  | expression raw location => rfl
  | element tag children => rfl

theorem mergedAll_cons_of_apart {n : Node} {ns : List Node}
    (h : ∀ m ∈ ns.head?, abuts n m = false) :
    mergedAll (n :: ns) = n.merged :: mergedAll ns ∧
      ∀ m ∈ (mergedAll ns).head?, abuts n.merged m = false := by
  by_cases hn : ∃ t, n = .text t
  · obtain ⟨t, rfl⟩ := hn
    cases ns with
    | nil => exact ⟨rfl, by simp [mergedAll]⟩
    | cons m ms =>
        have hm := h m rfl
        have hsolid : ∀ u, m.merged ≠ .text u := by
          intro u hu
          rw [merged_text hu] at hm
          cases hm
        rw [mergedAll, mergedAll, consNode_solid hsolid]
        refine ⟨?_, ?_⟩
        · cases m with
          | text u => cases hm
          | marker p b => rfl
          | expression raw location => rfl
          | element tag children => rfl
        · intro k hk
          rw [← Option.some.inj hk]
          cases m <;> exact hm
  · have hsolid : ∀ t, n.merged ≠ .text t := fun t ht => hn ⟨t, merged_text ht⟩
    exact ⟨consNode_solid hsolid _, fun m _ => abuts_of_solid hsolid m⟩

mutual
theorem clean_merged (n : Node) (h : n.Clean) : n.merged.Clean := by
  cases n with
  | marker p b => exact h
  | text t => exact h
  | expression raw location => exact h
  | element tag children => exact h.imp id (cleanAll_mergedAll children)

theorem cleanAll_mergedAll (ns : List Node) (h : CleanAll ns) : CleanAll (mergedAll ns) := by
  cases ns with
  | nil => exact h
  | cons n ns =>
      obtain ⟨hn, hnext, hns⟩ := h
      obtain ⟨hc, hhead⟩ := mergedAll_cons_of_apart hnext
      rw [hc]
      exact ⟨clean_merged n hn, hhead, cleanAll_mergedAll ns hns⟩
end

theorem clean_document {b : Bool} {rest : List Node} :
    CleanAll (canonical (.marker .documentStart b :: rest)) ↔ CleanAll (mergedAll rest) := by
  rw [canonical, CleanAll, ← canonicalAll_mergedAll, cleanAll_canonicalAll]
  exact ⟨fun h => h.2.2, fun h => ⟨trivial, fun _ _ => rfl, h⟩⟩

end MarkupFormat.Document
