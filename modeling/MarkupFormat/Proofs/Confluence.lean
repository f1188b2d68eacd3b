import Mathlib
import MarkupFormat.Proofs.Comments
import MarkupFormat.Proofs.OneLine

namespace MarkupFormat

open Bytes Document Layout Expression
open Written hiding Node

section Formatter

variable {f : Formatter} (hf : Expression.Faithful f)
include hf

theorem expressionText_reread {r : Bytes} (h : Known f r) (ctx : Context) (d : Option Nat)
    (o : Options) (name : Bytes) {v : Written.Value} (hv : v = expressionValue (ctx.lay d) (shown f r)) :
    attributeText ⟨o, shown f⟩ ⟨name, v.kind, v.text, .start⟩ = expressionText name (shown f r) ∧
      (isFormatted v.kind = true → Known f v.text) := by
  obtain ⟨a, k, ha, hk, hlf⟩ := h
  obtain ⟨k', hk', hs, -⟩ := hf.shown ha
  rw [hk] at hk'
  cases hk'
  have hknown : ∀ t, normalize t = .ok k → Known f t ∧ shown f t = shown f r := fun t ht =>
    ⟨⟨a, k, (hf.blind t r k ht hk).trans ha, ht, hlf⟩, hf.shown_eq ht hk⟩
  rcases expressionValue_cases ctx d hs hlf with
    ⟨ht, h1, h2⟩ | ⟨ht, h1, h2⟩ | ⟨ht, h1, h2⟩ | ⟨ht, h1, h2⟩ <;> rw [← hv] at h1 h2
  · rw [h1, h2]
    refine ⟨?_, fun h => by cases h⟩
    simp only [attributeText, expressionText, ht]
  · rw [h1, h2]
    obtain ⟨hkn, heq⟩ := hknown _ hs
    exact ⟨congrArg (expressionText name) heq, fun _ => hkn⟩
  · rw [h1, h2]
    refine ⟨?_, fun h => by cases h⟩
    simp only [attributeText, expressionText, ht]
  · rw [h1]
    obtain ⟨hkn, heq⟩ := hknown _ h2
    exact ⟨congrArg (expressionText name) heq, fun _ => hkn⟩

theorem attributeText_reread (o₁ o₂ : Options) {a : Attribute Location}
    (h : SoundAttribute QuotedLine (Known f) a) (lay : TagLay) {a' : Attribute Location}
    (ha : a' = attributeOf (laidAttribute ⟨o₁, shown f⟩ lay a)) :
    attributeText ⟨o₂, shown f⟩ a' = attributeText ⟨o₂, shown f⟩ a ∧
      (isFormatted a'.kind = true → Known f a'.value) := by
  subst ha
  simp only [attributeOf, laidAttribute, valueOf]
  cases hk : a.kind with
  | boolean =>
      obtain ⟨h1, h2⟩ := kind_booleanValue (h.boolean hk)
      simp only [h1, h2]
      refine ⟨?_, fun h => by cases h⟩
      simp only [attributeText, hk]
  | string =>
      have hs := h.string hk
      have htext : (Written.Value.quoted (inside a.value)).text = a.value :=
        (quoted_inside hs.isQuoted).1
      simp only [hs.lay, htext]
      refine ⟨?_, fun h => by cases h⟩
      simp only [attributeText, hk, Written.Value.kind]
  | integer =>
      have := expressionText_reread hf (h.expression (.inl hk)) ⟨o₁, shown f⟩ lay.values o₂ a.name rfl
      simp only [this.1]
      refine ⟨?_, this.2⟩
      simp only [attributeText, hk]
  | expression =>
      have := expressionText_reread hf (h.expression (.inr hk)) ⟨o₁, shown f⟩ lay.values o₂ a.name rfl
      simp only [this.1]
      refine ⟨?_, this.2⟩
      simp only [attributeText, hk]

theorem openTag_reread {o₁ o₂ : Options} {tag : Tag} (h : SoundTag QuotedLine (Known f) tag)
    (d depth : Nat) :
    openTag ⟨o₂, shown f⟩ depth (Tag.ofWritten (laidTag ⟨o₁, shown f⟩ d tag) tag.selfClosing) =
      openTag ⟨o₂, shown f⟩ depth tag := by
  refine openTag_congr depth rfl rfl ?_
  simp only [attributeTexts, Tag.ofWritten, laidTag, List.map_map]
  exact List.map_congr_left fun a ha => (attributeText_reread hf o₁ o₂ (h.attributes a ha) _ rfl).1

theorem interpolation_reread {r : Bytes} (h : Known f r) (ctx : Context) (d : Nat) :
    Known f (innerText ctx d (shown f r)) ∧ shown f (innerText ctx d (shown f r)) = shown f r := by
  obtain ⟨a, k, ha, hk, hlf⟩ := h
  obtain ⟨k', hk', hs, -⟩ := hf.shown ha
  rw [hk] at hk'
  cases hk'
  have hin := normalize_innerText hs hlf ctx d
  exact ⟨⟨a, k, (hf.blind _ r k hin hk).trans ha, hin, hlf⟩, hf.shown_eq hin hk⟩

omit hf in
theorem childDepth_reread (ctx : Context) (d depth : Nat) (n : Node) :
    childDepth depth (rereadNode ctx d n) = childDepth depth n := by
  cases n <;> rfl

theorem layoutNode_reread {o₁ o₂ : Options} {n : Node} (h : Sound QuotedLine (Known f) n) (d : Nat) :
    ∀ depth, layoutNode ⟨o₂, shown f⟩ depth (rereadNode ⟨o₁, shown f⟩ d n) =
      layoutNode ⟨o₂, shown f⟩ depth n := by
  refine reread_induction (Q := fun _ n' n => ∀ depth, layoutNode ⟨o₂, shown f⟩ depth n' =
    layoutNode ⟨o₂, shown f⟩ depth n) (fun _ _ _ _ => rfl) (fun _ _ _ => rfl) ?_ ?_ h d
  · exact fun d raw location hr depth =>
      congrArg (interpolationText _ depth) (interpolation_reread hf hr _ d).2
  · intro d tag children ht hsame hkids depth
    have hs : (Tag.ofWritten (laidTag ⟨o₁, shown f⟩ d tag) tag.selfClosing).sensitive =
        tag.sensitive := ht.sensitive.symm
    rw [layoutNode, layoutNode, openTag_reread hf ht, hs]
    cases hv : tag.sensitive with
    | true =>
        rw [hsame hv]
        rfl
    | false =>
        rw [layoutChildren_eq_flatMap, layoutChildren_eq_flatMap, rereadAll_eq_map, List.flatMap_map]
        have heach : ∀ n ∈ children, layoutNode ⟨o₂, shown f⟩
            (childDepth depth (rereadNode ⟨o₁, shown f⟩ (childDepth d n) n))
            (rereadNode ⟨o₁, shown f⟩ (childDepth d n) n) =
              layoutNode ⟨o₂, shown f⟩ (childDepth depth n) n := by
          intro n hn
          rw [childDepth_reread, hkids hv n hn]
        rw [List.flatMap_congr heach]
        rfl

theorem snippets_tag_reread {o : Options} {tag : Tag} (h : SoundTag QuotedLine (Known f) tag)
    (d : Nat) :
    ∀ s ∈ (Tag.ofWritten (laidTag ⟨o, shown f⟩ d tag) tag.selfClosing).snippets, Known f s.raw := by
  intro s hs
  simp only [Tag.snippets, Tag.ofWritten, laidTag, List.mem_map, List.mem_filter] at hs
  obtain ⟨_, ⟨⟨_, ⟨a, ha, rfl⟩, rfl⟩, hk⟩, rfl⟩ := hs
  exact (attributeText_reread hf o o (h.attributes a ha) _ rfl).2 hk

theorem snippets_reread {o : Options} {n : Node} (h : Sound QuotedLine (Known f) n) (d : Nat) :
    ∀ parent, ∀ s ∈ nodeSnippets parent (rereadNode ⟨o, shown f⟩ d n), Known f s.raw := by
  refine reread_induction (Q := fun _ n' _ => ∀ parent, ∀ s ∈ nodeSnippets parent n', Known f s.raw)
    (by simp [nodeSnippets]) (by simp [nodeSnippets]) ?_ ?_ h d
  · intro d raw location hr parent s hs
    rw [nodeSnippets, List.mem_singleton] at hs
    rw [hs]
    exact (interpolation_reread hf hr _ d).1
  · intro d tag children ht hsame hkids parent s hs
    rw [nodeSnippets, List.mem_append] at hs
    rcases hs with hs | hs
    · exact snippets_tag_reread hf ht d s hs
    · have hsens : (Tag.ofWritten (laidTag ⟨o, shown f⟩ d tag) tag.selfClosing).sensitive =
          tag.sensitive := ht.sensitive.symm
      rw [hsens] at hs
      cases hv : tag.sensitive with
      | true => simp [hv] at hs
      | false =>
          rw [hv, if_neg (by decide), snippetsIn_eq_flatMap, rereadAll_eq_map, List.flatMap_map,
            List.mem_flatMap] at hs
          obtain ⟨n, hn, hs⟩ := hs
          exact hkids hv n hn _ s hs

theorem layout_reread {o₁ o₂ : Options} {rest : List Node}
    (h : ∀ n ∈ rest, Sound QuotedLine (Known f) n) (b c : Bool) :
    layout ⟨o₂, shown f⟩ (.marker .documentStart b :: rereadAll ⟨o₁, shown f⟩ (fun _ => 0) rest) =
      layout ⟨o₂, shown f⟩ (.marker .documentStart c :: rest) := by
  have htop : ∀ n ∈ rest, layoutTop ⟨o₂, shown f⟩ (rereadNode ⟨o₁, shown f⟩ 0 n) =
      layoutTop ⟨o₂, shown f⟩ n := by
    intro n hn
    cases n with
    | marker p b => rfl
    | text t => rfl
    | expression raw location => exact layoutNode_reread hf (h _ hn) 0 0
    | element tag children => exact layoutNode_reread hf (h _ hn) 0 0
  rw [layout, layout, rereadAll_eq_map, List.all_cons, List.all_cons, List.all_map, List.flatMap_cons,
    List.flatMap_cons, List.flatMap_map, List.flatMap_congr htop]
  simp only [Function.comp_def, isMarker_rereadNode]
  rfl

end Formatter

-- Formatting is confluent. What it gives under some options can be read and formatted again, and then
-- gives what the original gives under the options of the second time.
theorem format_confluent {f : Formatter} (hf : Keyed f) {src : Source} {ns : List Written.Node}
    (hread : Written.read src.content = .ok ns) (hns : Uncommented ns) (hline : OneLine src ns)
    {o₁ o₂ : Options} (ho₂ : 1 ≤ o₂.lineLength) {t : Bytes}
    (h : format f o₁ src (Raw.locateAll 0 ns) = .ok t) (name : Bytes) :
    ∃ tree u, Raw.read ⟨name, t⟩ = .ok tree ∧ format f o₂ ⟨name, t⟩ tree = .ok u ∧
      format f o₂ src (Raw.locateAll 0 ns) = .ok u := by
  have hff := hf.faithful
  obtain ⟨-, hcov, hsnip, rfl⟩ := (format_iff src hread).1 h
  obtain ⟨b, rest, hrest⟩ := ofWritten_eq_cons ns
  have hsound := hline.soundDocument hff hread hsnip hrest
  have hclean : CleanAll rest := by
    have := clean_ofWritten (read_iff.1 hread).2 hns
    rw [hrest] at this
    exact this.2.2
  -- what is read from `t` differs from `rest` only in how its values are written
  obtain ⟨ns', hread', hcov', hdoc'⟩ := read_layout (supports_known hff o₁) hsound hclean b
  rw [← hrest] at hread'
  refine ⟨Raw.locateAll 0 ns', _, read_raw ⟨name, _⟩ hread',
    (format_iff ⟨name, _⟩ hread').2 ⟨ho₂, hcov', ?_, rfl⟩,
    (format_iff src hread).2 ⟨ho₂, hcov, hsnip, ?_⟩⟩
  · rw [hdoc', snippets, snippetsIn_eq_flatMap, rereadAll_eq_map]
    intro s hs
    rw [List.flatMap_cons, List.flatMap_map, List.mem_append] at hs
    rcases hs with hs | hs
    · cases hs
    · obtain ⟨n, hn, hs⟩ := List.mem_flatMap.1 hs
      obtain ⟨v, -, hv, -⟩ := snippets_reread hff (hsound.sound n hn) _ _ s hs
      exact ⟨v, hv⟩
  · rw [hdoc', hrest, layout_reread hff hsound.sound]

def call : Source :=
  ⟨[], ascii "<a b=\x7b\x7bf(x,y)\x7d\x7d c>\n\x7b\x7b x\x7d\x7d</a>"⟩

def callRead : List Written.Node :=
  [.element ⟨ascii "a", [⟨ascii " ", ascii "b", .expression (ascii "f(x,y)")⟩,
      ⟨ascii " ", ascii "c", .absent⟩], []⟩
    [.text (ascii "\n"), .interpolation (ascii " x")]]

def wrappedCall : Bytes :=
  ascii ("<a\r\n  b=\x7b\x7b f(x, y) \x7d\x7d\r\n  c\r\n>\r\n" ++
    "  \x7b\x7b x \x7d\x7d</a>\r\n")

theorem read_call : Written.read call.content = .ok callRead :=
  read_iff.2 ⟨rfl, ⟨⟨by cbv, rfl, by simp⟩, ⟨by decide, rfl⟩, ⟨by cbv, rfl, by simp⟩, trivial⟩, trivial⟩

theorem uncommented_call : Uncommented callRead := by
  intro k hk t
  rcases List.mem_cons.1 hk with rfl | hk
  · nofun
  · rcases List.mem_cons.1 hk with rfl | hk
    · nofun
    · rw [List.mem_singleton.1 hk]
      nofun

theorem tame_call : Tame (fun body => Byte.lf ∉ body) callRead := by
  intro n hn tag htag
  rcases List.mem_cons.1 hn with rfl | hn
  · cases htag
    refine ⟨by decide, List.forall_mem_cons.2 ⟨?_, List.forall_mem_singleton.2 ?_⟩⟩
    · exact ⟨by decide, by decide, nofun⟩
    · exact ⟨by decide, by decide, nofun⟩
  · rcases List.mem_cons.1 hn with rfl | hn
    · cases htag
    · rw [List.mem_singleton.1 hn] at htag
      cases htag

theorem format_wrapped_call :
    let text := ascii "<a b=\x7b\x7b f(x, y) \x7d\x7d c>\n  \x7b\x7b x \x7d\x7d</a>\n"
    ∃ tree, Raw.read ⟨[], wrappedCall⟩ = .ok tree ∧
      format normalizing ⟨80, .lf⟩ ⟨[], wrappedCall⟩ tree = .ok text ∧
      format normalizing ⟨80, .lf⟩ call (Raw.locateAll 0 callRead) = .ok text := by
  intro text
  have hformat : format normalizing ⟨5, .crlf⟩ call (Raw.locateAll 0 callRead) = .ok wrappedCall := by
    cbv
  have hsnip : (snippets (ofRaw call (Raw.locateAll 0 callRead))).map Snippet.raw =
      [ascii "f(x,y)", ascii " x"] := by cbv
  have htext : format normalizing ⟨80, .lf⟩ call (Raw.locateAll 0 callRead) = .ok text := by
    decide +kernel
  suffices hconfluent : ∃ tree u, Raw.read ⟨[], wrappedCall⟩ = .ok tree ∧
      format normalizing ⟨80, .lf⟩ ⟨[], wrappedCall⟩ tree = .ok u ∧
      format normalizing ⟨80, .lf⟩ call (Raw.locateAll 0 callRead) = .ok u by
    obtain ⟨tree, u, hread, hagain, hfirst⟩ := hconfluent
    cases htext.symm.trans hfirst
    exact ⟨tree, hread, hagain, htext⟩
  refine format_confluent .normalizing read_call uncommented_call ⟨tame_call, ?_⟩ (by decide) hformat []
  intro s hs k hk
  have hr := List.mem_map_of_mem (f := Snippet.raw) hs
  rw [hsnip] at hr
  rcases List.mem_cons.1 hr with hr | hr
  · rw [hr, show normalize (ascii "f(x,y)") = .ok (ascii "f(x, y)") from rfl] at hk
    cases hk
    decide
  · rw [List.mem_singleton.1 hr, show normalize (ascii " x") = .ok (ascii "x") from rfl] at hk
    cases hk
    decide

end MarkupFormat
