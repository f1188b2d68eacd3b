import Mathlib
import MarkupFormat.Proofs.Comments
import MarkupFormat.Proofs.OneLine
import MarkupFormat.Proofs.PlacedLiterals
import MarkupFormat.Proofs.Undisturbed

namespace MarkupFormat

open Bytes Document Layout Expression
open Written hiding Node

theorem literals_of_isWord {t : Bytes} (h : IsWord t) : literals t = [] := by
  have hno : ∀ u : Bytes, (∀ c ∈ u, c ≠ Byte.quote) → HasLiterals u [] := by
    intro u hu
    induction u with
    | nil => exact .nil
    | cons c u ih => exact .code (hu c (by simp)) (ih fun d hd => hu d (by simp [hd]))
  exact (hno t fun c hc => (isWordByte_iff.1 (h.bytes c hc)).2.1).literals_eq

theorem lay_literals {t : Bytes} (h : Presentable t) (hlf : Byte.lf ∉ t) (ctx : Context)
    (d : Option Nat) : (literals t).map (ctx.lay d) = literals t := by
  obtain ⟨ls, hls⟩ := h.literals
  rw [hls.literals_eq]
  have hlay := hasLiterals_lay ctx d hls
  rw [lay_of_no_break ctx d hlf h.ends.2] at hlay
  rw [← hlay.literals_eq, hls.literals_eq]

theorem literals_space {t : Bytes} {ls : List Bytes} (h : HasLiterals t ls) :
    literals (Byte.space :: t ++ [Byte.space]) = ls := by
  have hback := h.append (hasLiterals_blank (w := [Byte.space]) (by decide))
  have hall : HasLiterals (Byte.space :: (t ++ [Byte.space])) (ls ++ []) := .code (by decide) hback
  rw [← List.append_nil ls]
  exact hall.literals_eq

theorem literals_expressionValue (ctx : Context) (d : Option Nat) {t : Bytes} (h : Presentable t)
    (name : Bytes) {v : Written.Value} (hv : v = expressionValue (ctx.lay d) t) :
    attributeLiterals ⟨name, v.kind, v.text, .start⟩ = (literals t).map (ctx.lay d) := by
  obtain ⟨ls, hls⟩ := h.literals
  unfold expressionValue at hv
  rcases kind?_cases t with ⟨hk, hb⟩ | ⟨hk, hi⟩ | ⟨hk, hs⟩ | hk
  · rw [hk] at hv
    rw [hv, (kind_booleanValue hb).1, literals_of_isWord (isWord_of_isBoolean hb)]
    rfl
  · rw [hk] at hv
    have hword := literals_of_isWord (isWord_of_isInteger hi)
    have hw := isIntegerWord_of_isInteger hi
    have hb : Literal.isBoolean t = false := isBoolean_of_kind? (by simp [hk])
    simp [hv, attributeLiterals, Written.Value.kind, Written.Value.text, hb, hw, hword]
  · rw [hk] at hv
    have hq := isQuoted_of_isString hs
    have htext := (quoted_inside (isQuoted_lay ctx d hq)).1
    rw [hv, literals_of_isQuoted hq]
    exact congrArg (fun x => [x]) htext
  · rw [hk] at hv
    simp only at hv
    split at hv
    · next h0 =>
        rw [hv, h0]
        rfl
    · split at hv
      · rw [hv, hls.literals_eq]
        exact (hasLiterals_lay ctx d hls).literals_eq
      · next hlf =>
          rw [lay_literals h (by simpa using hlf), hv, hls.literals_eq]
          exact literals_space hls

theorem literals_innerText (ctx : Context) (depth : Nat) {t : Bytes} (h : Presentable t) :
    literals (innerText ctx depth t) = (literals t).map (ctx.lay (some depth)) := by
  obtain ⟨ls, hls⟩ := h.literals
  unfold innerText
  split
  · next h0 =>
      rw [h0]
      rfl
  · rw [hls.literals_eq]
    exact literals_space (hasLiterals_lay ctx (some depth) hls)

theorem isQuoted_of_mem_literals {t : Bytes} {ls : List Bytes} (h : HasLiterals t ls) :
    ∀ l ∈ ls, IsQuoted l := by
  induction h with
  | nil => simp
  | code _ _ ih => exact ih
  | string hs _ ih => exact List.forall_mem_cons.2 ⟨⟨_, rfl, hs⟩, ih⟩

def Accepted (f : Formatter) (r : Bytes) : Prop :=
  ∃ v, f r = .ok v

section Formatter

variable {f : Formatter} (hf : Expression.Faithful f)
include hf

theorem literals_shown {r : Bytes} (h : Accepted f r) :
    literals (shown f r) = literals r ∧ Presentable (shown f r) := by
  obtain ⟨v, hv⟩ := h
  obtain ⟨k, hr, hs, hp⟩ := hf.shown hv
  exact ⟨by rw [← literals_normalize hr, literals_normalize hs], hp⟩

theorem attributeLiterals_reread {opts : Options} {a : Attribute Location}
    (h : SoundAttribute (QuotedWith fun _ => True) (Accepted f) a) (lay : TagLay) :
    attributeLiterals (attributeOf (laidAttribute ⟨opts, shown f⟩ lay a)) =
      (attributeLiterals a).map ((⟨opts, shown f⟩ : Context).lay lay.values) := by
  have hexpr : Accepted f a.value → ∀ v : Written.Value,
      v = expressionValue ((⟨opts, shown f⟩ : Context).lay lay.values) (shown f a.value) →
        attributeLiterals ⟨a.name, v.kind, v.text, .start⟩ =
          (literals a.value).map ((⟨opts, shown f⟩ : Context).lay lay.values) := by
    intro hr v hv
    obtain ⟨hl, hp⟩ := literals_shown hf hr
    rw [literals_expressionValue _ _ hp a.name hv, hl]
  simp only [attributeOf, laidAttribute, valueOf]
  cases hk : a.kind with
  | boolean =>
      simp only [attributeLiterals, (kind_booleanValue (h.boolean hk)).1, hk]
      rfl
  | string =>
      have hq := isQuoted_lay ⟨opts, shown f⟩ lay.values (h.string hk).isQuoted
      simp only [attributeLiterals, hk, Written.Value.kind, List.map_cons, List.map_nil]
      exact congrArg (fun x => [x]) (quoted_inside hq).1
  | integer =>
      rw [attributeLiterals.eq_def a, hk]
      exact hexpr (h.expression (.inl hk)) _ rfl
  | expression =>
      rw [attributeLiterals.eq_def a, hk]
      exact hexpr (h.expression (.inr hk)) _ rfl

theorem nodeLiterals_reread {opts : Options} {n : Node}
    (h : Sound (QuotedWith fun _ => True) (Accepted f) n) (d : Nat) :
    nodeLiterals (rereadNode ⟨opts, shown f⟩ d n) =
      (placedNode ⟨opts, shown f⟩ d n).map fun p => (⟨opts, shown f⟩ : Context).lay p.1 p.2 := by
  refine reread_induction (Q := fun d n' n => nodeLiterals n' =
      (placedNode ⟨opts, shown f⟩ d n).map fun p => (⟨opts, shown f⟩ : Context).lay p.1 p.2)
    (fun _ _ _ => rfl) (fun _ _ => rfl) ?_ ?_ h d
  · intro d raw location hr
    obtain ⟨hl, hp⟩ := literals_shown hf hr
    rw [nodeLiterals, placedNode, literals_innerText _ d hp, hl, List.map_map]
    rfl
  · intro d tag children ht hsame hkids
    have hs : (Tag.ofWritten (laidTag ⟨opts, shown f⟩ d tag) tag.selfClosing).sensitive =
        tag.sensitive := ht.sensitive.symm
    rw [nodeLiterals, placedNode, List.map_append, hs]
    congr 1
    · rw [literals_tag_ofWritten, laidTag, List.flatMap_map, placedTag, List.map_map, List.map_flatMap]
      exact List.flatMap_congr fun a ha => attributeLiterals_reread hf (ht.attributes a ha) _
    · cases hv : tag.sensitive with
      | true => rfl
      | false =>
          have hall : allLiterals (rereadAll ⟨opts, shown f⟩ (childDepth d) children) =
              (placedAll ⟨opts, shown f⟩ d children).map fun p =>
                (⟨opts, shown f⟩ : Context).lay p.1 p.2 := by
            rw [allLiterals_eq_flatMap, rereadAll_eq_map, List.flatMap_map, placedAll_eq_flatMap,
              List.map_flatMap]
            exact List.flatMap_congr fun n hn => hkids hv n hn
          exact hall

theorem isQuoted_of_accepted {r : Bytes} (h : Accepted f r) : ∀ l ∈ literals r, IsQuoted l := by
  obtain ⟨v, hv⟩ := h
  obtain ⟨k, hk, -⟩ := hf.sound r v hv
  obtain ⟨ls, hls, -⟩ := hasLiterals_normalize hk
  rw [hls.literals_eq]
  exact isQuoted_of_mem_literals hls

theorem isQuoted_of_mem_attributeLiterals {P : Bytes → Prop} {a : Attribute Location}
    (h : SoundAttribute (QuotedWith P) (Accepted f) a) : ∀ l ∈ attributeLiterals a, IsQuoted l := by
  unfold attributeLiterals
  cases hk : a.kind with
  | boolean => simp
  | string => simpa using (h.string hk).isQuoted
  | integer => exact isQuoted_of_accepted hf (h.expression (.inl hk))
  | expression => exact isQuoted_of_accepted hf (h.expression (.inr hk))

theorem isQuoted_of_mem_nodeLiterals {P : Bytes → Prop} {n : Node}
    (h : Sound (QuotedWith P) (Accepted f) n) : ∀ l ∈ nodeLiterals n, IsQuoted l := by
  have helement : ∀ {tag : Tag} {children : List Node}, SoundTag (QuotedWith P) (Accepted f) tag →
      (tag.sensitive = false → ∀ l ∈ allLiterals children, IsQuoted l) →
      ∀ l ∈ nodeLiterals (.element tag children), IsQuoted l := by
    intro tag children ht hkids
    rw [nodeLiterals, List.forall_mem_append]
    refine ⟨?_, ?_⟩
    · intro l hl
      obtain ⟨a, ha, hl⟩ := List.mem_flatMap.1 hl
      exact isQuoted_of_mem_attributeLiterals hf (ht.attributes a ha) l hl
    · cases hv : tag.sensitive with
      | true => simp
      | false => exact hkids hv
  induction h with
  | marker p b => simp [nodeLiterals]
  | text _ _ => simp [nodeLiterals]
  | expression l hr => exact isQuoted_of_accepted hf hr
  | selfClosed ht _ => exact helement ht fun _ => by simp [allLiterals]
  | verbatim ht _ _ hv _ => exact helement ht fun h => by simp [hv] at h
  | hollow ht _ _ _ hc =>
      refine helement ht fun _ => ?_
      rcases hc with rfl | ⟨b, rfl⟩ <;> simp [allLiterals, nodeLiterals]
  | sensitive ht _ _ hv _ => exact helement ht fun h => by simp [hv] at h
  | element ht _ _ _ _ _ _ ih =>
      refine helement ht fun _ l hl => ?_
      rw [allLiterals_eq_flatMap] at hl
      obtain ⟨n, hn, hl⟩ := List.mem_flatMap.1 hl
      exact ih n hn l hl

end Formatter

-- What formatting makes of string literals. Each is read again in its place, laid as the value that it
-- stands in; so all survive if and only if each is left undisturbed there.
theorem literals_format {f : Formatter} (hf : Keyed f) {src : Source} {ns : List Written.Node}
    (hread : Written.read src.content = .ok ns) (hns : Uncommented ns) (htame : Tame (fun _ => True) ns)
    {opts : Options} {t : Bytes} (h : format f opts src (Raw.locateAll 0 ns) = .ok t) :
    ∃ ns', Written.read t = .ok ns' ∧
      literalsIn ns = (placed ⟨opts, shown f⟩ (ofRaw src (Raw.locateAll 0 ns))).map Prod.snd ∧
      literalsIn ns' = (placed ⟨opts, shown f⟩ (ofRaw src (Raw.locateAll 0 ns))).map
        (fun p => (⟨opts, shown f⟩ : Context).lay p.1 p.2) ∧
      (literalsIn ns' = literalsIn ns ↔ ∀ p ∈ placed ⟨opts, shown f⟩ (ofRaw src (Raw.locateAll 0 ns)),
        Undisturbed ⟨opts, shown f⟩ p.1 p.2) := by
  have hff := hf.faithful
  have hplaced : placed ⟨opts, shown f⟩ (ofRaw src (Raw.locateAll 0 ns)) =
      placed ⟨opts, shown f⟩ (ofWritten ns) := by
    rw [← unplaced_ofRaw src (Written.writeAll_read hread).symm, placed_unplacedAll]
  obtain ⟨-, -, hsnip, rfl⟩ := (format_iff src hread).1 h
  obtain ⟨b, rest, hrest⟩ := ofWritten_eq_cons ns
  have hlegal := (read_iff.1 hread).2
  have hsound : SoundDocument (QuotedWith fun _ => True) (Accepted f) rest :=
    soundDocument_ofWritten hrest hlegal htame hsnip
  have hclean : CleanAll rest := by
    have := clean_ofWritten hlegal hns
    rw [hrest] at this
    exact this.2.2
  obtain ⟨ns', hread', -, hdoc'⟩ := read_layout (supports_accepted hff opts) hsound hclean b
  rw [← hrest] at hread'
  have hbefore : literalsIn ns = (placed ⟨opts, shown f⟩ (ofWritten ns)).map Prod.snd := by
    rw [snd_placed, allLiterals_ofWritten]
  have hafter : literalsIn ns' = (placed ⟨opts, shown f⟩ (ofWritten ns)).map
      (fun p => (⟨opts, shown f⟩ : Context).lay p.1 p.2) := by
    rw [← allLiterals_ofWritten, hdoc', hrest, placed, List.map_flatMap, allLiterals_eq_flatMap,
      List.flatMap_cons, List.flatMap_cons, rereadAll_eq_map, List.flatMap_map]
    exact congrArg ([] ++ ·)
      (List.flatMap_congr fun n hn => nodeLiterals_reread hff (hsound.sound n hn) 0)
  have hquoted : ∀ p ∈ placed ⟨opts, shown f⟩ (ofWritten ns), IsQuoted p.2 := by
    intro p hp
    obtain ⟨n, hn, hp⟩ := List.mem_flatMap.1 hp
    have hl : p.2 ∈ nodeLiterals n := by
      rw [← snd_placedNode ⟨opts, shown f⟩ 0 n]
      exact List.mem_map_of_mem hp
    rw [hrest] at hn
    rcases List.mem_cons.1 hn with rfl | hn
    · simp [nodeLiterals] at hl
    · exact isQuoted_of_mem_nodeLiterals hff (hsound.sound n hn) _ hl
  rw [hplaced]
  refine ⟨ns', hread', hbefore, hafter, ?_⟩
  rw [hbefore, hafter, List.map_inj_left]
  exact forall₂_congr fun p hp => lay_eq_self_iff _ p.1 (hquoted p hp)

def twoLines : Source :=
  ⟨[], ascii "<a b=\"x\ny\" c />"⟩

def twoLinesRead : List Written.Node :=
  [.selfClosed ⟨ascii "a",
    [⟨ascii " ", ascii "b", .quoted (ascii "x\ny")⟩, ⟨ascii " ", ascii "c", .absent⟩], ascii " "⟩]

theorem read_twoLines : Written.read twoLines.content = .ok twoLinesRead :=
  read_iff.2 ⟨rfl, ⟨by cbv, rfl, by simp⟩, trivial⟩

theorem uncommented_twoLines : Uncommented twoLinesRead := by
  intro n hn t
  rw [List.mem_singleton.1 hn]
  nofun

theorem tame_twoLines : Tame (fun _ => True) twoLinesRead := by
  intro n hn tag htag
  rw [List.mem_singleton.1 hn] at htag
  cases htag
  refine ⟨by decide, List.forall_mem_cons.2 ⟨?_, List.forall_mem_singleton.2 ?_⟩⟩
  · exact ⟨by decide, by decide, fun _ => ⟨_, rfl, trivial⟩⟩
  · exact ⟨by decide, by decide, nofun⟩

theorem literals_one_line :
    ∃ ns', Written.read (ascii "<a b=\"x\ny\" c />\n") = .ok ns' ∧
      literalsIn ns' = literalsIn twoLinesRead := by
  have hformat : format normalizing .default twoLines (Raw.locateAll 0 twoLinesRead) =
      .ok (ascii "<a b=\"x\ny\" c />\n") := by cbv
  obtain ⟨ns', hread, -, -, hsame⟩ :=
    literals_format .normalizing read_twoLines uncommented_twoLines tame_twoLines hformat
  refine ⟨ns', hread, hsame.2 fun p hp => .inl ?_⟩
  have hplaced : placed ⟨.default, shown normalizing⟩ (ofRaw twoLines (Raw.locateAll 0 twoLinesRead)) =
      [(none, ascii "\"x\ny\"")] := by cbv
  rw [hplaced, List.mem_singleton] at hp
  rw [hp]

theorem literals_wrapped :
    Written.read twoLines.content = .ok twoLinesRead ∧ Uncommented twoLinesRead ∧
      Tame (fun _ => True) twoLinesRead ∧
      format normalizing ⟨10, .lf⟩ twoLines (Raw.locateAll 0 twoLinesRead) =
        .ok (ascii "<a\n  b=\"x\n  y\"\n  c\n/>\n") ∧
      literalsIn twoLinesRead = [ascii "\"x\ny\""] ∧
      ∃ ns', Written.read (ascii "<a\n  b=\"x\n  y\"\n  c\n/>\n") = .ok ns' ∧
        literalsIn ns' = [ascii "\"x\n  y\""] := by
  refine ⟨read_twoLines, uncommented_twoLines, tame_twoLines, by cbv, by cbv, ?_⟩
  refine ⟨[.selfClosed ⟨ascii "a", [⟨ascii "\n  ", ascii "b", .quoted (ascii "x\n  y")⟩,
    ⟨ascii "\n  ", ascii "c", .absent⟩], ascii "\n"⟩, .text (ascii "\n")], ?_, by cbv⟩
  exact read_iff.2 ⟨rfl, ⟨by cbv, rfl, by simp⟩, ⟨by decide, rfl⟩, trivial⟩

end MarkupFormat
