import Mathlib.Data.List.Forall2
import MarkupFormat.Proofs.Canonical
import MarkupFormat.Proofs.Flow
import MarkupFormat.Proofs.Formatters

namespace MarkupFormat.Expression

open Bytes Written

theorem hasLiterals_of_enclosed (t : Bytes) : ∀ st : CodeState, enclosed st t = true →
    if st.mode = .code then ∃ ls, HasLiterals t ls
    else ∃ s u ls, t = s ++ u ∧ closesString st.mode s = true ∧ HasLiterals u ls := by
  induction t with
  | nil =>
      intro st h
      simp only [enclosed, Bool.and_eq_true, decide_eq_true_eq] at h
      rw [if_pos h.1]
      exact ⟨[], .nil⟩
  | cons c t ih =>
      intro st h
      simp only [enclosed, Bool.and_eq_true] at h
      have ih := ih (st.step c) h.2
      have hstep : (st.step c).mode = st.mode.next c := rfl
      rw [hstep] at ih
      by_cases hm : st.mode = .code
      · rw [if_pos hm]
        rw [hm] at ih
        by_cases hq : c = Byte.quote
        · have hnext : Mode.next .code c = .quoted := by rw [hq]; rfl
          rw [hnext, if_neg (by decide)] at ih
          obtain ⟨s, u, ls, rfl, hs, hu⟩ := ih
          rw [hq]
          exact ⟨_, .string hs hu⟩
        · rw [Mode.next_code_of_ne hq, if_pos rfl] at ih
          obtain ⟨ls, hls⟩ := ih
          exact ⟨ls, .code hq hls⟩
      · rw [if_neg hm]
        by_cases hnext : st.mode.next c = .code
        · rw [if_pos hnext] at ih
          obtain ⟨ls, hls⟩ := ih
          exact ⟨[c], t, ls, rfl, by simp [closesString, hnext], hls⟩
        · rw [if_neg hnext] at ih
          obtain ⟨s, u, ls, rfl, hs, hu⟩ := ih
          exact ⟨c :: s, u, ls, rfl, by simpa [closesString, hnext] using hs, hu⟩

end MarkupFormat.Expression

namespace MarkupFormat.Bytes

open Expression

theorem trim_spaced {t : Bytes} (h : trim t = t) (hne : t ≠ []) :
    trim (Byte.space :: t ++ [Byte.space]) = t := by
  have hspace : isEdge Byte.space = true := by decide
  have hfirst : ∀ c ∈ (t ++ [Byte.space]).head?, isEdge c = false := by
    rw [List.head?_append_of_ne_nil _ hne, ← h]
    exact head?_trim t
  have hlast : ∀ c ∈ t.reverse.head?, isEdge c = false := by
    rw [List.head?_reverse, ← h]
    exact getLast?_trim t
  rw [trim, List.cons_append, List.dropWhile_cons_of_pos hspace, dropWhile_edges hfirst, dropEndWhile,
    List.reverse_append, List.reverse_singleton, List.singleton_append,
    List.dropWhile_cons_of_pos hspace, dropWhile_edges hlast, List.reverse_reverse]

theorem getLast?_relay {newline pad t : Bytes} (hne : newline ≠ []) (h : EndsInLine t) :
    (relay newline pad t).getLast? = t.getLast? := by
  induction t with
  | nil => rfl
  | cons c t ih =>
      cases t with
      | nil =>
          have hc : c ≠ Byte.lf ∧ c ≠ Byte.cr := by simpa [EndsInLine] using h
          rw [relay_cons hc.1 hc.2]
          rfl
      | cons d t =>
          have hd := h.tail
          have hrest : relay newline pad (d :: t) ≠ [] := relay_ne_nil hne (List.cons_ne_nil d t) hd.2
          rw [List.getLast?_cons_cons, ← ih hd, relay]
          split
          · rw [List.getLast?_append_of_ne_nil _ hrest]
          · split
            · rfl
            · rw [List.getLast?_cons_of_ne_nil hrest]

end MarkupFormat.Bytes

namespace MarkupFormat.Written

open Bytes

theorem readTag_of_head {tag : OpenTag} {s t r : Bytes} (hne : tag.name ≠ [])
    (hname : cutAt endsName s = (tag.name, t))
    (has : readAttributes t = .ok (tag.attributes, tag.space, r)) :
    readTag s =
      if startsWith [Byte.greater] r then readBody tag (r.drop 1)
      else .ok (.node (.selfClosed tag), r.drop 2) := by
  cases hn : tag.name with
  | nil => exact absurd hn hne
  | cons c n =>
      rw [hn] at hname
      simp only [readTag, hname, has]
      rw [← hn]

end MarkupFormat.Written

namespace MarkupFormat.Layout

open Bytes Document Expression
open Written hiding Node

structure Legible (t : Bytes) : Prop where
  trimmed : trim t = t
  enclosed : Expression.enclosed .start t = true
  literal : Literal.kind? t ≠ none → Byte.lf ∉ t

def LegibleString (v : Bytes) : Prop :=
  IsQuoted v ∧ Byte.lf ∉ v

structure LegibleTag (shown : Bytes → Bytes) (tag : Tag) : Prop where
  name : PlainName tag.name
  noComment : startsWith (ascii "!--") tag.name = false
  attributes : ∀ a ∈ tag.attributes, SoundAttribute LegibleString (fun r => Legible (shown r)) a

theorem Legible.presentable {t : Bytes} (h : Legible t) : Presentable t where
  literals := hasLiterals_of_enclosed t .start h.enclosed
  enclosed := h.enclosed
  ends := h.trimmed ▸ endsInLine_trim t

theorem supports_legible (ctx : Context) :
    Supports ctx LegibleString fun r => Legible (ctx.shown r) where
  quoted := fun _ h => h.1
  presentable := fun _ h => h.presentable

def laidText (ctx : Context) (depth : Nat) (tag : Tag) (t : Bytes) : Bytes :=
  match tagShape ctx depth tag with
  | .oneLine => t
  | .hugging => ctx.reindent depth t
  | .wrapped _ => ctx.reindent (depth + 1) t

theorem laidText_eq (ctx : Context) (depth : Nat) (tag : Tag) (t : Bytes) :
    laidText ctx depth tag t = ctx.lay (tagLay ctx depth tag).values t := by
  unfold laidText tagLay
  cases tagShape ctx depth tag <;> rfl

structure ReadAs (ctx : Context) (depth : Nat) (tag : Tag) (a : Attribute Location)
    (w : WrittenAttribute) : Prop where
  name : w.name = a.name
  kept : isFormatted a.kind = false → w.value.kind = a.kind ∧ w.value.text = a.value
  literal : isFormatted a.kind = true → ∀ k, Literal.kind? (ctx.shown a.value) = some k →
    w.value.kind = kindOfLiteral (some k) ∧ w.value.text = ctx.shown a.value
  expression : isFormatted a.kind = true → Literal.kind? (ctx.shown a.value) = none →
    w.value.kind = .expression ∧ trim w.value.text = laidText ctx depth tag (ctx.shown a.value)

section Read

variable (ctx : Context) (d : Option Nat)

theorem trim_lay {t : Bytes} (h : trim t = t) : trim (ctx.lay d t) = ctx.lay d t := by
  cases d with
  | none => exact h
  | some depth =>
      rw [Context.lay, Context.reindent, reindent_eq_relay]
      refine trim_of_edges ?_ ?_
      · cases t with
        | nil =>
            intro c hc
            cases hc
        | cons c t =>
            have hc : isEdge c = false := head?_trim (c :: t) c (by rw [h]; rfl)
            have hlf : c ≠ Byte.lf := by
              rintro rfl
              cases hc
            have hcr : c ≠ Byte.cr := by
              rintro rfl
              cases hc
            rw [relay_cons hlf hcr]
            exact fun e he => Option.some.inj he ▸ hc
      · rw [getLast?_relay (newline_ne_nil ctx) (h ▸ endsInLine_trim t), ← h]
        exact getLast?_trim t

theorem text_quoted {v : Bytes} (h : IsQuoted v) (hlf : Byte.lf ∉ v) :
    (Value.quoted (inside (ctx.lay d v))).text = v := by
  have hlast : v.getLast? ≠ some Byte.cr := by
    rw [← (quoted_inside h).1, List.getLast?_concat]
    decide
  rw [lay_of_no_break ctx d hlf hlast]
  exact (quoted_inside h).1

theorem expressionValue_literal {t : Bytes} (h : Legible t) {k : LiteralKind}
    (hk : Literal.kind? t = some k) :
    (expressionValue (ctx.lay d) t).kind = kindOfLiteral (some k) ∧
      (expressionValue (ctx.lay d) t).text = t := by
  have hlf : Byte.lf ∉ t := h.literal (by simp [hk])
  unfold expressionValue
  rcases kind?_cases t with ⟨hb, ht⟩ | ⟨hi, ht⟩ | ⟨hs, ht⟩ | hn
  · cases hb.symm.trans hk
    rw [hb]
    exact kind_booleanValue ht
  · cases hi.symm.trans hk
    have hnot : Literal.isBoolean t = false := isBoolean_of_kind? (by simp [hi])
    rw [hi]
    simp [Value.kind, Value.text, hnot, isIntegerWord_of_isInteger ht, kindOfLiteral]
  · cases hs.symm.trans hk
    rw [hs]
    exact ⟨rfl, text_quoted ctx d (isQuoted_of_isString ht) hlf⟩
  · cases hn.symm.trans hk

theorem expressionValue_code {t : Bytes} (h : Legible t) (hk : Literal.kind? t = none) :
    (expressionValue (ctx.lay d) t).kind = .expression ∧
      trim (expressionValue (ctx.lay d) t).text = ctx.lay d t := by
  unfold expressionValue
  rw [hk]
  simp only
  split
  · next he =>
      rw [he]
      exact ⟨rfl, (lay_flat ctx d flat_nil).symm⟩
  · next hne =>
      split
      · exact ⟨rfl, trim_lay ctx d h.trimmed⟩
      · next hlf =>
          have hone : ctx.lay d t = t :=
            lay_of_no_break ctx d (by simpa using hlf) h.presentable.ends.2
          rw [hone]
          exact ⟨rfl, trim_spaced h.trimmed hne⟩

end Read

section Tag

variable {ctx : Context} {tag : Tag} (h : LegibleTag ctx.shown tag)
include h

theorem readAs_laidAttribute (depth : Nat) {a : Attribute Location} (ha : a ∈ tag.attributes) :
    ReadAs ctx depth tag a (laidAttribute ctx (tagLay ctx depth tag) a) := by
  have hs := h.attributes a ha
  have hvalue : isFormatted a.kind = true → Legible (ctx.shown a.value) ∧
      valueOf ctx (tagLay ctx depth tag).values a =
        expressionValue (ctx.lay (tagLay ctx depth tag).values) (ctx.shown a.value) := by
    intro hf
    unfold valueOf
    cases hk : a.kind with
    | boolean => simp [hk, isFormatted] at hf
    | string => simp [hk, isFormatted] at hf
    | integer => exact ⟨hs.expression (.inl hk), rfl⟩
    | expression => exact ⟨hs.expression (.inr hk), rfl⟩
  refine ⟨rfl, fun hf => ?_, fun hf k hk => ?_, fun hf hk => ?_⟩
  · unfold laidAttribute valueOf
    cases hk : a.kind with
    | boolean => exact kind_booleanValue (hs.boolean hk)
    | string =>
        obtain ⟨hq, hlf⟩ := hs.string hk
        exact ⟨rfl, text_quoted ctx _ hq hlf⟩
    | integer => simp [hk, isFormatted] at hf
    | expression => simp [hk, isFormatted] at hf
  · obtain ⟨ht, hv⟩ := hvalue hf
    rw [laidAttribute, hv]
    exact expressionValue_literal ctx _ ht hk
  · obtain ⟨ht, hv⟩ := hvalue hf
    rw [laidAttribute, hv, laidText_eq]
    exact expressionValue_code ctx _ ht hk

theorem LegibleTag.sound : SoundTag LegibleString (fun r => Legible (ctx.shown r))
    { tag with sensitive := ElementName.isSensitive tag.name } :=
  ⟨h.name, h.noComment, rfl, h.attributes⟩

end Tag

-- An opening tag is taken off the text as it was laid out, whatever follows it.
theorem readItem_openTag {ctx : Context} {tag : Tag} (h : LegibleTag ctx.shown tag) (depth : Nat)
    (rest : Bytes) :
    ∃ w : OpenTag,
      readItem (openTag ctx depth tag ++ rest) =
        (if tag.selfClosing then .ok (.node (.selfClosed w), rest) else readBody w rest) ∧
      startsWith [Byte.less, Byte.slash] (openTag ctx depth tag ++ rest) = false ∧
      w.name = tag.name ∧
      List.Forall₂ (ReadAs ctx depth tag) tag.attributes w.attributes := by
  have hsound : (laidTag ctx depth tag).Sound := sound_laidTag (supports_legible ctx) h.sound depth
  have hwrite : (laidTag ctx depth tag).write ++ tagEnd tag = openTag ctx depth tag :=
    write_laidTag (supports_legible ctx) h.sound depth
  have hend : endsTag (tagEnd tag ++ rest) = true := by
    unfold tagEnd
    split <;> rfl
  obtain ⟨t, hname, hattributes, hhead⟩ := hsound.readHead hend
  have htext : openTag ctx depth tag ++ rest = Byte.less :: (laidTag ctx depth tag).name ++ t := by
    rw [← hwrite, List.append_assoc, hhead]
  refine ⟨laidTag ctx depth tag, ?_, ?_, rfl, ?_⟩
  · have hcomment := hsound.not_comment hend
    rw [← hhead, List.cons_append] at hcomment
    rw [htext, List.cons_append, readItem_tag hcomment,
      readTag_of_head hsound.name.ne_nil hname hattributes]
    unfold tagEnd
    split
    · rfl
    · rfl
  · rw [← hwrite, List.append_assoc]
    exact hsound.not_closing _
  · change List.Forall₂ _ _ (tag.attributes.map _)
    rw [List.forall₂_map_right_iff, List.forall₂_same]
    exact fun a ha => readAs_laidAttribute h depth ha

def narrow : Context :=
  ⟨⟨5, .crlf⟩, id⟩

def braced : Tag where
  name := ascii "a"
  selfClosing := true
  sensitive := false
  location := .start
  attributes := [
    ⟨ascii "p", .string, ascii "\"x\\\"y\"", .start⟩,
    ⟨ascii "q", .boolean, ascii "true", .start⟩,
    ⟨ascii "r", .expression, ascii "\x7b s = 1;\n\x7d", .start⟩,
    ⟨ascii "n", .integer, ascii "1_0", .start⟩]

theorem readItem_braced :
    openTag narrow 1 braced =
      ascii "<a\r\n    p=\"x\\\"y\"\r\n    q\r\n    r=\x7b\x7b\x7b s = 1;\r\n    \x7d\x7d\x7d\r\n    n=1_0\r\n  />" ∧
    LegibleTag narrow.shown braced ∧
    ∃ w : OpenTag,
      readItem (openTag narrow 1 braced ++ ascii "z") = .ok (.node (.selfClosed w), ascii "z") ∧
      startsWith [Byte.less, Byte.slash] (openTag narrow 1 braced ++ ascii "z") = false ∧
      w.name = ascii "a" ∧ List.Forall₂ (ReadAs narrow 1 braced) braced.attributes w.attributes := by
  have hplain : ∀ c, isPlain c = true → PlainName [c] :=
    fun c hc => ⟨List.cons_ne_nil c [], List.forall_mem_singleton.2 hc⟩
  have hstring : LegibleString (ascii "\"x\\\"y\"") := ⟨⟨ascii "x\\\"y\"", rfl, rfl⟩, by decide⟩
  have hcode : Legible (ascii "\x7b s = 1;\n\x7d") := ⟨by decide, by decide, fun h => absurd rfl h⟩
  have hinteger : Legible (ascii "1_0") := ⟨by decide, by decide, fun _ => by decide⟩
  have h : LegibleTag narrow.shown braced := by
    refine ⟨hplain _ rfl, rfl, ?_⟩
    simp only [braced, List.forall_mem_cons]
    refine ⟨⟨hplain _ rfl, nofun, fun _ => hstring, nofun⟩,
      ⟨hplain _ rfl, fun _ => rfl, nofun, nofun⟩,
      ⟨hplain _ rfl, nofun, nofun, fun _ => hcode⟩,
      ⟨hplain _ rfl, nofun, nofun, fun _ => hinteger⟩, nofun⟩
  exact ⟨by decide, h, readItem_openTag h 1 (ascii "z")⟩

end MarkupFormat.Layout
