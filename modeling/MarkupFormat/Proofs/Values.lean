import MarkupFormat.Document.Snippet
import MarkupFormat.Layout.Tag
import MarkupFormat.Proofs.Tags

namespace MarkupFormat.Layout

open Bytes Expression Document Written

def Context.lay (ctx : Context) : Option Nat → Bytes → Bytes
  | none, t => t
  | some depth, t => ctx.reindent depth t

theorem newlineText_ne_nil (newline : Newline) : newline.text ≠ [] := by
  cases newline <;> decide

theorem allBlank_newlineText (newline : Newline) : allBlank newline.text = true := by
  cases newline <;> decide

theorem allBlank_spaces (n : Nat) : allBlank (spaces n) = true := by
  simp [allBlank, spaces, isBlank_space]

theorem newline_ne_nil (ctx : Context) : ctx.newline ≠ [] :=
  newlineText_ne_nil ctx.options.newline

theorem allBlank_newline (ctx : Context) : allBlank ctx.newline = true :=
  allBlank_newlineText ctx.options.newline

theorem allBlank_indent (depth : Nat) : allBlank (indent depth) = true :=
  allBlank_spaces _

structure Presentable (t : Bytes) : Prop where
  literals : ∃ ls, HasLiterals t ls
  enclosed : Expression.enclosed .start t = true
  ends : EndsInLine t

def IsQuoted (v : Bytes) : Prop :=
  ∃ s, v = Byte.quote :: s ∧ closesString .quoted s = true

section Lay

variable (ctx : Context) (d : Option Nat)

theorem lay_of_no_break {t : Bytes} (hlf : Byte.lf ∉ t) (hcr : t.getLast? ≠ some Byte.cr) :
    ctx.lay d t = t := by
  cases d with
  | none => rfl
  | some depth =>
      rw [Context.lay, Context.reindent, reindent_eq_relay]
      exact relay_of_no_break hlf hcr

theorem lay_append_left {a t : Bytes} (ha : Flat a) :
    ctx.lay d (a ++ t) = a ++ ctx.lay d t := by
  cases d with
  | none => rfl
  | some depth =>
      simp only [Context.lay, Context.reindent, reindent_eq_relay]
      exact relay_append_left ha

theorem lay_append {t u : Bytes} (h : EndsInLine t) :
    ctx.lay d (t ++ u) = ctx.lay d t ++ ctx.lay d u := by
  cases d with
  | none => rfl
  | some depth =>
      simp only [Context.lay, Context.reindent, reindent_eq_relay]
      exact relay_append h

theorem hasLiterals_lay {t : Bytes} {ls : List Bytes} (h : HasLiterals t ls) :
    HasLiterals (ctx.lay d t) (ls.map (ctx.lay d)) := by
  cases d with
  | none =>
      have : ls.map (ctx.lay none) = ls := List.map_id' ls
      rwa [this]
  | some depth =>
      have := h.relay (newline_ne_nil ctx) (allBlank_newline ctx) (allBlank_indent depth)
      have hlay : ∀ t, ctx.lay (some depth) t = relay ctx.newline (indent depth) t :=
        fun t => reindent_eq_relay t
      rw [hlay, List.map_congr_left fun l _ => hlay l]
      exact this

theorem enclosed_lay {t : Bytes} {ls : List Bytes} (h : HasLiterals t ls) :
    enclosed .start (ctx.lay d t) = enclosed .start t := by
  cases d with
  | none => rfl
  | some depth =>
      rw [Context.lay, Context.reindent, reindent_eq_relay]
      exact enclosed_relay (newline_ne_nil ctx) (allBlank_newline ctx) (allBlank_indent depth) h 0

theorem normalize_lay {t k : Bytes} (h : normalize t = .ok k)
    (hls : ∀ l ∈ literals t, Byte.lf ∉ l) : normalize (ctx.lay d t) = .ok k := by
  cases d with
  | none => exact h
  | some depth =>
      rw [Context.lay, Context.reindent, reindent_eq_relay]
      have hrelay := normalize_relay (newline_ne_nil ctx) (allBlank_newline ctx) (allBlank_indent depth) hls
      exact hrelay.trans h

theorem isQuoted_lay {v : Bytes} (h : IsQuoted v) : IsQuoted (ctx.lay d v) := by
  obtain ⟨s, rfl, hs⟩ := h
  cases d with
  | none => exact ⟨s, rfl, hs⟩
  | some depth =>
      have hquote : Flat [Byte.quote] := by decide
      refine ⟨ctx.reindent depth s, lay_append_left ctx (some depth) hquote, ?_⟩
      rw [Context.reindent, reindent_eq_relay,
        closesString_relay (newline_ne_nil ctx) (allBlank_newline ctx) (allBlank_indent depth) s ?_ _
          (by decide)]
      · exact hs
      · rw [getLast?_of_closesString (by decide) hs]
        decide

end Lay

def inside (v : Bytes) : Bytes :=
  v.tail.dropLast

theorem quoted_inside {v : Bytes} (h : IsQuoted v) :
    Byte.quote :: inside v ++ [Byte.quote] = v ∧
      closesString .quoted (inside v ++ [Byte.quote]) = true := by
  obtain ⟨s, rfl, hs⟩ := h
  obtain ⟨body, rfl⟩ := List.getLast?_eq_some_iff.1 (getLast?_of_closesString (by decide) hs)
  have hin : inside (Byte.quote :: (body ++ [Byte.quote])) = body := by simp [inside]
  rw [hin]
  exact ⟨rfl, hs⟩

theorem closesString_of_isStringBody {t : Bytes} (h : Literal.isStringBody t = true) :
    closesString .quoted (t ++ [Byte.quote]) = true := by
  have hqb : Byte.quote ≠ Byte.backslash := by decide
  have hkeep : ∀ c u, c ≠ Byte.backslash → c ≠ Byte.quote →
      closesString .quoted (c :: u) = closesString .quoted u := by
    intro c u hb hq
    simp [closesString, Mode.next, hb, hq]
  fun_induction Literal.isStringBody t with
  | case1 => simp [closesString, Mode.next, hqb]
  | case2 c =>
      simp only [Bool.and_eq_true, decide_eq_true_eq] at h
      rw [List.cons_append, hkeep c _ h.1.1 h.1.2]
      simp [closesString, Mode.next, hqb]
  | case3 d t ih => simpa [closesString, Mode.next] using ih h
  | case4 c d t hc ih =>
      simp only [Bool.and_eq_true, decide_eq_true_eq] at h
      rw [List.cons_append, hkeep c _ hc h.1.1.1]
      exact ih h.2

theorem isQuoted_of_isString {t : Bytes} (h : Literal.isString t = true) : IsQuoted t := by
  cases t with
  | nil => cases h
  | cons c t =>
      simp only [Literal.isString, Bool.and_eq_true, decide_eq_true_eq] at h
      obtain ⟨⟨rfl, hlast⟩, hbody⟩ := h
      obtain ⟨body, rfl⟩ := List.getLast?_eq_some_iff.1 hlast
      rw [List.dropLast_concat] at hbody
      exact ⟨_, rfl, closesString_of_isStringBody hbody⟩

def isWordByte (c : UInt8) : Bool :=
  isPlain c && c ≠ Byte.quote && c ≠ Byte.openBrace

theorem isWordByte_iff {c : UInt8} :
    isWordByte c = true ↔ isPlain c = true ∧ c ≠ Byte.quote ∧ c ≠ Byte.openBrace := by
  simp [isWordByte, and_assoc]

theorem isWordByte_digit {c : UInt8} (h : Literal.isDigitOrUnderscore c = true) :
    isWordByte c = true := by
  have hall : ∀ c, Literal.isDigitOrUnderscore c = true → isWordByte c = true :=
    Byte.forall_iff.2 (by decide +kernel)
  exact hall c h

structure IsWord (t : Bytes) : Prop where
  ne_nil : t ≠ []
  bytes : ∀ c ∈ t, isWordByte c = true

theorem isWord_of_isBoolean {t : Bytes} (h : Literal.isBoolean t = true) : IsWord t := by
  simp only [Literal.isBoolean, Bool.or_eq_true, decide_eq_true_eq] at h
  rcases h with rfl | rfl
  · exact ⟨by decide, List.all_eq_true.1 rfl⟩
  · exact ⟨by decide, List.all_eq_true.1 rfl⟩

theorem isWord_of_isInteger {t : Bytes} (h : Literal.isInteger t = true) : IsWord t := by
  cases t with
  | nil => cases h
  | cons c t =>
      simp only [Literal.isInteger, Bool.and_eq_true, List.all_eq_true] at h
      refine ⟨by simp, ?_⟩
      intro d hd
      rcases List.mem_cons.1 hd with rfl | hd
      · exact isWordByte_digit (by simp [Literal.isDigitOrUnderscore, h.1.1])
      · exact isWordByte_digit (h.1.2 d hd)

theorem IsWord.flat {t : Bytes} (h : IsWord t) : Flat t := by
  intro c hc
  have := h.bytes c hc
  constructor <;> rintro rfl <;> cases this

theorem IsWord.sound {t : Bytes} (h : IsWord t) : (Value.word t).Sound :=
  .word (fun c hc => isWordByte_iff.1 (h.bytes c hc)) h.ne_nil

def expressionValue (lay : Bytes → Bytes) (t : Bytes) : Value :=
  match Literal.kind? t with
  | some .boolean => if t = Literal.trueText then .absent else .word t
  | some .integer => .word t
  | some .string => .quoted (inside (lay t))
  | none =>
      if t = [] then .expression []
      else if t.contains Byte.lf then .expression (lay t)
      else .expression (Byte.space :: t ++ [Byte.space])

def valueOf (ctx : Context) (d : Option Nat) (a : Attribute Location) : Value :=
  match a.kind with
  | .boolean => if a.value = Literal.trueText then .absent else .word a.value
  | .string => .quoted (inside (ctx.lay d a.value))
  | .integer | .expression => expressionValue (ctx.lay d) (ctx.shown a.value)

structure SoundAttribute (S R : Bytes → Prop) (a : Attribute Location) : Prop where
  name : PlainName a.name
  boolean : a.kind = .boolean → Literal.isBoolean a.value = true
  string : a.kind = .string → S a.value
  expression : a.kind = .integer ∨ a.kind = .expression → R a.value

structure Supports (ctx : Context) (S R : Bytes → Prop) : Prop where
  quoted : ∀ v, S v → IsQuoted v
  presentable : ∀ r, R r → Presentable (ctx.shown r)

theorem PlainName.flat {t : Bytes} (h : PlainName t) : Flat t := by
  intro c hc
  have := h.plain c hc
  constructor <;> rintro rfl <;> cases this

theorem kind?_cases (t : Bytes) :
    (Literal.kind? t = some .boolean ∧ Literal.isBoolean t = true) ∨
    (Literal.kind? t = some .integer ∧ Literal.isInteger t = true) ∨
    (Literal.kind? t = some .string ∧ Literal.isString t = true) ∨
    Literal.kind? t = none := by
  unfold Literal.kind?
  split
  · next h => exact .inl ⟨rfl, h⟩
  · split
    · next h => exact .inr (.inl ⟨rfl, h⟩)
    · split
      · next h => exact .inr (.inr (.inl ⟨rfl, h⟩))
      · exact .inr (.inr (.inr rfl))

theorem expressionText_cases (name t : Bytes) :
    (Literal.kind? t ≠ none ∧
      (expressionText name t = ⟨booleanText name t, false⟩ ∨
        expressionText name t = ⟨assigned name t, false⟩)) ∨
    (t = [] ∧ expressionText name t = ⟨assigned name (openDelimiter ++ closeDelimiter), false⟩) ∨
    (Byte.lf ∈ t ∧
      expressionText name t = ⟨assigned name (openDelimiter ++ t ++ closeDelimiter), true⟩) ∨
    (Byte.lf ∉ t ∧
      expressionText name t =
        ⟨assigned name (openDelimiter ++ Byte.space :: t ++ Byte.space :: closeDelimiter), false⟩) := by
  unfold expressionText
  rcases kind?_cases t with ⟨hk, -⟩ | ⟨hk, -⟩ | ⟨hk, -⟩ | hk
  · exact .inl ⟨by simp [hk], .inl (by rw [hk])⟩
  · exact .inl ⟨by simp [hk], .inr (by rw [hk])⟩
  · exact .inl ⟨by simp [hk], .inr (by rw [hk])⟩
  · rw [hk]
    by_cases hnil : t = []
    · exact .inr (.inl ⟨hnil, if_pos hnil⟩)
    · by_cases hlf : Byte.lf ∈ t
      · exact .inr (.inr (.inl ⟨hlf, (if_neg hnil).trans (if_pos (List.contains_iff_mem.2 hlf))⟩))
      · exact .inr (.inr (.inr ⟨hlf, (if_neg hnil).trans (if_neg (by simpa using hlf))⟩))

theorem attributeText_cases (ctx : Context) (a : Attribute Location) :
    (isFormatted a.kind = false ∧
      (attributeText ctx a = ⟨booleanText a.name a.value, false⟩ ∨
        attributeText ctx a = ⟨assigned a.name a.value, false⟩)) ∨
    (isFormatted a.kind = true ∧ attributeText ctx a = expressionText a.name (ctx.shown a.value)) := by
  unfold attributeText
  cases a.kind with
  | boolean => exact .inl ⟨rfl, .inl rfl⟩
  | string => exact .inl ⟨rfl, .inr rfl⟩
  | integer => exact .inr ⟨rfl, rfl⟩
  | expression => exact .inr ⟨rfl, rfl⟩

theorem enclosed_space {t : Bytes} (h : enclosed .start t = true) :
    enclosed .start (Byte.space :: t ++ [Byte.space]) = true := by
  have hfront : enclosed .start (Byte.space :: t) = true := by
    have := enclosed_blanks (w := [Byte.space]) (by decide) t 0
    exact this.trans h
  exact enclosed_append_blanks (by decide) _ hfront

section Write

variable (ctx : Context) (d : Option Nat)

theorem sound_booleanValue {v : Bytes} (h : Literal.isBoolean v = true) :
    (if v = Literal.trueText then Value.absent else Value.word v).Sound := by
  split
  · exact .absent
  · exact (isWord_of_isBoolean h).sound

theorem sound_expressionValue {t : Bytes} (h : Presentable t) :
    (expressionValue (ctx.lay d) t).Sound := by
  unfold expressionValue
  rcases kind?_cases t with ⟨hk, hb⟩ | ⟨hk, hi⟩ | ⟨hk, hs⟩ | hk
  · rw [hk]
    exact sound_booleanValue hb
  · rw [hk]
    exact (isWord_of_isInteger hi).sound
  · rw [hk]
    exact .quoted (quoted_inside (isQuoted_lay ctx d (isQuoted_of_isString hs))).2
  · rw [hk]
    simp only
    split
    · exact .expression rfl
    · split
      · obtain ⟨ls, hls⟩ := h.literals
        exact .expression ((enclosed_lay ctx d hls).trans h.enclosed)
      · exact .expression (enclosed_space h.enclosed)

theorem sound_valueOf {S R : Bytes → Prop} (hctx : Supports ctx S R) {a : Attribute Location}
    (h : SoundAttribute S R a) : (valueOf ctx d a).Sound := by
  unfold valueOf
  cases hk : a.kind with
  | boolean => exact sound_booleanValue (h.boolean hk)
  | string => exact .quoted (quoted_inside (isQuoted_lay ctx d (hctx.quoted _ (h.string hk)))).2
  | integer => exact sound_expressionValue ctx d (hctx.presentable _ (h.expression (.inl hk)))
  | expression => exact sound_expressionValue ctx d (hctx.presentable _ (h.expression (.inr hk)))

theorem lay_assigned {name v : Bytes} (hn : Flat name) :
    ctx.lay d (assigned name v) = name ++ Byte.equals :: ctx.lay d v := by
  have hpre : Flat (name ++ [Byte.equals]) := flat_append.2 ⟨hn, by decide⟩
  have := lay_append_left ctx d (t := v) hpre
  simpa [assigned] using this

theorem lay_flat {t : Bytes} (h : Flat t) : ctx.lay d t = t :=
  lay_of_no_break ctx d (fun hc => (h _ hc).1 rfl) fun hl => (h _ (List.mem_of_getLast? hl)).2 rfl

theorem lay_quoted {v : Bytes} (h : IsQuoted v) :
    Byte.equals :: ctx.lay d v = (Value.quoted (inside (ctx.lay d v))).write := by
  exact congrArg (Byte.equals :: ·) (quoted_inside (isQuoted_lay ctx d h)).1.symm

theorem lay_booleanText {name v : Bytes} (hn : Flat name)
    (h : Literal.isBoolean v = true) :
    ctx.lay d (booleanText name v) =
      name ++ (if v = Literal.trueText then Value.absent else Value.word v).write := by
  unfold booleanText
  split
  · rw [lay_flat ctx d hn]
    simp [Value.write]
  · rw [lay_assigned ctx d hn, lay_flat ctx d (isWord_of_isBoolean h).flat]
    rfl

theorem lay_delimited {t : Bytes} (h : EndsInLine t) :
    ctx.lay d (openDelimiter ++ t ++ closeDelimiter) =
      openDelimiter ++ ctx.lay d t ++ closeDelimiter := by
  have hopen : Flat openDelimiter := by decide
  have hclose : Flat closeDelimiter := by decide
  rw [List.append_assoc, lay_append_left ctx d hopen, lay_append ctx d h, lay_flat ctx d hclose,
    List.append_assoc]

theorem lay_expressionText {name t : Bytes} (hn : Flat name)
    (h : Presentable t) :
    ctx.lay d (expressionText name t).text = name ++ (expressionValue (ctx.lay d) t).write := by
  unfold expressionText expressionValue
  rcases kind?_cases t with ⟨hk, hb⟩ | ⟨hk, hi⟩ | ⟨hk, hs⟩ | hk
  · rw [hk]
    exact lay_booleanText ctx d hn hb
  · rw [hk]
    simp only [lay_assigned ctx d hn]
    rw [lay_flat ctx d (isWord_of_isInteger hi).flat]
    rfl
  · rw [hk]
    simp only [lay_assigned ctx d hn]
    rw [lay_quoted ctx d (isQuoted_of_isString hs)]
  · rw [hk]
    simp only
    split
    · rw [lay_assigned ctx d hn, lay_flat ctx d (by decide)]
      rfl
    · split
      · rw [lay_assigned ctx d hn, lay_delimited ctx d h.ends]
        rfl
      · next hlf =>
          have hlf' : Byte.lf ∉ t := by simpa using hlf
          have hone : ctx.lay d (openDelimiter ++ Byte.space :: t ++ Byte.space :: closeDelimiter) =
              openDelimiter ++ Byte.space :: t ++ Byte.space :: closeDelimiter := by
            refine lay_of_no_break ctx d ?_ ?_
            · have hopen : Byte.lf ∉ openDelimiter := by decide
              have hclose : Byte.lf ∉ Byte.space :: closeDelimiter := by decide
              have hspace : Byte.lf ≠ Byte.space := by decide
              simp only [List.mem_append, List.mem_cons (b := Byte.space) (l := t), not_or]
              exact ⟨⟨hopen, hspace, hlf'⟩, hclose⟩
            · rw [List.getLast?_append]
              exact (by decide : some Byte.closeBrace ≠ some Byte.cr)
          rw [lay_assigned ctx d hn, hone]
          simp [Value.write]

theorem lay_attributeText {S R : Bytes → Prop} (hctx : Supports ctx S R) {a : Attribute Location}
    (h : SoundAttribute S R a) :
    ctx.lay d (attributeText ctx a).text = a.name ++ (valueOf ctx d a).write := by
  have hn := PlainName.flat h.name
  unfold attributeText valueOf
  cases hk : a.kind with
  | boolean => exact lay_booleanText ctx d hn (h.boolean hk)
  | string =>
      simp only [lay_assigned ctx d hn]
      rw [lay_quoted ctx d (hctx.quoted _ (h.string hk))]
  | integer => exact lay_expressionText ctx d hn (hctx.presentable _ (h.expression (.inl hk)))
  | expression => exact lay_expressionText ctx d hn (hctx.presentable _ (h.expression (.inr hk)))

end Write

end MarkupFormat.Layout
