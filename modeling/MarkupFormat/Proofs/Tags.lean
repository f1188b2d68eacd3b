import MarkupFormat.Proofs.Grammar
import MarkupFormat.Proofs.NormalForm

namespace MarkupFormat.Written

open Bytes Expression

def isPlain (c : UInt8) : Bool :=
  !(isBlank c || c = Byte.greater || c = Byte.equals || c = Byte.slash)

structure PlainName (t : Bytes) : Prop where
  ne_nil : t ≠ []
  plain : ∀ c ∈ t, isPlain c = true

theorem endsName_plain {c : UInt8} (h : isPlain c = true) (s : Bytes) : endsName (c :: s) = false := by
  simp only [isPlain, Bool.not_eq_true', Bool.or_eq_false_iff, decide_eq_false_iff_not] at h
  obtain ⟨⟨⟨hb, hg⟩, he⟩, hs⟩ := h
  simp [endsName, hb, hg, he, startsWith, List.isPrefixOf, eq_comm (a := Byte.slash), hs]

theorem cutAt_endsName {t r : Bytes} (ht : ∀ c ∈ t, isPlain c = true)
    (hr : r = [] ∨ endsName r = true) : cutAt endsName (t ++ r) = (t, r) := by
  refine cutAt_eq_iff.2 ⟨rfl, ?_, hr⟩
  rintro x y rfl hy
  cases y with
  | nil => exact absurd rfl hy
  | cons c y => exact endsName_plain (ht c (by simp)) _

def StartsGap (r : Bytes) : Prop :=
  startsSolid r = false ∨ endsTag r = true

theorem StartsGap.cases {r : Bytes} (h : StartsGap r) :
    endsName r = true ∧ r.head? ≠ some Byte.equals := by
  cases r with
  | nil => exact ⟨rfl, by simp⟩
  | cons c r =>
      rcases h with h | h
      · have hb : isBlank c = true := by simpa [startsSolid] using h
        refine ⟨by simp [endsName, hb], ?_⟩
        intro hc
        have hc' : c = Byte.equals := by simpa using hc
        rw [hc'] at hb
        cases hb
      · have hc : c ≠ Byte.equals := by
          rintro rfl
          cases h
        refine ⟨?_, by simpa using hc⟩
        simp only [endsTag, Bool.or_eq_true] at h
        rcases h with h | h
        · obtain ⟨u, hu⟩ := startsWith_iff.1 h
          cases hu
          rfl
        · simp [endsName, h]

theorem scanQuoted_iff {body r : Bytes} : ∀ {e : Bool},
    scanQuoted e (body ++ Byte.quote :: r) = .ok (body, r) ↔
      closesString (if e then .escaped else .quoted) (body ++ [Byte.quote]) = true := by
  have hqb : Byte.quote ≠ Byte.backslash := by decide
  induction body with
  | nil =>
      intro e
      cases e with
      | false => simp [scanQuoted, closesString, Mode.next, hqb]
      | true =>
          simp only [List.nil_append, scanQuoted, closesString, Mode.next]
          simp only [Bool.not_true, Bool.false_and, Bool.false_eq_true, if_false, if_true, reduceCtorEq]
          cases scanQuoted false r <;> simp
  | cons c body ih =>
      intro e
      simp only [List.cons_append, scanQuoted, closesString]
      have hnext : (if e then Mode.escaped else Mode.quoted).next c =
          if (!e && decide (c = Byte.quote)) = true then .code
          else if (!e && decide (c = Byte.backslash)) = true then .escaped else .quoted := by
        cases e with
        | true => rfl
        | false =>
            by_cases hq : c = Byte.quote
            · simp [Mode.next, hq, hqb]
            · by_cases hb : c = Byte.backslash <;> simp [Mode.next, hq, hb, Ne.symm hqb]
      by_cases hc : (!e && decide (c = Byte.quote)) = true
      · simp [hnext, hc]
      · rw [hnext, if_neg hc, if_neg hc, if_neg (by split <;> decide), ← ih]
        cases scanQuoted (!e && decide (c = Byte.backslash)) (body ++ Byte.quote :: r) with
        | error e => simp
        | ok p => simp [Prod.ext_iff]

inductive Value.Sound : Value → Prop
  | absent : Sound .absent
  | expression {inner : Bytes} : enclosed .start inner = true → Sound (.expression inner)
  | quoted {body : Bytes} : closesString .quoted (body ++ [Byte.quote]) = true → Sound (.quoted body)
  | word {t : Bytes} : (∀ c ∈ t, isPlain c = true ∧ c ≠ Byte.quote ∧ c ≠ Byte.openBrace) →
      t ≠ [] → Sound (.word t)

theorem Value.Sound.readValue {v : Value} (hv : v.Sound) {r : Bytes} (hr : StartsGap r) :
    readValue (v.write ++ r) = .ok (v, r) := by
  cases hv with
  | absent =>
      cases r with
      | nil => rfl
      | cons c r =>
          have hc : c ≠ Byte.equals := by simpa using hr.cases.2
          simp [Value.write, Written.readValue, hc]
  | expression h =>
      simp only [Value.write, List.cons_append, readValue_equals, List.append_assoc]
      rw [readAssigned_expression]
      refine ⟨_, rfl, ?_⟩
      rw [← List.append_assoc]
      exact scanCode_enclosed r h
  | quoted h =>
      simp only [Value.write, List.cons_append, readValue_equals, List.append_assoc]
      rw [readAssigned_quoted]
      exact ⟨_, rfl, scanQuoted_iff.2 h⟩
  | @word t h hne =>
      simp only [Value.write, List.cons_append, readValue_equals]
      rw [readAssigned_word]
      cases t with
      | nil => exact absurd rfl hne
      | cons c t =>
          obtain ⟨-, hq, hb⟩ := h c (by simp)
          refine ⟨?_, ?_, cutAt_endsName (fun d hd => (h d hd).1) (.inr hr.cases.1)⟩
          · simp [startsWith, openDelimiter, List.isPrefixOf, Ne.symm hb]
          · simp [startsWith, List.isPrefixOf, Ne.symm hq]

structure WrittenAttribute.Sound (a : WrittenAttribute) : Prop where
  spaced : a.space ≠ []
  blank : allBlank a.space = true
  name : PlainName a.name
  value : a.value.Sound

theorem cutAt_startsSolid {w r : Bytes} (hw : allBlank w = true) (hr : startsSolid r = true) :
    cutAt startsSolid (w ++ r) = (w, r) := by
  refine cutAt_eq_iff.2 ⟨rfl, ?_, .inr hr⟩
  rintro x y rfl hy
  rw [allBlank_append, Bool.and_eq_true] at hw
  cases y with
  | nil => exact absurd rfl hy
  | cons c y =>
      have := hw.2
      rw [allBlank_cons, Bool.and_eq_true] at this
      simp [startsSolid, this.1]

theorem startsSolid_blank {w r : Bytes} (hw : allBlank w = true) (hne : w ≠ []) :
    startsSolid (w ++ r) = false := by
  cases w with
  | nil => exact absurd rfl hne
  | cons c w =>
      rw [allBlank_cons, Bool.and_eq_true] at hw
      simp [startsSolid, hw.1]

theorem PlainName.starts {t : Bytes} (h : PlainName t) (r : Bytes) :
    startsSolid (t ++ r) = true ∧ endsTag (t ++ r) = false := by
  cases t with
  | nil => exact absurd rfl h.ne_nil
  | cons c t =>
      have hc := h.plain c (by simp)
      simp only [isPlain, Bool.not_eq_true', Bool.or_eq_false_iff, decide_eq_false_iff_not] at hc
      obtain ⟨⟨⟨hb, hg⟩, -⟩, hs⟩ := hc
      refine ⟨by simp [startsSolid, hb], ?_⟩
      simp [endsTag, startsWith, List.isPrefixOf, Ne.symm hg, Ne.symm hs]

theorem solid_of_endsTag {r : Bytes} (h : endsTag r = true) : startsSolid r = true ∧ r ≠ [] := by
  simp only [endsTag, Bool.or_eq_true] at h
  rcases h with h | h
  · obtain ⟨u, rfl⟩ := startsWith_iff.1 h
    exact ⟨rfl, by simp⟩
  · obtain ⟨u, rfl⟩ := startsWith_iff.1 h
    exact ⟨rfl, by simp⟩

theorem startsGap_attributes {as : List WrittenAttribute} {sp r : Bytes} (has : ∀ a ∈ as, a.Sound)
    (hsp : allBlank sp = true) (hr : endsTag r = true) :
    StartsGap (as.flatMap WrittenAttribute.write ++ sp ++ r) := by
  cases as with
  | nil =>
      by_cases h : sp = []
      · subst h
        exact .inr hr
      · exact .inl (startsSolid_blank hsp h)
  | cons a as =>
      have ha := has a (by simp)
      left
      have := startsSolid_blank (r := a.name ++ a.value.write ++ as.flatMap WrittenAttribute.write ++ sp ++ r)
        ha.blank ha.spaced
      simpa [WrittenAttribute.write] using this

theorem readAttributes_sound {as : List WrittenAttribute} {sp r : Bytes} (has : ∀ a ∈ as, a.Sound)
    (hsp : allBlank sp = true) (hr : endsTag r = true) :
    readAttributes (as.flatMap WrittenAttribute.write ++ sp ++ r) = .ok (as, sp, r) := by
  induction as with
  | nil =>
      refine readAttributes_iff.2 ⟨?_, hr⟩
      exact cutAt_startsSolid hsp (solid_of_endsTag hr).1
  | cons a as ih =>
      have ha := has a (by simp)
      have has' : ∀ b ∈ as, b.Sound := fun b hb => has b (by simp [hb])
      let rest := as.flatMap WrittenAttribute.write ++ sp ++ r
      have hgap : StartsGap rest := startsGap_attributes has' hsp hr
      have hname := ha.name.starts (a.value.write ++ rest)
      have hends : a.value.write ++ rest = [] ∨ endsName (a.value.write ++ rest) = true := by
        right
        cases hv : a.value with
        | absent => exact hgap.cases.1
        | expression inner => rfl
        | quoted body => rfl
        | word t => rfl
      refine readAttributes_iff.2
        ⟨a.name ++ (a.value.write ++ rest), rest, ?_, ?_, hname.2, ?_, ih has'⟩
      · have := cutAt_startsSolid (r := a.name ++ (a.value.write ++ rest)) ha.blank hname.1
        simpa [WrittenAttribute.write, rest] using this
      · simp [ha.name.ne_nil]
      · exact readAttribute_eq.2 ⟨_, rfl, cutAt_endsName ha.name.plain hends, ha.value.readValue hgap⟩

structure OpenTag.Sound (tag : OpenTag) : Prop where
  name : PlainName tag.name
  noComment : startsWith (ascii "!--") tag.name = false
  attributes : ∀ a ∈ tag.attributes, a.Sound
  space : allBlank tag.space = true

namespace OpenTag.Sound

variable {tag : OpenTag}

theorem readHead (h : tag.Sound) {r : Bytes} (hr : endsTag r = true) :
    ∃ t, cutAt endsName (tag.name ++ t) = (tag.name, t) ∧
      readAttributes t = .ok (tag.attributes, tag.space, r) ∧
      Byte.less :: tag.name ++ t = tag.write ++ r := by
  refine ⟨tag.attributes.flatMap WrittenAttribute.write ++ tag.space ++ r, ?_,
    readAttributes_sound h.attributes h.space hr, by simp [OpenTag.write]⟩
  exact cutAt_endsName h.name.plain (.inr (startsGap_attributes h.attributes h.space hr).cases.1)

theorem not_closing (h : tag.Sound) (r : Bytes) :
    startsWith [Byte.less, Byte.slash] (tag.write ++ r) = false := by
  cases hn : tag.name with
  | nil => exact absurd hn h.name.ne_nil
  | cons c t =>
      have hc : c ≠ Byte.slash := by
        rintro rfl
        have := h.name.plain Byte.slash (by simp [hn])
        cases this
      simp [OpenTag.write, hn, startsWith, List.isPrefixOf, Ne.symm hc]

theorem not_comment (h : tag.Sound) {r : Bytes} (hr : endsTag r = true) :
    startsWith commentStart (tag.write ++ r) = false := by
  rw [Bool.eq_false_iff]
  intro hc
  have hgap := startsGap_attributes h.attributes h.space hr
  generalize hg : tag.attributes.flatMap WrittenAttribute.write ++ tag.space ++ r = rest at hgap
  have hw : tag.write ++ r = Byte.less :: (tag.name ++ rest) := by
    rw [← hg]
    simp [OpenTag.write]
  have hsplit : commentStart = Byte.less :: ascii "!--" := rfl
  rw [hw, hsplit, startsWith, List.isPrefixOf_iff_prefix, List.cons_prefix_cons] at hc
  rcases List.prefix_or_prefix_of_prefix hc.2 (List.prefix_append tag.name rest) with hp | ⟨q, hq⟩
  · have := h.noComment
    rw [Bool.eq_false_iff, startsWith] at this
    exact this (List.isPrefixOf_iff_prefix.2 hp)
  · -- the rest would go on with a byte of the start of a comment
    have hqr : q <+: rest := by
      rw [← hq] at hc
      exact List.prefix_append_right_inj tag.name |>.1 hc.2
    cases q with
    | nil =>
        have := h.noComment
        rw [Bool.eq_false_iff, startsWith, ← hq, List.append_nil] at this
        exact this (List.isPrefixOf_iff_prefix.2 (List.prefix_refl _))
    | cons d q =>
        obtain ⟨u, rfl⟩ := hqr
        have hd : d ∈ ascii "!--" := by simp [← hq]
        have hascii : ascii "!--" = [33, 45, 45] := rfl
        have hd' : d = 33 ∨ d = 45 := by simpa [hascii] using hd
        rcases hgap with hgap | hgap <;> rcases hd' with rfl | rfl <;> cases hgap

theorem legal_of_readTag {i : Item} {t : Bytes} (h : tag.Sound) {r : Bytes}
    (hend : endsTag r = true) (hw : i.write = tag.write ++ r) (ht : i.write = Byte.less :: t) (hr : readTag t = .ok (i, []))
    (hi : ∀ t, i ≠ .node (.text t)) : i.Legal where
  read := by
    have := h.not_comment hend
    rw [← hw, ht] at this
    rw [ht, readItem_tag this, hr]
  opens := by
    rw [hw]
    exact h.not_closing r
  solid := hi

theorem legal_opened (h : tag.Sound) (hn : startsWith [Byte.hash] tag.name = false) :
    Item.Legal (.opened tag) := by
  obtain ⟨t, hc, ha, hw⟩ := h.readHead (r := [Byte.greater]) rfl
  refine h.legal_of_readTag (t := tag.name ++ t) rfl rfl (by rw [Item.write, ← hw]; rfl) ?_ (by simp)
  refine readTag_iff.2 ⟨tag, t, h.name.ne_nil, hc, .inl ⟨[], ha, ?_⟩⟩
  rw [readBody_iff, hn, if_neg (by decide)]
  exact ⟨rfl, rfl⟩

theorem legal_selfClosed (h : tag.Sound) : Item.Legal (.node (.selfClosed tag)) := by
  obtain ⟨t, hc, ha, hw⟩ := h.readHead (r := [Byte.slash, Byte.greater]) rfl
  refine h.legal_of_readTag (t := tag.name ++ t) (r := [Byte.slash, Byte.greater]) rfl rfl
    (by rw [Item.write, Node.write, ← hw]; rfl) ?_ (by simp)
  exact readTag_iff.2 ⟨tag, t, h.name.ne_nil, hc, .inr ⟨rfl, ha⟩⟩

theorem legal_verbatim (h : tag.Sound) (hn : startsWith [Byte.hash] tag.name = true) {body : Bytes}
    (hb : cutAt (startsWith (closingTag tag.name)) (body ++ closingTag tag.name) =
      (body, closingTag tag.name)) : Item.Legal (.node (.verbatim tag body)) := by
  obtain ⟨t, hc, ha, hw⟩ := h.readHead (r := Byte.greater :: body ++ closingTag tag.name) rfl
  refine h.legal_of_readTag (t := tag.name ++ t) (r := Byte.greater :: body ++ closingTag tag.name) rfl
    (by simp [Item.write, Node.write]) ?_ ?_ (by simp)
  · rw [← List.cons_append, hw]
    simp [Item.write, Node.write]
  · refine readTag_iff.2 ⟨tag, t, h.name.ne_nil, hc, .inl ⟨_, ha, ?_⟩⟩
    rw [readBody_iff, if_pos hn]
    exact ⟨body, rfl, by simpa using hb⟩

end OpenTag.Sound

def Item.tag? : Item → Option OpenTag
  | .opened tag => some tag
  | .node (.selfClosed tag) => some tag
  | .node (.verbatim tag _) => some tag
  | .node _ => none

theorem Item.Legal.readTag {i : Item} {tag : OpenTag} (h : i.Legal) (ht : i.tag? = some tag) :
    ∃ s, i.write = Byte.less :: s ∧ startsWith commentStart i.write = false ∧
      readTag s = .ok (i, []) := by
  rcases readItem_cases h.read with ⟨-, hc⟩ | ⟨t, hs, hn, hr⟩ | ⟨inner, hs, -⟩ | ⟨t, hs, -⟩
  · obtain ⟨t, rfl, -⟩ := readComment_iff.1 hc
    cases ht
  · exact ⟨t, hs, hn, hr⟩
  · subst hs
    cases ht
  · exact absurd hs (h.solid t)

theorem tag_of_readTag {i : Item} {tag : OpenTag} {s u : Bytes} (ht : i.tag? = some tag)
    (h : readTag s = .ok (i, u)) :
    ∃ t r, tag.name ≠ [] ∧ cutAt endsName s = (tag.name, t) ∧
      readAttributes t = .ok (tag.attributes, tag.space, r) := by
  obtain ⟨tag', t, hne, hc, ⟨v, ha, hb⟩ | ⟨rfl, ha⟩⟩ := readTag_iff.1 h
  · have htag : tag' = tag := by
      rw [readBody_iff] at hb
      split at hb
      · obtain ⟨body, rfl, -⟩ := hb
        simpa [Item.tag?] using ht
      · obtain ⟨rfl, -⟩ := hb
        simpa [Item.tag?] using ht
    subst htag
    exact ⟨t, _, hne, hc, ha⟩
  · have htag : tag' = tag := by simpa [Item.tag?] using ht
    subst htag
    exact ⟨t, _, hne, hc, ha⟩

theorem bytes_of_cutAt {s t r : Bytes} (h : cutAt endsName s = (t, r)) :
    ∀ c ∈ t, isBlank c = false ∧ decide (c = Byte.greater) = false ∧ decide (c = Byte.equals) = false := by
  intro c hc
  obtain ⟨x, y, rfl⟩ := List.append_of_mem hc
  have hno := (cutAt_eq_iff.1 h).2.1 x (c :: y) rfl (List.cons_ne_nil c y)
  simp only [List.cons_append, endsName, Bool.or_eq_false_iff] at hno
  exact ⟨hno.1.1.1, hno.1.1.2, hno.1.2⟩

theorem plainName_of_cutAt {s t r : Bytes} (hne : t ≠ []) (hs : Byte.slash ∉ t)
    (h : cutAt endsName s = (t, r)) : PlainName t where
  ne_nil := hne
  plain := by
    intro c hc
    obtain ⟨hblank, hgreater, hequals⟩ := bytes_of_cutAt h c hc
    have hslash : c ≠ Byte.slash := fun he => hs (he ▸ hc)
    simp only [isPlain, hblank, hgreater, hequals, hslash]
    decide

theorem attribute_of_readAttributes {as : List WrittenAttribute} {sp rest : Bytes} : ∀ {s : Bytes},
    readAttributes s = .ok (as, sp, rest) →
    ∀ a ∈ as, ∃ t r, readAttribute a.space t = .ok (a, r) := by
  induction as with
  | nil => simp
  | cons a as ih =>
      intro s h b hb
      obtain ⟨t, r, -, -, -, ha, hr⟩ := readAttributes_iff.1 h
      rcases List.mem_cons.1 hb with rfl | hb
      · exact ⟨t, r, ha⟩
      · exact ih hr b hb

theorem closesString_of_readValue {body s r : Bytes} (h : readValue s = .ok (.quoted body, r)) :
    closesString .quoted (body ++ [Byte.quote]) = true := by
  have hs : s = Byte.equals :: Byte.quote :: (body ++ Byte.quote :: r) := by
    rw [← readValue_ok h]
    simp [Value.write]
  rw [hs, readValue_equals, readAssigned_quoted] at h
  obtain ⟨b, hb, hq⟩ := h
  cases hb
  exact scanQuoted_iff.1 hq

section Legal

variable {i : Item} {tag : OpenTag} (h : i.Legal) (ht : i.tag? = some tag)
include h ht

theorem Item.Legal.solid_name : ∀ c ∈ tag.name, isBlank c = false := by
  obtain ⟨s, -, -, hr⟩ := h.readTag ht
  obtain ⟨t, r, -, hc, -⟩ := tag_of_readTag ht hr
  exact fun c hmem => (bytes_of_cutAt hc c hmem).1

theorem Item.Legal.solid_names : ∀ a ∈ tag.attributes, ∀ c ∈ a.name, isBlank c = false := by
  intro a ha
  obtain ⟨s, -, -, hr⟩ := h.readTag ht
  obtain ⟨t, r, -, -, has⟩ := tag_of_readTag ht hr
  obtain ⟨t', r', hread⟩ := attribute_of_readAttributes has a ha
  obtain ⟨t'', -, hc, -⟩ := readAttribute_eq.1 hread
  exact fun c hmem => (bytes_of_cutAt hc c hmem).1

theorem Item.Legal.plainName (hs : Byte.slash ∉ tag.name) : PlainName tag.name := by
  obtain ⟨s, -, -, hr⟩ := h.readTag ht
  obtain ⟨t, r, hne, hc, -⟩ := tag_of_readTag ht hr
  exact plainName_of_cutAt hne hs hc

theorem Item.Legal.noComment : startsWith (ascii "!--") tag.name = false := by
  obtain ⟨s, hw, hn, hr⟩ := h.readTag ht
  obtain ⟨t, r, -, hc, -⟩ := tag_of_readTag ht hr
  rw [Bool.eq_false_iff]
  intro hp
  obtain ⟨u, hu⟩ := startsWith_iff.1 hp
  have hcomment : startsWith commentStart i.write = true := by
    rw [hw, (cutAt_eq_iff.1 hc).1, hu]
    exact startsWith_iff.2 ⟨u ++ t, rfl⟩
  rw [hn] at hcomment
  cases hcomment

theorem Item.Legal.attribute {a : WrittenAttribute} (ha : a ∈ tag.attributes) (hne : a.name ≠ [])
    (hs : Byte.slash ∉ a.name) :
    PlainName a.name ∧
      ∀ body, a.value = .quoted body → closesString .quoted (body ++ [Byte.quote]) = true := by
  obtain ⟨s, -, -, hr⟩ := h.readTag ht
  obtain ⟨t, r, -, -, has⟩ := tag_of_readTag ht hr
  obtain ⟨t', r', hread⟩ := attribute_of_readAttributes has a ha
  obtain ⟨t'', -, hc, hv⟩ := readAttribute_eq.1 hread
  refine ⟨plainName_of_cutAt hne hs hc, ?_⟩
  intro body hb
  rw [hb] at hv
  exact closesString_of_readValue hv

end Legal

theorem Item.Legal.verbatim {tag : OpenTag} {body : Bytes}
    (h : Item.Legal (.node (.verbatim tag body))) :
    startsWith [Byte.hash] tag.name = true ∧
      cutAt (startsWith (closingTag tag.name)) (body ++ closingTag tag.name) =
        (body, closingTag tag.name) := by
  obtain ⟨s, -, -, hr⟩ := h.readTag rfl
  obtain ⟨tag', t, -, -, ⟨v, -, hb⟩ | ⟨hu, -⟩⟩ := readTag_iff.1 hr
  · rw [readBody_iff] at hb
    split at hb
    · next hhash =>
        obtain ⟨body', hu, hcut⟩ := hb
        cases hu
        refine ⟨hhash, ?_⟩
        rw [List.append_nil] at hcut
        have hv := (cutAt_eq_iff.1 hcut).1
        rwa [hv] at hcut
    · cases hb.1
  · cases hu

theorem Item.Legal.opened {tag : OpenTag} (h : Item.Legal (.opened tag)) :
    startsWith [Byte.hash] tag.name = false := by
  obtain ⟨s, -, -, hr⟩ := h.readTag rfl
  obtain ⟨tag', t, -, -, ⟨v, -, hb⟩ | ⟨hu, -⟩⟩ := readTag_iff.1 hr
  · rw [readBody_iff] at hb
    split at hb
    · obtain ⟨body, hu, -⟩ := hb
      cases hu
    · next hhash =>
        cases hb.1
        simpa using hhash
  · cases hu

end MarkupFormat.Written
