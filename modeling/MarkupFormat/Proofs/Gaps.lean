import MarkupFormat.Proofs.Holes

namespace MarkupFormat.Written

open Bytes Document

theorem cutAt_startsSolid_iff {s w r : Bytes} :
    cutAt startsSolid s = (w, r) ↔ s = w ++ r ∧ allBlank w = true ∧ startsSolid r = true := by
  constructor
  · intro h
    obtain ⟨rfl, hstop, hend⟩ := cutAt_eq_iff.1 h
    refine ⟨rfl, List.all_eq_true.2 fun c hc => ?_, ?_⟩
    · obtain ⟨x, y, rfl⟩ := List.append_of_mem hc
      simpa [startsSolid] using hstop x (c :: y) rfl (by simp)
    · rcases hend with rfl | hend
      · rfl
      · exact hend
  · rintro ⟨rfl, hw, hr⟩
    exact cutAt_startsSolid hw hr

section Blank

variable {r r' : Bytes} (hr : startsSolid r = false)
include hr

theorem startsWith_blank {p : Bytes} (hp : p.any isBlank = false) (z : Bytes) :
    startsWith p (z ++ r) = startsWith p z := by
  rw [Bool.eq_iff_iff]
  simp only [startsWith, List.isPrefixOf_iff_prefix]
  refine ⟨fun h => ?_, fun h => h.trans (List.prefix_append z r)⟩
  rcases List.prefix_or_prefix_of_prefix h (List.prefix_append z r) with h' | ⟨q, rfl⟩
  · exact h'
  · have hq : q <+: r := (List.prefix_append_right_inj z).1 h
    cases q with
    | nil => simp
    | cons c q =>
        obtain ⟨u, rfl⟩ := hq
        have hc : isBlank c = true := by simpa [startsSolid] using hr
        exact absurd hc (List.any_eq_false.1 hp c (by simp))

theorem endsName_blank (z : Bytes) : endsName (z ++ r) = endsName z := by
  cases z with
  | nil =>
      cases r with
      | nil => cases hr
      | cons c r =>
          have hc : isBlank c = true := by simpa [startsSolid] using hr
          simp [endsName, hc]
  | cons c z =>
      have hend := startsWith_blank hr (p := [Byte.slash, Byte.greater]) (by decide) (c :: z)
      rw [List.cons_append] at hend ⊢
      simp only [endsName, hend]

theorem endsTag_blank (z : Bytes) : endsTag (z ++ r) = endsTag z := by
  rw [endsTag, endsTag, startsWith_blank hr (by decide), startsWith_blank hr (by decide)]

theorem cutAt_endsName_blank (hr' : startsSolid r' = false) {a y : Bytes}
    (h : cutAt endsName (a ++ (y ++ r)) = (a, y ++ r)) :
    cutAt endsName (a ++ (y ++ r')) = (a, y ++ r') := by
  obtain ⟨-, hstop, hend⟩ := cutAt_eq_iff.1 h
  have hne : y ++ r ≠ [] := by
    intro hnil
    rw [(List.append_eq_nil_iff.1 hnil).2] at hr
    cases hr
  refine cutAt_eq_iff.2 ⟨rfl, ?_, .inr ?_⟩
  · intro x z hxz hz
    rw [← List.append_assoc, endsName_blank hr', ← endsName_blank hr, List.append_assoc]
    exact hstop x z hxz hz
  · rw [endsName_blank hr', ← endsName_blank hr]
    exact hend.resolve_left hne

theorem readValue_blank (hr' : startsSolid r' = false) {v : Value} {y : Bytes}
    (h : readValue (v.write ++ (y ++ r)) = .ok (v, y ++ r)) :
    readValue (v.write ++ (y ++ r')) = .ok (v, y ++ r') := by
  cases v with
  | absent =>
      rw [Value.write, List.nil_append] at h ⊢
      cases y with
      | nil =>
          cases r' with
          | nil => rfl
          | cons c r' =>
              have hc : c ≠ Byte.equals := by
                rintro rfl
                cases hr'
              rw [List.nil_append, readValue, if_neg hc]
      | cons c y =>
          simp only [List.cons_append, readValue] at h ⊢
          split at h
          · next hc =>
              obtain ⟨t, ht, -⟩ := readAssigned_ok h
              cases ht
          · next hc => rw [if_neg hc]
  | expression inner =>
      simp only [Value.write, List.cons_append, readValue_equals, List.append_assoc] at h ⊢
      rw [readAssigned_expression] at h ⊢
      obtain ⟨i, hi, hs⟩ := h
      cases hi
      refine ⟨inner, rfl, ?_⟩
      rw [← List.append_assoc] at hs ⊢
      exact scanCode_local _ hs
  | quoted body =>
      simp only [Value.write, List.cons_append, readValue_equals, List.append_assoc] at h ⊢
      rw [readAssigned_quoted] at h ⊢
      obtain ⟨b, hb, hs⟩ := h
      cases hb
      exact ⟨body, rfl, scanQuoted_local _ hs⟩
  | word t =>
      simp only [Value.write, List.cons_append, readValue_equals] at h ⊢
      rw [readAssigned_word] at h ⊢
      obtain ⟨hd, hq, hc⟩ := h
      rw [← List.append_assoc, startsWith_blank hr (by decide)] at hd hq
      refine ⟨?_, ?_, cutAt_endsName_blank hr hr' hc⟩
      · rw [← List.append_assoc, startsWith_blank hr' (by decide), hd]
      · rw [← List.append_assoc, startsWith_blank hr' (by decide), hq]

theorem readAttribute_blank (hr' : startsSolid r' = false) {a : WrittenAttribute} {y : Bytes}
    (h : readAttribute a.space (a.name ++ a.value.write ++ (y ++ r)) = .ok (a, y ++ r)) :
    readAttribute a.space (a.name ++ a.value.write ++ (y ++ r')) = .ok (a, y ++ r') := by
  obtain ⟨t, -, hc, hv⟩ := readAttribute_eq.1 h
  have ht : t = a.value.write ++ (y ++ r) := (readValue_ok hv).symm
  subst ht
  refine readAttribute_eq.2 ⟨a.value.write ++ (y ++ r'), rfl, ?_, readValue_blank hr hr' hv⟩
  rw [List.append_assoc a.name, ← List.append_assoc a.value.write] at hc ⊢
  exact cutAt_endsName_blank hr hr' hc

theorem readAttributes_blank (hr' : startsSolid r' = false) {a : WrittenAttribute}
    {as as' : List WrittenAttribute} {sp rest y : Bytes}
    (h : readAttributes (a.write ++ (y ++ r)) = .ok (a :: as, sp, rest))
    (hrest : readAttributes (y ++ r') = .ok (as', sp, rest)) :
    readAttributes (a.write ++ (y ++ r')) = .ok (a :: as', sp, rest) := by
  obtain ⟨t, u, hc, -, hend, ha, hu⟩ := readAttributes_iff.1 h
  obtain ⟨hs, hspace, hsolid⟩ := cutAt_startsSolid_iff.1 hc
  have hu' : u = y ++ r := by
    have hwrite := (readAttributes_ok h).1
    rw [← (readAttributes_ok hu).1]
    simpa using hwrite
  have ht : t = a.name ++ a.value.write ++ y ++ r := by
    simp only [WrittenAttribute.write, List.append_assoc, List.append_cancel_left_eq] at hs
    simp [hs]
  subst hu' ht
  -- the attribute starts before the blank, since it is solid where it starts
  have hne : a.name ++ a.value.write ++ y ≠ [] := by
    intro hnil
    rw [hnil, List.nil_append, hr] at hsolid
    cases hsolid
  rw [startsSolid_append hne] at hsolid
  rw [endsTag_blank hr] at hend
  rw [List.append_assoc (a.name ++ a.value.write)] at ha
  refine readAttributes_iff.2 ⟨a.name ++ a.value.write ++ y ++ r', y ++ r', ?_, ?_, ?_, ?_, hrest⟩
  · refine cutAt_startsSolid_iff.2 ⟨by simp [WrittenAttribute.write], hspace, ?_⟩
    rw [startsSolid_append hne, hsolid]
  · exact List.append_ne_nil_of_left_ne_nil hne r'
  · rw [endsTag_blank hr', hend]
  · rw [List.append_assoc (a.name ++ a.value.write)]
    exact readAttribute_blank hr hr' ha

end Blank

section Attributes

variable {as bs : List WrittenAttribute} {q : WrittenAttribute} {sp rest w : Bytes}

theorem blank_of_readAttributes : ∀ {s : Bytes}, readAttributes s = .ok (as, sp, rest) →
    ∀ a ∈ as, allBlank a.space = true := by
  induction as with
  | nil => simp
  | cons a as ih =>
      intro s h
      obtain ⟨t, r, hc, -, -, -, hr⟩ := readAttributes_iff.1 h
      exact List.forall_mem_cons.2 ⟨(cutAt_startsSolid_iff.1 hc).2.1, ih hr⟩

def fromGap (q : WrittenAttribute) (bs : List WrittenAttribute) (sp rest : Bytes) : Bytes :=
  q.write ++ (bs.flatMap WrittenAttribute.write ++ sp ++ rest)

theorem startsSolid_fromGap (hq : q.space ≠ []) (hb : allBlank q.space = true) :
    startsSolid (fromGap q bs sp rest) = false := by
  rw [fromGap, WrittenAttribute.write, List.append_assoc, List.append_assoc]
  exact startsSolid_blank hb hq

theorem readAttributes_respaced (hq : q.space ≠ []) (hw : w ≠ []) (hb : allBlank w = true)
    (h : readAttributes (as.flatMap WrittenAttribute.write ++ fromGap q bs sp rest) =
      .ok (as ++ q :: bs, sp, rest)) :
    readAttributes (as.flatMap WrittenAttribute.write ++ fromGap { q with space := w } bs sp rest) =
      .ok (as ++ { q with space := w } :: bs, sp, rest) := by
  have hblank := blank_of_readAttributes h
  induction as with
  | nil =>
      obtain ⟨t, r, hc, hne, hend, ha, hr⟩ := readAttributes_iff.1 h
      obtain ⟨hs, -, hsolid⟩ := cutAt_startsSolid_iff.1 hc
      have ht : fromGap { q with space := w } bs sp rest = w ++ t := by
        simp only [fromGap, WrittenAttribute.write, List.flatMap_nil, List.nil_append,
          List.append_assoc, List.append_cancel_left_eq] at hs ⊢
        exact hs
      refine readAttributes_iff.2 ⟨t, r, ?_, hne, hend, ?_, hr⟩
      · exact cutAt_startsSolid_iff.2 ⟨ht, hb, hsolid⟩
      · obtain ⟨v, -, hname, hv⟩ := readAttribute_eq.1 ha
        exact readAttribute_eq.2 ⟨v, rfl, hname, hv⟩
  | cons a as ih =>
      have hold : startsSolid (fromGap q bs sp rest) = false :=
        startsSolid_fromGap hq (hblank q (by simp))
      have hnew : startsSolid (fromGap { q with space := w } bs sp rest) = false :=
        startsSolid_fromGap hw hb
      rw [List.flatMap_cons, List.append_assoc] at h ⊢
      obtain ⟨t, r, -, -, -, -, hr⟩ := readAttributes_iff.1 h
      have hr' : r = as.flatMap WrittenAttribute.write ++ fromGap q bs sp rest := by
        rw [← (readAttributes_ok hr).1]
        simp [fromGap]
      rw [hr'] at hr
      exact readAttributes_blank hold hnew h (ih hr fun b hmem => hblank b (List.mem_cons_of_mem a hmem))

end Attributes

inductive OpenTag.Respaced : OpenTag → OpenTag → Prop
  | intro {name sp w : Bytes} {as bs : List WrittenAttribute} {q : WrittenAttribute} :
      q.space ≠ [] → w ≠ [] → allBlank w = true →
      Respaced ⟨name, as ++ q :: bs, sp⟩ ⟨name, as ++ { q with space := w } :: bs, sp⟩

def Item.withTag (tag : OpenTag) : Item → Item
  | .opened _ => .opened tag
  | .node (.selfClosed _) => .node (.selfClosed tag)
  | .node (.verbatim _ body) => .node (.verbatim tag body)
  | i => i

theorem Item.legal_of_readTag {i : Item} {s : Bytes} (hread : readTag s = .ok (i, []))
    (hcomment : startsWith commentStart (Byte.less :: s) = false)
    (hclosing : startsWith [Byte.less, Byte.slash] (Byte.less :: s) = false)
    (hi : ∀ t, i ≠ .node (.text t)) : i.Legal := by
  have hw : i.write = Byte.less :: s := by simpa using readTag_ok hread
  refine ⟨?_, ?_, hi⟩
  · rw [hw, readItem_tag hcomment, hread]
  · rw [hw, hclosing]

namespace OpenTag.Respaced

variable {tag tag' : OpenTag} (h : tag.Respaced tag')
include h

theorem name_eq : tag'.name = tag.name := by
  cases h
  rfl

theorem readHead {s t rest : Bytes} (hc : cutAt endsName s = (tag.name, t))
    (ha : readAttributes t = .ok (tag.attributes, tag.space, rest)) :
    ∃ s' t', cutAt endsName s' = (tag'.name, t') ∧
      readAttributes t' = .ok (tag'.attributes, tag'.space, rest) ∧
      ∀ p, p.any isBlank = false → ∀ z, startsWith p (z ++ s') = startsWith p (z ++ s) := by
  cases h with
  | @intro name sp w as bs q hq hw hb =>
      have hs := (cutAt_eq_iff.1 hc).1
      have ht : t = as.flatMap WrittenAttribute.write ++ fromGap q bs sp rest := by
        rw [← (readAttributes_ok ha).1]
        simp [fromGap]
      subst hs ht
      have hold : startsSolid (fromGap q bs sp rest) = false :=
        startsSolid_fromGap hq (blank_of_readAttributes ha q (by simp))
      have hnew : startsSolid (fromGap { q with space := w } bs sp rest) = false :=
        startsSolid_fromGap hw hb
      refine ⟨_, _, cutAt_endsName_blank hold hnew hc, readAttributes_respaced hq hw hb ha, ?_⟩
      intro p hp z
      simp only [← List.append_assoc]
      rw [startsWith_blank hnew hp, startsWith_blank hold hp]

theorem legal {i : Item} {s t rest : Bytes} (hc : cutAt endsName s = (tag.name, t))
    (ha : readAttributes t = .ok (tag.attributes, tag.space, rest))
    (hcomment : startsWith commentStart (Byte.less :: s) = false)
    (hclosing : startsWith [Byte.less, Byte.slash] (Byte.less :: s) = false)
    (hi : ∀ t, i ≠ .node (.text t))
    (hread : ∀ s t, cutAt endsName s = (tag'.name, t) →
      readAttributes t = .ok (tag'.attributes, tag'.space, rest) → readTag s = .ok (i, [])) :
    i.Legal := by
  obtain ⟨s', t', hc', ha', hlook⟩ := h.readHead hc ha
  refine Item.legal_of_readTag (hread s' t' hc' ha') ?_ ?_ hi
  · rw [← hcomment]
    exact hlook commentStart rfl [Byte.less]
  · rw [← hclosing]
    exact hlook [Byte.less, Byte.slash] rfl [Byte.less]

end OpenTag.Respaced

theorem Item.Legal.respaced {i : Item} {tag tag' : OpenTag} (h : i.Legal) (ht : i.tag? = some tag)
    (htag : tag.Respaced tag') : (i.withTag tag').Legal := by
  obtain ⟨s, hwrite, hcomment, hread⟩ := h.readTag ht
  have hclosing := h.opens
  rw [hwrite] at hcomment hclosing
  obtain ⟨tag₀, t, hne, hc, ⟨u, ha, hbody⟩ | ⟨rfl, ha⟩⟩ := readTag_iff.1 hread
  · rw [readBody_iff] at hbody
    split at hbody
    · next hhash =>
        obtain ⟨body, rfl, hcut⟩ := hbody
        cases ht
        refine htag.legal hc ha hcomment hclosing nofun fun s' t' hc' ha' => ?_
        refine readTag_iff.2 ⟨tag', t', by rwa [htag.name_eq], hc', .inl ⟨u, ha', ?_⟩⟩
        rw [readBody_iff, htag.name_eq, if_pos hhash]
        exact ⟨body, rfl, hcut⟩
    · next hhash =>
        obtain ⟨rfl, rfl⟩ := hbody
        cases ht
        refine htag.legal hc ha hcomment hclosing nofun fun s' t' hc' ha' => ?_
        refine readTag_iff.2 ⟨tag', t', by rwa [htag.name_eq], hc', .inl ⟨[], ha', ?_⟩⟩
        rw [readBody_iff, htag.name_eq, if_neg hhash]
        exact ⟨rfl, rfl⟩
  · cases ht
    refine htag.legal hc ha hcomment hclosing nofun fun s' t' hc' ha' => ?_
    exact readTag_iff.2 ⟨tag', t', by rwa [htag.name_eq], hc', .inr ⟨rfl, ha'⟩⟩

theorem Item.Legal.blank_space {i : Item} {tag : OpenTag} (h : i.Legal) (ht : i.tag? = some tag) :
    ∀ a ∈ tag.attributes, allBlank a.space = true := by
  obtain ⟨s, -, -, hread⟩ := h.readTag ht
  obtain ⟨t, r, -, -, ha⟩ := tag_of_readTag ht hread
  exact blank_of_readAttributes ha

theorem Node.Legal.blank_space {n : Node} {r : Bytes} {tag : OpenTag} (h : n.Legal r)
    (ht : n.tag? = some tag) : ∀ a ∈ tag.attributes, allBlank a.space = true := by
  cases n with
  | text t => cases ht
  | comment t => cases ht
  | interpolation inner => cases ht
  | selfClosed tag => exact Item.Legal.blank_space h ht
  | verbatim tag body => exact Item.Legal.blank_space h ht
  | element tag children => exact Item.Legal.blank_space h.1 ht

def Node.withTag (tag : OpenTag) : Node → Node
  | .selfClosed _ => .selfClosed tag
  | .verbatim _ body => .verbatim tag body
  | .element _ children => .element tag children
  | n => n

theorem ofWritten_respaced {tag tag' : OpenTag} (h : tag.Respaced tag') (selfClosing : Bool) :
    Tag.ofWritten tag' selfClosing = Tag.ofWritten tag selfClosing := by
  cases h
  simp only [Tag.ofWritten, List.map_append, List.map_cons]
  rfl

theorem interchangeable_respaced {n : Node} {tag tag' : OpenTag} (ht : n.tag? = some tag)
    (h : tag.Respaced tag') : Interchangeable n (n.withTag tag') := by
  have hname := h.name_eq
  cases n with
  | text t => cases ht
  | comment t => cases ht
  | interpolation inner => cases ht
  | selfClosed tag₀ =>
      cases ht
      exact ⟨fun _ hl => hl.respaced rfl h, fun _ => alike_of_less (.inr rfl) (.inr rfl), .rfl,
        by rw [piecesOf, Node.withTag, piecesOf, ofWritten_respaced h]⟩
  | verbatim tag₀ body =>
      cases ht
      refine ⟨fun _ hl => hl.respaced rfl h, fun _ => alike_of_less (.inr rfl) (.inr rfl), ?_, ?_⟩
      · rw [Node.withTag, Node.Covered, Node.Covered, hname]
      · rw [piecesOf, Node.withTag, piecesOf, ofWritten_respaced h, hname]
  | element tag₀ children =>
      cases ht
      refine ⟨?_, fun _ => alike_of_less (.inr rfl) (.inr rfl), ?_, ?_⟩
      · rintro after ⟨hl, hc⟩
        exact ⟨hl.respaced rfl h, by rwa [hname]⟩
      · rw [Node.withTag, Node.Covered, Node.Covered, hname]
      · rw [piecesOf, Node.withTag, piecesOf, ofWritten_respaced h, hname]

end MarkupFormat.Written
