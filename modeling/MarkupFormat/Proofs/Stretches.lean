import MarkupFormat.Proofs.Bodies
import MarkupFormat.Proofs.TextLines

namespace MarkupFormat.Document

open Bytes

def spaceMark (space blank : Prop) [Decidable space] [Decidable blank] : List Piece :=
  if space then [.space (decide blank)] else []

theorem spaceMark_congr {space blank space' blank' : Prop} [Decidable space] [Decidable blank]
    [Decidable space'] [Decidable blank'] (hs : space ↔ space') (hb : blank ↔ blank') :
    spaceMark space blank = spaceMark space' blank' := by
  simp only [spaceMark, hs, hb]

theorem spaceMark_of_not {space blank : Prop} [Decidable space] [Decidable blank] (h : ¬space) :
    spaceMark space blank = [] :=
  if_neg h

def boundaries (start stop : Nat) : List PlacedNode → List Span
  | [] => [⟨start, stop⟩]
  | n :: ns => ⟨start, n.place.start⟩ :: boundaries n.place.stop stop ns

def Ordered (start stop : Nat) : List PlacedNode → Prop
  | [] => start ≤ stop
  | n :: ns => start ≤ n.place.start ∧ n.place.start ≤ n.place.stop ∧ Ordered n.place.stop stop ns

theorem weave_congr {mark mark' : Span → List Piece} {stop : Nat} (ns : List PlacedNode) : ∀ {start},
    (∀ b ∈ boundaries start stop ns, mark b = mark' b) →
    weave mark start stop ns = weave mark' start stop ns := by
  induction ns with
  | nil => exact fun h => h _ (List.mem_singleton.2 rfl)
  | cons n ns ih =>
      intro start h
      rw [boundaries, List.forall_mem_cons] at h
      rw [weave, weave, h.1, ih h.2]

namespace Ordered

variable {start stop : Nat} {ns : List PlacedNode}

theorem mono {start' : Nat} (h : Ordered start stop ns) (hle : start' ≤ start) :
    Ordered start' stop ns := by
  cases ns with
  | nil => exact Nat.le_trans hle h
  | cons n ns => exact ⟨Nat.le_trans hle h.1, h.2⟩

theorem start_le_stop (h : Ordered start stop ns) : start ≤ stop := by
  induction ns generalizing start with
  | nil => exact h
  | cons n ns ih => exact Nat.le_trans h.1 (Nat.le_trans h.2.1 (ih h.2.2))

theorem le_place (h : Ordered start stop ns) {n : PlacedNode} (hn : n ∈ ns) :
    start ≤ n.place.start := by
  induction ns generalizing start with
  | nil => cases hn
  | cons m ms ih =>
      rcases List.mem_cons.1 hn with rfl | hn
      · exact h.1
      · exact Nat.le_trans h.1 (Nat.le_trans h.2.1 (ih h.2.2 hn))

theorem boundary (h : Ordered start stop ns) {b : Span} (hb : b ∈ boundaries start stop ns) :
    start ≤ b.start ∧ b.stop ≤ stop ∧ ∀ n ∈ ns, ∀ o ∈ b, o ∉ n.place := by
  induction ns generalizing start with
  | nil =>
      rw [boundaries, List.mem_singleton] at hb
      rw [hb]
      exact ⟨Nat.le_refl _, Nat.le_refl _, by simp⟩
  | cons m ms ih =>
      obtain ⟨h1, h2, h3⟩ := h
      have hle := h3.start_le_stop
      rw [boundaries, List.mem_cons] at hb
      rcases hb with rfl | hb
      · refine ⟨Nat.le_refl _, by simp only; omega, fun n hn o ho hin => ?_⟩
        simp only [Span.mem_iff] at ho hin
        rcases List.mem_cons.1 hn with rfl | hn
        · omega
        · have := h3.le_place hn
          omega
      · obtain ⟨hb1, hb2, hb3⟩ := ih h3 hb
        refine ⟨by omega, hb2, fun n hn o ho => ?_⟩
        rcases List.mem_cons.1 hn with rfl | hn
        · simp only [Span.mem_iff] at ho ⊢
          omega
        · exact hb3 n hn o ho

end Ordered

inductive Stretch where
  | gap (span : Span)
  | comment (span : Span)
  | content (n : PlacedNode)

namespace Stretch

def span : Stretch → Span
  | .gap span => span
  | .comment span => span
  | .content n => n.place

def pieces (src : Source) : Stretch → List Piece
  | .gap span => gapPieces src span
  | .comment _ => []
  | .content n => [.content n.node]

def content? : Stretch → Option PlacedNode
  | .gap _ => none
  | .comment _ => none
  | .content n => some n

end Stretch

def Tiled (start stop : Nat) : List Stretch → Prop
  | [] => start = stop
  | s :: ss => s.span.start = start ∧ start ≤ s.span.stop ∧ Tiled s.span.stop stop ss

namespace Tiled

variable {start stop : Nat} {ss : List Stretch}

theorem le (h : Tiled start stop ss) : start ≤ stop := by
  induction ss generalizing start with
  | nil => exact Nat.le_of_eq h
  | cons s ss ih => exact Nat.le_trans h.2.1 (ih h.2.2)

theorem le_span (h : Tiled start stop ss) {s : Stretch} (hs : s ∈ ss) :
    start ≤ s.span.start ∧ s.span.stop ≤ stop := by
  induction ss generalizing start with
  | nil => cases hs
  | cons t ss ih =>
      rcases List.mem_cons.1 hs with rfl | hs
      · exact ⟨Nat.le_of_eq h.1.symm, h.2.2.le⟩
      · exact ⟨Nat.le_trans h.2.1 (ih h.2.2 hs).1, (ih h.2.2 hs).2⟩

theorem append {mid : Nat} {ts : List Stretch} (h : Tiled start mid ss) (ht : Tiled mid stop ts) :
    Tiled start stop (ss ++ ts) := by
  induction ss generalizing start with
  | nil => exact h ▸ ht
  | cons s ss ih => exact ⟨h.1, h.2.1, ih h.2.2⟩

theorem exists_mem (h : Tiled start stop ss) {o : Nat} (ho : o ∈ Span.mk start stop) :
    ∃ s ∈ ss, o ∈ s.span := by
  induction ss generalizing start with
  | nil =>
      rw [Tiled] at h
      rw [Span.mem_mk] at ho
      omega
  | cons s ss ih =>
      obtain ⟨h1, h2, h3⟩ := h
      by_cases hlt : o < s.span.stop
      · exact ⟨s, List.mem_cons_self, by rw [Span.mem_iff, h1]; exact ⟨ho.1, hlt⟩⟩
      · obtain ⟨t, ht, hot⟩ := ih h3 ⟨Nat.le_of_not_lt hlt, ho.2⟩
        exact ⟨t, List.mem_cons_of_mem _ ht, hot⟩

theorem unique (h : Tiled start stop ss) {s t : Stretch} (hs : s ∈ ss) (ht : t ∈ ss) {o : Nat}
    (hos : o ∈ s.span) (hot : o ∈ t.span) : s = t := by
  induction ss generalizing start with
  | nil => cases hs
  | cons r ss ih =>
      obtain ⟨-, -, h3⟩ := h
      rw [Span.mem_iff] at hos hot
      rcases List.mem_cons.1 hs with rfl | hs'
      · rcases List.mem_cons.1 ht with rfl | ht'
        · rfl
        · have := (h3.le_span ht').1
          omega
      · rcases List.mem_cons.1 ht with rfl | ht'
        · have := (h3.le_span hs').1
          omega
        · exact ih h3 hs' ht'

theorem ordered (h : Tiled start stop ss) : Ordered start stop (ss.filterMap Stretch.content?) := by
  induction ss generalizing start with
  | nil => exact Nat.le_of_eq h
  | cons s ss ih =>
      obtain ⟨h1, h2, h3⟩ := h
      have ih := ih h3
      cases s with
      | gap g => exact ih.mono h2
      | comment c => exact ih.mono h2
      | content n => exact ⟨Nat.le_of_eq h1.symm, h1 ▸ h2, ih⟩

end Tiled

def InGap (ss : List Stretch) (o : Nat) : Prop :=
  ∃ g, Stretch.gap g ∈ ss ∧ o ∈ g

def LinesInGap (src : Source) (ss : List Stretch) (o₁ o₂ : Nat) : Prop :=
  o₁ < o₂ ∧ src.content[o₁]? = some Byte.lf ∧ src.content[o₂]? = some Byte.lf ∧
    ∃ g, Stretch.gap g ∈ ss ∧ o₁ ∈ g ∧ o₂ ∈ g

open Classical in
noncomputable def gapMark (src : Source) (ss : List Stretch) (b : Span) : List Piece :=
  spaceMark (∃ o ∈ b, InGap ss o) (∃ o₁ ∈ b, ∃ o₂ ∈ b, LinesInGap src ss o₁ o₂)

theorem gapMark_congr {src : Source} {ss ss' : List Stretch} {b b' : Span}
    (hs : (∃ o ∈ b, InGap ss o) ↔ ∃ o ∈ b', InGap ss' o)
    (hl : (∃ o₁ ∈ b, ∃ o₂ ∈ b, LinesInGap src ss o₁ o₂) ↔
      ∃ o₁ ∈ b', ∃ o₂ ∈ b', LinesInGap src ss' o₁ o₂) :
    gapMark src ss b = gapMark src ss' b' := by
  classical
  exact spaceMark_congr hs hl

theorem gapMark_of_not {src : Source} {ss : List Stretch} {b : Span} (h : ¬∃ o ∈ b, InGap ss o) :
    gapMark src ss b = [] := by
  classical
  exact spaceMark_of_not h

def firstStart (stop : Nat) : List PlacedNode → Nat
  | [] => stop
  | n :: _ => n.place.start

def weaveRest (mark : Span → List Piece) (stop : Nat) : List PlacedNode → List Piece
  | [] => []
  | n :: ns => .content n.node :: weave mark n.place.stop stop ns

theorem weave_eq (mark : Span → List Piece) (start stop : Nat) (ns : List PlacedNode) :
    weave mark start stop ns = mark ⟨start, firstStart stop ns⟩ ++ weaveRest mark stop ns := by
  cases ns <;> simp [weave, firstStart, weaveRest]

theorem weaveRest_congr {mark mark' : Span → List Piece} {start stop : Nat} {ns : List PlacedNode}
    (ho : Ordered start stop ns) (h : ∀ b, start ≤ b.start → mark b = mark' b) :
    weaveRest mark stop ns = weaveRest mark' stop ns := by
  cases ns with
  | nil => rfl
  | cons n ns =>
      obtain ⟨h1, h2, h3⟩ := ho
      rw [weaveRest, weaveRest, weave_congr ns fun b hb => h b (by have := (h3.boundary hb).1; omega)]

theorem Ordered.le_firstStart {start stop : Nat} {ns : List PlacedNode} (h : Ordered start stop ns) :
    start ≤ firstStart stop ns := by
  cases ns with
  | nil => exact h
  | cons n ns => exact h.1

theorem weaveRest_head (mark : Span → List Piece) (stop : Nat) (ns : List PlacedNode) (b : Bool) :
    consPiece (.space b) (weaveRest mark stop ns) = .space b :: weaveRest mark stop ns := by
  cases ns <;> rfl

section Join

variable {src : Source} {stop : Nat} {ss : List Stretch}

theorem Tiled.le_of_inGap {mid o : Nat} (h : Tiled mid stop ss) (ho : InGap ss o) : mid ≤ o := by
  obtain ⟨g, hg, hog⟩ := ho
  exact Nat.le_trans (h.le_span hg).1 hog.1

theorem LinesInGap.inGap {o₁ o₂ : Nat} (h : LinesInGap src ss o₁ o₂) : InGap ss o₁ ∧ InGap ss o₂ := by
  obtain ⟨-, -, -, g, hg, h1, h2⟩ := h
  exact ⟨⟨g, hg, h1⟩, ⟨g, hg, h2⟩⟩

theorem inGap_cons_gap {g : Span} {o : Nat} : InGap (.gap g :: ss) o ↔ o ∈ g ∨ InGap ss o := by
  simp [InGap, or_and_right, exists_or]

theorem linesInGap_cons_gap {g : Span} {o₁ o₂ : Nat} :
    LinesInGap src (.gap g :: ss) o₁ o₂ ↔
      (o₁ ∈ g ∧ o₂ ∈ g ∧ o₁ < o₂ ∧ src.content[o₁]? = some Byte.lf ∧ src.content[o₂]? = some Byte.lf) ∨
        LinesInGap src ss o₁ o₂ := by
  simp only [LinesInGap, List.mem_cons, Stretch.gap.injEq, or_and_right, exists_or, exists_eq_left]
  constructor
  · rintro ⟨h1, h2, h3, h | h⟩
    · exact .inl ⟨h.1, h.2, h1, h2, h3⟩
    · exact .inr ⟨h1, h2, h3, h⟩
  · rintro (⟨h4, h5, h1, h2, h3⟩ | ⟨h1, h2, h3, h⟩)
    · exact ⟨h1, h2, h3, .inl ⟨h4, h5⟩⟩
    · exact ⟨h1, h2, h3, .inr h⟩

theorem gapMark_cons {s : Stretch} (hs : ∀ g, s ≠ .gap g) (b : Span) :
    gapMark src (s :: ss) b = gapMark src ss b := by
  have hgap : ∀ g, Stretch.gap g ∈ s :: ss ↔ Stretch.gap g ∈ ss := fun g => by
    rw [List.mem_cons]
    exact or_iff_right fun h => hs g h.symm
  refine gapMark_congr ?_ ?_ <;> simp only [InGap, LinesInGap, hgap]

theorem gapMark_cons_gap {g b : Span} (h : g.stop ≤ b.start) :
    gapMark src (.gap g :: ss) b = gapMark src ss b := by
  have hnot : ∀ o ∈ b, o ∉ g := fun o ho hg => by
    simp only [Span.mem_iff] at ho hg
    omega
  refine gapMark_congr (exists_congr fun o => and_congr_right fun ho => ?_)
    (exists_congr fun o₁ => and_congr_right fun h₁ => exists_congr fun o₂ => and_congr_right fun _ => ?_)
  · rw [inGap_cons_gap]
    exact or_iff_right (hnot o ho)
  · rw [linesInGap_cons_gap]
    exact or_iff_right fun h => hnot o₁ h₁ h.1

theorem gapMark_mono {start mid x : Nat} (h : Tiled mid stop ss) (hle : start ≤ mid) :
    gapMark src ss ⟨start, x⟩ = gapMark src ss ⟨mid, x⟩ := by
  have hmem : ∀ o, InGap ss o → (o ∈ Span.mk start x ↔ o ∈ Span.mk mid x) := fun o ho => by
    have := h.le_of_inGap ho
    simp only [Span.mem_mk]
    omega
  refine gapMark_congr (exists_congr fun o => and_congr_left (hmem o)) (exists_congr fun o₁ => ?_)
  constructor
  · rintro ⟨h1, o₂, h2, hl⟩
    exact ⟨(hmem o₁ hl.inGap.1).1 h1, o₂, (hmem o₂ hl.inGap.2).1 h2, hl⟩
  · rintro ⟨h1, o₂, h2, hl⟩
    exact ⟨(hmem o₁ hl.inGap.1).2 h1, o₂, (hmem o₂ hl.inGap.2).2 h2, hl⟩

theorem consPiece_gapMark {g : Span} {x : Nat} (h : Tiled g.stop stop ss) (hle : g.start < g.stop)
    (hx : g.stop ≤ x) {ps : List Piece} (hps : ∀ b, consPiece (.space b) ps = .space b :: ps) :
    consPiece (.space (hasBlankLine (src.slice g.start g.stop))) (gapMark src ss ⟨g.stop, x⟩ ++ ps) =
      gapMark src (.gap g :: ss) ⟨g.start, x⟩ ++ ps := by
  classical
  have hg : ∀ o ∈ g, o ∈ Span.mk g.start x := fun o ho => by
    simp only [Span.mem_iff] at ho ⊢
    omega
  have hspace : ∃ o ∈ Span.mk g.start x, InGap (.gap g :: ss) o :=
    ⟨g.start, ⟨Nat.le_refl _, Nat.lt_of_lt_of_le hle hx⟩, inGap_cons_gap.2 (.inl ⟨Nat.le_refl _, hle⟩)⟩
  have hlines : (∃ o₁ ∈ Span.mk g.start x, ∃ o₂ ∈ Span.mk g.start x,
      LinesInGap src (.gap g :: ss) o₁ o₂) ↔
        hasBlankLine (src.slice g.start g.stop) = true ∨
          ∃ o₁ ∈ Span.mk g.start x, ∃ o₂ ∈ Span.mk g.start x, LinesInGap src ss o₁ o₂ := by
    rw [Source.hasBlankLine_slice]
    simp only [linesInGap_cons_gap, and_or_left, exists_or]
    refine or_congr_left ⟨?_, ?_⟩
    · rintro ⟨o₁, -, o₂, -, h1, h2, hl⟩
      exact ⟨o₁, h1, o₂, h2, hl⟩
    · rintro ⟨o₁, h1, o₂, h2, hl⟩
      exact ⟨o₁, hg o₁ h1, o₂, hg o₂ h2, h1, h2, hl⟩
  have hmono : gapMark src ss ⟨g.start, x⟩ = gapMark src ss ⟨g.stop, x⟩ :=
    gapMark_mono h (Nat.le_of_lt hle)
  rw [← hmono, gapMark, spaceMark, gapMark, spaceMark, if_pos hspace]
  split
  · simp only [List.cons_append, List.nil_append, consPiece, decide_eq_decide.2 hlines,
      Bool.decide_or, Bool.decide_eq_true]
  · next hnone =>
      have hno : ¬∃ o₁ ∈ Span.mk g.start x, ∃ o₂ ∈ Span.mk g.start x, LinesInGap src ss o₁ o₂ := by
        rintro ⟨o₁, h1, o₂, -, hl⟩
        exact hnone ⟨o₁, h1, hl.inGap.1⟩
      simp only [List.nil_append, List.cons_append, hps, decide_eq_decide.2 (hlines.trans (or_iff_left hno)),
        Bool.decide_eq_true]

theorem joinSpaces_stretches (hsrc : stop ≤ src.length) : ∀ {start}, Tiled start stop ss →
    joinSpaces (ss.flatMap (Stretch.pieces src)) =
      weave (gapMark src ss) start stop (ss.filterMap Stretch.content?) := by
  induction ss with
  | nil =>
      intro start _
      exact (gapMark_of_not (by simp [InGap])).symm
  | cons s ss ih =>
      intro start h
      obtain ⟨h1, h2, h3⟩ := h
      have ih := ih h3
      have hord := h3.ordered
      -- the first stretch has a part in the first boundary at most, so all pieces after it stay
      cases s with
      | comment c =>
          have hmark : gapMark src (.comment c :: ss) = gapMark src ss :=
            funext fun b => gapMark_cons (by simp) b
          rw [List.filterMap_cons_none rfl, hmark, weave_eq, gapMark_mono h3 h2, ← weave_eq]
          exact ih
      | content n =>
          have hmark : gapMark src (.content n :: ss) = gapMark src ss :=
            funext fun b => gapMark_cons (by simp) b
          have hempty : gapMark src ss ⟨start, n.place.start⟩ = [] :=
            gapMark_of_not fun ⟨o, ho, _⟩ => by
              have : n.place.start = start := h1
              rw [Span.mem_mk] at ho
              omega
          have hcontent : (Stretch.content n :: ss).filterMap Stretch.content? =
              n :: ss.filterMap Stretch.content? := rfl
          rw [hcontent, hmark, weave, hempty]
          exact congrArg (Piece.content n.node :: ·) ih
      | gap g =>
          have hg : g.start = start := h1
          subst hg
          change Tiled g.stop stop ss at h3
          change Ordered g.stop stop _ at hord
          change _ = weave _ g.stop stop _ at ih
          have hrest : weaveRest (gapMark src (.gap g :: ss)) stop (ss.filterMap Stretch.content?) =
              weaveRest (gapMark src ss) stop (ss.filterMap Stretch.content?) :=
            weaveRest_congr hord fun b hb => gapMark_cons_gap hb
          have hlen : g.stop ≤ src.length := Nat.le_trans h3.le hsrc
          rw [List.filterMap_cons_none rfl, weave_eq, hrest]
          rw [weave_eq] at ih
          rcases Nat.lt_or_ge g.start g.stop with hlt | hge
          · have hpieces : Stretch.pieces src (.gap g) =
                [.space (hasBlankLine (src.slice g.start g.stop))] :=
              if_neg fun h => Nat.not_le_of_lt hlt ((Source.slice_eq_nil hlen).1 h)
            rw [List.flatMap_cons, hpieces,
              ← consPiece_gapMark h3 hlt hord.le_firstStart (weaveRest_head _ _ _)]
            exact congrArg (consPiece _) ih
          · have hpieces : Stretch.pieces src (.gap g) = [] :=
              if_pos ((Source.slice_eq_nil hlen).2 hge)
            have hfirst : ∀ x, gapMark src (.gap g :: ss) ⟨g.start, x⟩ = gapMark src ss ⟨g.stop, x⟩ :=
              fun x => (gapMark_cons_gap (by exact hge)).trans (gapMark_mono h3 h2)
            rw [List.flatMap_cons, hpieces, hfirst]
            exact ih

end Join

end MarkupFormat.Document
