import MarkupFormat.Document.OfRaw
import MarkupFormat.Proofs.Fitting
import MarkupFormat.Proofs.Stretches

namespace MarkupFormat

instance (span : Span) (o : Nat) : Decidable (o ∈ span) :=
  inferInstanceAs (Decidable (span.start ≤ o ∧ o < span.stop))

namespace Raw

open Bytes

def Node.Comments (o : Nat) : Node → Prop
  | .comment span => o ∈ span
  | .text _ => False
  | .interpolation _ _ => False
  | .element _ _ _ => False

instance (o : Nat) : (n : Node) → Decidable (n.Comments o)
  | .comment span => inferInstanceAs (Decidable (o ∈ span))
  | .text _ => .isFalse id
  | .interpolation _ _ => .isFalse id
  | .element _ _ _ => .isFalse id

def OutsideComments (ns : List Node) (o : Nat) : Prop :=
  ∀ n ∈ ns, ¬n.Comments o

instance (ns : List Node) (o : Nat) : Decidable (OutsideComments ns o) :=
  inferInstanceAs (Decidable (∀ n ∈ ns, ¬n.Comments o))

def HasSpace (ns : List Node) (b : Span) : Prop :=
  ∃ o ∈ b, OutsideComments ns o

instance (ns : List Node) (b : Span) : Decidable (HasSpace ns b) :=
  decidable_of_iff (∃ o, o < b.stop ∧ o ∈ b ∧ OutsideComments ns o)
    ⟨fun ⟨o, _, h⟩ => ⟨o, h⟩, fun ⟨o, h⟩ => ⟨o, h.1.2, h⟩⟩

structure LinesApart (src : Source) (ns : List Node) (o₁ o₂ : Nat) : Prop where
  lt : o₁ < o₂
  first : src.content[o₁]? = some Byte.lf
  last : src.content[o₂]? = some Byte.lf
  blank : allBlank (src.slice o₁ o₂) = true
  outside : ∀ o, o < o₂ + 1 → o₁ ≤ o → OutsideComments ns o

instance (src : Source) (ns : List Node) (o₁ o₂ : Nat) : Decidable (LinesApart src ns o₁ o₂) :=
  decidable_of_iff (o₁ < o₂ ∧ src.content[o₁]? = some Byte.lf ∧ src.content[o₂]? = some Byte.lf ∧
      allBlank (src.slice o₁ o₂) = true ∧ ∀ o, o < o₂ + 1 → o₁ ≤ o → OutsideComments ns o)
    ⟨fun ⟨h1, h2, h3, h4, h5⟩ => ⟨h1, h2, h3, h4, h5⟩,
      fun h => ⟨h.lt, h.first, h.last, h.blank, h.outside⟩⟩

def Node.Breaks (o₁ o₂ : Nat) (n : Node) : Prop :=
  (o₁ < n.span.start ∧ n.span.start ≤ o₂) ∨ (o₁ < n.span.stop ∧ n.span.stop ≤ o₂)

instance (o₁ o₂ : Nat) (n : Node) : Decidable (n.Breaks o₁ o₂) :=
  inferInstanceAs (Decidable (_ ∨ _))

def EmptyLine (src : Source) (ns : List Node) (b : Span) : Prop :=
  ∃ o₁ ∈ b, ∃ o₂ ∈ b, LinesApart src ns o₁ o₂

def UnbrokenEmptyLine (src : Source) (ns : List Node) (b : Span) : Prop :=
  ∃ o₁ ∈ b, ∃ o₂ ∈ b, LinesApart src ns o₁ o₂ ∧ ∀ n ∈ ns, ¬n.Breaks o₁ o₂

instance (src : Source) (ns : List Node) (b : Span) : Decidable (EmptyLine src ns b) :=
  decidable_of_iff (∃ o₁, o₁ < b.stop ∧ o₁ ∈ b ∧ ∃ o₂, o₂ < b.stop ∧ o₂ ∈ b ∧ LinesApart src ns o₁ o₂)
    ⟨fun ⟨o₁, _, h₁, o₂, _, h⟩ => ⟨o₁, h₁, o₂, h⟩,
      fun ⟨o₁, h₁, o₂, h₂, h⟩ => ⟨o₁, h₁.2, h₁, o₂, h₂.2, h₂, h⟩⟩

instance (src : Source) (ns : List Node) (b : Span) : Decidable (UnbrokenEmptyLine src ns b) :=
  decidable_of_iff (∃ o₁, o₁ < b.stop ∧ o₁ ∈ b ∧ ∃ o₂, o₂ < b.stop ∧ o₂ ∈ b ∧
      LinesApart src ns o₁ o₂ ∧ ∀ n ∈ ns, ¬n.Breaks o₁ o₂)
    ⟨fun ⟨o₁, _, h₁, o₂, _, h⟩ => ⟨o₁, h₁, o₂, h⟩,
      fun ⟨o₁, h₁, o₂, h₂, h⟩ => ⟨o₁, h₁.2, h₁, o₂, h₂.2, h₂, h⟩⟩

theorem UnbrokenEmptyLine.emptyLine {src : Source} {ns : List Node} {b : Span}
    (h : UnbrokenEmptyLine src ns b) : EmptyLine src ns b := by
  obtain ⟨o₁, h₁, o₂, h₂, h, -⟩ := h
  exact ⟨o₁, h₁, o₂, h₂, h⟩

theorem EmptyLine.hasSpace {src : Source} {ns : List Node} {b : Span} (h : EmptyLine src ns b) :
    HasSpace ns b := by
  obtain ⟨o₁, h₁, o₂, -, h⟩ := h
  exact ⟨o₁, h₁, h.outside o₁ (Nat.lt_succ_of_lt h.lt) (Nat.le_refl _)⟩

end Raw

namespace Document

open Bytes
open Raw (ChildrenFit Follows HasSpace LinesApart OutsideComments UnbrokenEmptyLine)

def childNodes (src : Source) (head : Raw.Header) (children : List Raw.Node) : List Node :=
  if head.selfClosing then []
  else if ElementName.isSensitive head.name then verbatimNodes src head.body
  else bodyNodes (joinSpaces (childPieces src head.body.start head.body.stop children))

def nodeContent (src : Source) : Raw.Node → List PlacedNode
  | .comment _ => []
  | .text span => placeText span.start (src.slice span.start span.stop)
  | .interpolation span inner =>
      [⟨span, .expression (src.slice inner.start inner.stop) (src.location span.start)⟩]
  | .element span head children =>
      [⟨span, .element (Tag.ofRaw src span head) (childNodes src head children)⟩]

def contentAll (src : Source) (ns : List Raw.Node) : List PlacedNode :=
  ns.flatMap (nodeContent src)

def sew (start stop : Nat) : List PlacedNode → List Stretch
  | [] => [.gap ⟨start, stop⟩]
  | n :: ns => .gap ⟨start, n.place.start⟩ :: .content n :: sew n.place.stop stop ns

def nodeStretches (src : Source) : Raw.Node → List Stretch
  | .comment span => [.comment span]
  | .text span => sew span.start span.stop (nodeContent src (.text span))
  | .interpolation span inner => (nodeContent src (.interpolation span inner)).map .content
  | .element span head children => (nodeContent src (.element span head children)).map .content

def childStretches (src : Source) (start stop : Nat) : List Raw.Node → List Stretch
  | [] => [.gap ⟨start, stop⟩]
  | n :: ns =>
      .gap ⟨start, n.span.start⟩ :: (nodeStretches src n ++ childStretches src n.span.stop stop ns)

section Sew

variable {src : Source} {start stop : Nat} {ns : List PlacedNode}

theorem pieces_sew : (sew start stop ns).flatMap (Stretch.pieces src) =
    weave (gapPieces src) start stop ns := by
  induction ns generalizing start with
  | nil => simp [sew, weave, Stretch.pieces]
  | cons n ns ih => simp [sew, weave, Stretch.pieces, ih]

theorem contents_sew : (sew start stop ns).filterMap Stretch.content? = ns := by
  induction ns generalizing start with
  | nil => rfl
  | cons n ns ih => exact congrArg (n :: ·) ih

theorem tiled_sew (h : Strung src start stop ns) : Tiled start stop (sew start stop ns) := by
  induction ns generalizing start with
  | nil => exact ⟨rfl, h.1, rfl⟩
  | cons n ns ih =>
      obtain ⟨h1, h2, -, h3⟩ := h
      exact ⟨rfl, h1, rfl, Nat.le_of_lt h2, ih h3⟩

theorem comment_notMem_sew (c : Span) : Stretch.comment c ∉ sew start stop ns := by
  induction ns generalizing start with
  | nil => simp [sew]
  | cons n ns ih => simp [sew, ih]

theorem gap_of_mem_sew (h : Strung src start stop ns) {g : Span} (hg : .gap g ∈ sew start stop ns) :
    allBlank (src.slice g.start g.stop) = true ∧
      (g.stop = stop ∨ ∃ n ∈ ns, g.stop = n.place.start ∧ n.place.start < n.place.stop) := by
  induction ns generalizing start with
  | nil =>
      simp only [sew, List.mem_singleton, Stretch.gap.injEq] at hg
      rw [hg]
      exact ⟨h.2, .inl rfl⟩
  | cons n ns ih =>
      obtain ⟨-, h2, hb, h3⟩ := h
      simp only [sew, List.mem_cons, Stretch.gap.injEq, reduceCtorEq, false_or] at hg
      rcases hg with rfl | hg
      · exact ⟨hb, .inr ⟨n, List.mem_cons_self, rfl, h2⟩⟩
      · obtain ⟨hblank, hstop⟩ := ih h3 hg
        refine ⟨hblank, hstop.imp_right ?_⟩
        rintro ⟨m, hm, h⟩
        exact ⟨m, List.mem_cons_of_mem _ hm, h⟩

end Sew

section Children

variable {src : Source} {stop : Nat}

theorem stop_eq_of_slice {span : Span} (h1 : span.start ≤ span.stop) (h2 : span.stop ≤ src.length) :
    span.stop = span.start + (src.slice span.start span.stop).length := by
  rw [Source.length_slice h2]
  omega

theorem pieces_nodeStretches (n : Raw.Node) (h1 : n.span.start ≤ n.span.stop)
    (h2 : n.span.stop ≤ src.length) :
    (nodeStretches src n).flatMap (Stretch.pieces src) = nodePieces src n := by
  cases n with
  | comment span => rfl
  | text span =>
      rw [nodeStretches, pieces_sew]
      exact (linePieces_eq_weave _ rfl (stop_eq_of_slice h1 h2)).symm
  | interpolation span inner => rfl
  | element span head children => rfl

theorem contents_nodeStretches (n : Raw.Node) :
    (nodeStretches src n).filterMap Stretch.content? = nodeContent src n := by
  cases n with
  | comment span => rfl
  | text span => exact contents_sew
  | interpolation span inner => rfl
  | element span head children => rfl

theorem tiled_nodeStretches (n : Raw.Node) (h1 : n.span.start ≤ n.span.stop)
    (h2 : n.span.stop ≤ src.length) : Tiled n.span.start n.span.stop (nodeStretches src n) := by
  cases n with
  | comment span => exact ⟨rfl, h1, rfl⟩
  | text span => exact tiled_sew (strung_placeText _ rfl (stop_eq_of_slice h1 h2))
  | interpolation span inner => exact ⟨rfl, h1, rfl⟩
  | element span head children => exact ⟨rfl, h1, rfl⟩

theorem comment_mem_nodeStretches {n : Raw.Node} {c : Span} :
    .comment c ∈ nodeStretches src n ↔ n = .comment c := by
  cases n with
  | comment span => simp [nodeStretches, eq_comm]
  | text span => simp [nodeStretches, comment_notMem_sew]
  | interpolation span inner => simp [nodeStretches, nodeContent]
  | element span head children => simp [nodeStretches, nodeContent]

theorem childPieces_eq_stretches (hstop : stop ≤ src.length) (ns : List Raw.Node) : ∀ {start},
    ChildrenFit src stop start ns →
    childPieces src start stop ns =
      (childStretches src start stop ns).flatMap (Stretch.pieces src) := by
  induction ns with
  | nil =>
      intro start _
      simp [childPieces, childStretches, Stretch.pieces, gapPieces]
  | cons n ns ih =>
      rintro start ⟨⟨-, h2, h3, -⟩, -, h⟩
      rw [childStretches, List.flatMap_cons, List.flatMap_append,
        pieces_nodeStretches n h2 (Nat.le_trans h3 hstop), ← ih h, childPieces, List.append_assoc]
      rfl

theorem contents_childStretches (ns : List Raw.Node) : ∀ start stop,
    (childStretches src start stop ns).filterMap Stretch.content? = contentAll src ns := by
  induction ns with
  | nil => exact fun start stop => rfl
  | cons n ns ih =>
      intro start stop
      rw [childStretches, List.filterMap_cons_none rfl, List.filterMap_append, contents_nodeStretches,
        ih]
      rfl

theorem tiled_childStretches (hstop : stop ≤ src.length) (ns : List Raw.Node) : ∀ {start},
    start ≤ stop → ChildrenFit src stop start ns →
    Tiled start stop (childStretches src start stop ns) := by
  induction ns with
  | nil => exact fun hle _ => ⟨rfl, hle, rfl⟩
  | cons n ns ih =>
      rintro start - ⟨⟨h1, h2, h3, -⟩, -, h⟩
      exact ⟨rfl, h1, (tiled_nodeStretches n h2 (Nat.le_trans h3 hstop)).append (ih h3 h)⟩

theorem comment_mem_childStretches {c : Span} {ns : List Raw.Node} : ∀ {start},
    .comment c ∈ childStretches src start stop ns ↔ .comment c ∈ ns := by
  induction ns with
  | nil => simp [childStretches]
  | cons n ns ih =>
      simp [childStretches, comment_mem_nodeStretches, ih, eq_comm (a := Raw.Node.comment c)]

structure IsGap (src : Source) (stop : Nat) (ns : List Raw.Node) (g : Span) : Prop where
  blank : allBlank (src.slice g.start g.stop) = true
  apart : ∀ n ∈ ns, n.span.stop ≤ g.start ∨ g.stop ≤ n.span.start ∨
    (n.span.start ≤ g.start ∧ g.stop ≤ n.span.stop)
  ends : g.stop = stop ∨ (∃ n ∈ ns, g.stop = n.span.start ∨ g.stop = n.span.stop) ∨
    ∃ p ∈ contentAll src ns, g.stop = p.place.start ∧ p.place.start < p.place.stop

theorem gap_of_mem_nodeStretches {n : Raw.Node} (h1 : n.span.start ≤ n.span.stop)
    (h2 : n.span.stop ≤ src.length) {g : Span} (hg : .gap g ∈ nodeStretches src n) :
    allBlank (src.slice g.start g.stop) = true ∧
      (g.stop = n.span.stop ∨
        ∃ p ∈ nodeContent src n, g.stop = p.place.start ∧ p.place.start < p.place.stop) := by
  cases n with
  | comment span => simp [nodeStretches] at hg
  | text span => exact gap_of_mem_sew (strung_placeText _ rfl (stop_eq_of_slice h1 h2)) hg
  | interpolation span inner => simp [nodeStretches, nodeContent] at hg
  | element span head children => simp [nodeStretches, nodeContent] at hg

theorem isGap_of_mem (hstop : stop ≤ src.length) {ns : List Raw.Node} : ∀ {start},
    ChildrenFit src stop start ns → ∀ {g}, .gap g ∈ childStretches src start stop ns →
    IsGap src stop ns g := by
  induction ns with
  | nil =>
      intro start h g hg
      simp only [childStretches, List.mem_singleton, Stretch.gap.injEq] at hg
      rw [hg]
      exact ⟨h, by simp, .inl rfl⟩
  | cons n ns ih =>
      rintro start ⟨⟨h1, h2, h3, hblank⟩, -, h⟩ g hg
      have hsrc := Nat.le_trans h3 hstop
      simp only [childStretches, List.mem_cons, List.mem_append, Stretch.gap.injEq] at hg
      rcases hg with rfl | hg | hg
      · refine ⟨hblank, fun m hm => ?_, .inr (.inl ⟨n, List.mem_cons_self, .inl rfl⟩)⟩
        rcases List.mem_cons.1 hm with rfl | hm
        · exact .inr (.inl (Nat.le_refl _))
        · exact .inr (.inl (Nat.le_trans h2 (h.bounds m hm).1))
      · obtain ⟨hb, hend⟩ := gap_of_mem_nodeStretches h2 hsrc hg
        have hin := (tiled_nodeStretches n h2 hsrc).le_span hg
        refine ⟨hb, fun m hm => ?_, ?_⟩
        · rcases List.mem_cons.1 hm with rfl | hm
          · exact .inr (.inr hin)
          · exact .inr (.inl (Nat.le_trans hin.2 (h.bounds m hm).1))
        · rcases hend with hend | ⟨p, hp, hend⟩
          · exact .inr (.inl ⟨n, List.mem_cons_self, .inr hend⟩)
          · exact .inr (.inr ⟨p, List.mem_flatMap.2 ⟨n, List.mem_cons_self, hp⟩, hend⟩)
      · obtain ⟨hb, hapart, hend⟩ := ih h hg
        have hin := (tiled_childStretches hstop ns h3 h).le_span hg
        refine ⟨hb, List.forall_mem_cons.2 ⟨.inl hin.1, hapart⟩, hend.imp_right ?_⟩
        rintro (⟨m, hm, hend⟩ | ⟨p, hp, hend⟩)
        · exact .inl ⟨m, List.mem_cons_of_mem _ hm, hend⟩
        · obtain ⟨m, hm, hp⟩ := List.mem_flatMap.1 hp
          exact .inr ⟨p, List.mem_flatMap.2 ⟨m, List.mem_cons_of_mem _ hm, hp⟩, hend⟩

end Children

section Body

variable {src : Source} {start stop : Nat} {ns : List Raw.Node}

theorem ordered_contentAll (hle : start ≤ stop) (hstop : stop ≤ src.length)
    (h : ChildrenFit src stop start ns) : Ordered start stop (contentAll src ns) := by
  rw [← contents_childStretches ns start stop]
  exact (tiled_childStretches hstop ns hle h).ordered

theorem inGap_iff (hle : start ≤ stop) (hstop : stop ≤ src.length) (h : ChildrenFit src stop start ns)
    {o : Nat} (ho : o ∈ Span.mk start stop) (hout : ∀ p ∈ contentAll src ns, o ∉ p.place) :
    InGap (childStretches src start stop ns) o ↔ OutsideComments ns o := by
  have htiled := tiled_childStretches hstop ns hle h
  constructor
  · rintro ⟨g, hg, hog⟩ n hn hcomment
    cases n with
    | comment c =>
        have := htiled.unique hg (comment_mem_childStretches.2 hn) hog hcomment
        cases this
    | text span => exact hcomment
    | interpolation span inner => exact hcomment
    | element span head children => exact hcomment
  · intro hcomment
    obtain ⟨s, hs, hos⟩ := htiled.exists_mem ho
    cases s with
    | gap g => exact ⟨g, hs, hos⟩
    | comment c => exact absurd hos (hcomment _ (comment_mem_childStretches.1 hs))
    | content p =>
        have hp : p ∈ contentAll src ns := by
          rw [← contents_childStretches ns start stop]
          exact List.mem_filterMap.2 ⟨_, hs, rfl⟩
        exact absurd hos (hout p hp)

theorem linesInGap_iff (hle : start ≤ stop) (hstop : stop ≤ src.length)
    (h : ChildrenFit src stop start ns) {b : Span}
    (hb : b ∈ boundaries start stop (contentAll src ns)) :
    (∃ o₁ ∈ b, ∃ o₂ ∈ b, LinesInGap src (childStretches src start stop ns) o₁ o₂) ↔
      UnbrokenEmptyLine src ns b := by
  obtain ⟨hb1, hb2, hout⟩ := (ordered_contentAll hle hstop h).boundary hb
  have hmem : ∀ {o}, o ∈ b → o ∈ Span.mk start stop := fun ho =>
    ⟨Nat.le_trans hb1 ho.1, Nat.lt_of_lt_of_le ho.2 hb2⟩
  constructor
  · rintro ⟨o₁, h₁, o₂, h₂, hlt, hlf₁, hlf₂, g, hg, hg₁, hg₂⟩
    have hgap := isGap_of_mem hstop h hg
    refine ⟨o₁, h₁, o₂, h₂, ⟨hlt, hlf₁, hlf₂, ?_, fun o hle₂ hle₁ => ?_⟩, fun n hn hbreak => ?_⟩
    · exact Source.allBlank_slice.2 fun o ho c hc =>
        Source.allBlank_slice.1 hgap.blank o
          ⟨Nat.le_trans hg₁.1 ho.1, Nat.lt_trans ho.2 hg₂.2⟩ c hc
    · have hob : o ∈ b := ⟨Nat.le_trans h₁.1 hle₁, Nat.lt_of_le_of_lt (Nat.le_of_lt_succ hle₂) h₂.2⟩
      have hog : o ∈ g := ⟨Nat.le_trans hg₁.1 hle₁, Nat.lt_of_le_of_lt (Nat.le_of_lt_succ hle₂) hg₂.2⟩
      exact (inGap_iff hle hstop h (hmem hob) fun p hp => hout p hp o hob).1 ⟨g, hg, hog⟩
    · have hn' := (h.bounds n hn).2.1
      have := hgap.apart n hn
      simp only [Span.mem_iff, Raw.Node.Breaks] at hg₁ hg₂ hbreak
      omega
  · rintro ⟨o₁, h₁, o₂, h₂, ⟨hlt, hlf₁, hlf₂, -, houtside⟩, hbreak⟩
    obtain ⟨g, hg, hg₁⟩ := (inGap_iff hle hstop h (hmem h₁) fun p hp => hout p hp o₁ h₁).2
      (houtside o₁ (Nat.lt_succ_of_lt hlt) (Nat.le_refl _))
    refine ⟨o₁, h₁, o₂, h₂, hlt, hlf₁, hlf₂, g, hg, hg₁, ?_⟩
    -- the gap of the first line feed cannot end before the second one
    refine ⟨Nat.le_trans hg₁.1 (Nat.le_of_lt hlt), Nat.lt_of_not_le fun hend => ?_⟩
    rcases (isGap_of_mem hstop h hg).ends with hstop' | ⟨n, hn, hn'⟩ | ⟨p, hp, hp', hlt'⟩
    · have := (hmem h₂).2
      simp only at this
      omega
    · refine hbreak n hn ?_
      have := hg₁.2
      unfold Raw.Node.Breaks
      omega
    · refine hout p hp p.place.start ⟨?_, ?_⟩ ⟨Nat.le_refl _, hlt'⟩
      · have := h₁.1
        have := hg₁.2
        omega
      · have := h₂.2
        omega

def unbrokenMark (src : Source) (ns : List Raw.Node) (b : Span) : List Piece :=
  spaceMark (HasSpace ns b) (UnbrokenEmptyLine src ns b)

theorem joinSpaces_childPieces (hle : start ≤ stop) (hstop : stop ≤ src.length)
    (h : ChildrenFit src stop start ns) :
    joinSpaces (childPieces src start stop ns) =
      weave (unbrokenMark src ns) start stop (contentAll src ns) := by
  classical
  rw [childPieces_eq_stretches hstop ns h,
    joinSpaces_stretches hstop (tiled_childStretches hstop ns hle h), contents_childStretches]
  refine weave_congr _ fun b hb => ?_
  obtain ⟨hb1, hb2, hout⟩ := (ordered_contentAll hle hstop h).boundary hb
  refine spaceMark_congr (exists_congr fun o => and_congr_right fun ho => ?_)
    (linesInGap_iff hle hstop h hb)
  exact inGap_iff hle hstop h ⟨Nat.le_trans hb1 ho.1, Nat.lt_of_lt_of_le ho.2 hb2⟩
    fun p hp => hout p hp o ho

end Body

end Document

end MarkupFormat
