import Mathlib.Data.List.Chain
import MarkupFormat.Proofs.Lines

namespace MarkupFormat.Document

open Bytes

def Piece.isSpace : Piece → Bool
  | .space _ => true
  | .content _ => false

def Piece.node (position : Position) : Piece → Node
  | .space b => .marker position b
  | .content n => n

def Solid (ps : List Piece) : Prop :=
  ∀ n, Piece.content n ∈ ps → n.isMarker = false

def Apart (ps : List Piece) : Prop :=
  ps.IsChain fun p q => ¬(p.isSpace = true ∧ q.isSpace = true)

theorem content_mem_consPiece {n : Node} {p : Piece} {ps : List Piece} :
    Piece.content n ∈ consPiece p ps ↔ Piece.content n ∈ p :: ps := by
  unfold consPiece
  split <;> simp

theorem content_mem_joinSpaces {n : Node} {ps : List Piece} :
    Piece.content n ∈ joinSpaces ps ↔ Piece.content n ∈ ps := by
  induction ps with
  | nil => rfl
  | cons p ps ih =>
      change Piece.content n ∈ consPiece p (joinSpaces ps) ↔ _
      rw [content_mem_consPiece, List.mem_cons, List.mem_cons, ih]

theorem joinSpaces_eq_nil {ps : List Piece} : joinSpaces ps = [] ↔ ps = [] := by
  cases ps with
  | nil => simp [joinSpaces]
  | cons p ps =>
      change consPiece p (joinSpaces ps) = [] ↔ _
      unfold consPiece
      split <;> simp

theorem apart_consPiece {p : Piece} {ps : List Piece} (h : Apart ps) : Apart (consPiece p ps) := by
  unfold consPiece
  split
  · next b c qs =>
      cases qs with
      | nil => exact .singleton _
      | cons q qs =>
          simp only [Apart, List.isChain_cons_cons] at h ⊢
          exact ⟨by simpa [Piece.isSpace] using h.1, h.2⟩
  · next hne =>
      cases ps with
      | nil => exact .singleton _
      | cons q qs =>
          refine List.isChain_cons_cons.2 ⟨?_, h⟩
          rintro ⟨hp, hq⟩
          cases p with
          | content n => simp [Piece.isSpace] at hp
          | space b =>
              cases q with
              | content n => simp [Piece.isSpace] at hq
              | space c => exact hne b c qs rfl rfl

theorem apart_joinSpaces (ps : List Piece) : Apart (joinSpaces ps) := by
  induction ps with
  | nil => exact .nil
  | cons p ps ih => exact apart_consPiece ih

theorem joinSpaces_of_apart {ps : List Piece} (h : Apart ps) : joinSpaces ps = ps := by
  induction ps with
  | nil => rfl
  | cons p ps ih =>
      change consPiece p (joinSpaces ps) = _
      rw [ih (List.IsChain.tail h)]
      unfold consPiece
      split
      · next b c qs =>
          exact absurd ⟨rfl, rfl⟩ (List.isChain_cons_cons.1 h).1
      · rfl

def placement (i count : Nat) : Position :=
  if i + 1 = count then .beforeClosingTag
  else if i = 0 then .beforeFirstChild
  else .betweenSiblings

theorem getElem?_innerNodes (ps : List Piece) (i : Nat) :
    (innerNodes ps)[i]? =
      ps[i]?.map (Piece.node (if i + 1 = ps.length then .beforeClosingTag else .betweenSiblings)) := by
  induction ps generalizing i with
  | nil => simp [innerNodes]
  | cons p ps ih =>
      cases p with
      | content n =>
          cases i with
          | zero => simp [innerNodes, Piece.node]
          | succ i => simp [innerNodes, ih]
      | space b =>
          cases ps with
          | nil => cases i <;> simp [innerNodes, Piece.node]
          | cons q qs =>
              cases i with
              | zero => simp [innerNodes, Piece.node]
              | succ i => simp [innerNodes, ih]

theorem getElem?_bodyNodes (ps : List Piece) (i : Nat) :
    (bodyNodes ps)[i]? = ps[i]?.map (Piece.node (placement i ps.length)) := by
  have hinner : ∀ qs : List Piece, (∀ b, qs[0]? = some (.space b) → qs.length = 1) →
      (innerNodes qs)[i]? = qs[i]?.map (Piece.node (placement i qs.length)) := by
    intro qs hqs
    rw [getElem?_innerNodes]
    cases i with
    | succ i => simp [placement]
    | zero =>
        cases hq : qs[0]? with
        | none => rfl
        | some q =>
            cases q with
            | content n => rfl
            | space b => simp [placement, hqs b hq]
  cases ps with
  | nil => exact hinner [] (by simp)
  | cons p ps =>
      cases p with
      | content n => exact hinner (.content n :: ps) (by simp)
      | space b =>
          cases ps with
          | nil => exact hinner [.space b] (by simp)
          | cons q qs =>
              cases i with
              | zero => simp [bodyNodes, Piece.node, placement]
              | succ i =>
                  simp only [bodyNodes, List.getElem?_cons_succ, getElem?_innerNodes]
                  simp [placement]

def withoutLastSpace : List Piece → List Piece
  | [] => []
  | [.space _] => []
  | p :: ps => p :: withoutLastSpace ps

theorem trailingNodes_eq_map (ps : List Piece) :
    trailingNodes ps = (withoutLastSpace ps).map (Piece.node .betweenSiblings) := by
  induction ps with
  | nil => rfl
  | cons p ps ih =>
      cases p with
      | content n => simp [trailingNodes, withoutLastSpace, Piece.node, ih]
      | space b =>
          cases ps with
          | nil => rfl
          | cons q qs => simp [trailingNodes, withoutLastSpace, Piece.node, ih]

theorem prefix_withoutLastSpace (ps : List Piece) : withoutLastSpace ps <+: ps := by
  induction ps with
  | nil => exact List.prefix_refl _
  | cons p ps ih =>
      cases p with
      | content n => simpa [withoutLastSpace] using ih
      | space b =>
          cases ps with
          | nil => simp [withoutLastSpace]
          | cons q qs => simpa [withoutLastSpace] using ih

theorem getLast?_withoutLastSpace {ps : List Piece} (h : Apart ps) {p : Piece}
    (hp : (withoutLastSpace ps).getLast? = some p) : p.isSpace = false := by
  induction ps with
  | nil => simp [withoutLastSpace] at hp
  | cons q qs ih =>
      have hqs : Apart qs := List.IsChain.tail h
      cases qs with
      | nil =>
          cases q with
          | space b => simp [withoutLastSpace] at hp
          | content n =>
              simp only [withoutLastSpace, List.getLast?_singleton, Option.some.injEq] at hp
              rw [← hp]
              rfl
      | cons r rs =>
          have hw : withoutLastSpace (q :: r :: rs) = q :: withoutLastSpace (r :: rs) := by
            cases q <;> rfl
          rw [hw, List.getLast?_cons] at hp
          cases hl : (withoutLastSpace (r :: rs)).getLast? with
          | some x =>
              simp only [hl, Option.getD_some, Option.some.injEq] at hp
              exact ih hqs (hp ▸ hl)
          | none =>
              -- only a space is dropped, and `q` before it is then content
              simp only [hl, Option.getD_none, Option.some.injEq] at hp
              subst hp
              have hr : r.isSpace = true := by
                cases r with
                | space b => rfl
                | content n => simp [withoutLastSpace] at hl
              have := (List.isChain_cons_cons.1 h).1
              simpa [hr] using this

theorem bodyNodes_eq_mapIdx (ps : List Piece) :
    bodyNodes ps = ps.mapIdx fun i p => p.node (placement i ps.length) := by
  refine List.ext_getElem? fun i => ?_
  rw [getElem?_bodyNodes, List.getElem?_mapIdx]

theorem isMarker_node {p : Piece} {pos : Position}
    (h : ∀ n, p = .content n → n.isMarker = false) : (p.node pos).isMarker = p.isSpace := by
  cases p with
  | space b => rfl
  | content n => exact h n rfl

theorem isChain_iff_getElem? {α : Type} {R : α → α → Prop} {l : List α} :
    l.IsChain R ↔ ∀ i a b, l[i]? = some a → l[i + 1]? = some b → R a b := by
  rw [List.isChain_iff_getElem]
  constructor
  · intro h i a b ha hb
    obtain ⟨hi, rfl⟩ := List.getElem?_eq_some_iff.1 ha
    obtain ⟨hj, rfl⟩ := List.getElem?_eq_some_iff.1 hb
    exact h i hj
  · intro h i hi
    exact h i _ _ (List.getElem?_eq_getElem (by omega)) (List.getElem?_eq_getElem hi)

structure OneLine (t : Bytes) : Prop where
  ne_nil : t ≠ []
  first : ∀ c ∈ t.head?, isBlank c = false
  last : ∀ c ∈ t.getLast?, isBlank c = false
  spaces : ∀ c ∈ t, isBlank c = true → c = Byte.space
  lone : ¬[Byte.space, Byte.space] <:+: t

theorem IsLine.oneLine {t : Bytes} (h : IsLine t) : OneLine t where
  ne_nil := h.ne_nil
  first := by
    cases h with
    | single hc => simpa using hc
    | solid hc _ => simpa using hc
    | space hc _ => simpa using hc
  last := by
    obtain ⟨d, hd, hb⟩ := h.ends_solid
    simpa [hd] using hb
  spaces := h.blank_eq_space
  lone := h.spaces_lone

def MarkersApart (ns : List Node) : Prop :=
  ns.IsChain fun m n => ¬(m.isMarker = true ∧ n.isMarker = true)

structure Body (ns : List Node) : Prop where
  apart : MarkersApart ns
  lines : ∀ t, Node.text t ∈ ns → OneLine t
  noStart : ∀ b, Node.marker .documentStart b ∉ ns
  first : ∀ i b, ns[i]? = some (.marker .beforeFirstChild b) →
    i = 0 ∧ ∃ n, ns[1]? = some n ∧ n.isMarker = false
  last : ∀ i b, ns[i]? = some (.marker .beforeClosingTag b) → i + 1 = ns.length
  between : ∀ i b, ns[i]? = some (.marker .betweenSiblings b) →
    ∃ m n, ns[i + 1]? = some n ∧ n.isMarker = false ∧
      0 < i ∧ ns[i - 1]? = some m ∧ m.isMarker = false

structure TopLevel (ns : List Node) : Prop where
  apart : MarkersApart ns
  lines : ∀ t, Node.text t ∈ ns → OneLine t
  first : ∃ b, ns.head? = some (.marker .documentStart b)
  later : ∀ i p b, ns[i + 1]? = some (.marker p b) → p = .betweenSiblings
  last : ∀ p b, ns.getLast? = some (.marker p b) → ns.length = 1

theorem TopLevel.marker_eq {b : Bool} {rest : List Node}
    (h : TopLevel (.marker .documentStart b :: rest)) :
    ∀ p c, Node.marker p c ∈ rest → p = .betweenSiblings := by
  intro p c hc
  obtain ⟨i, hi⟩ := List.getElem?_of_mem hc
  exact h.later i p c (by simpa using hi)

theorem TopLevel.getLast?_solid {b : Bool} {rest : List Node}
    (h : TopLevel (.marker .documentStart b :: rest)) : ∀ n ∈ rest.getLast?, n.isMarker = false := by
  intro n hn
  cases n with
  | text t => rfl
  | expression raw location => rfl
  | element tag children => rfl
  | marker p c =>
      have hlast : (Node.marker .documentStart b :: rest).getLast? = some (.marker p c) := by
        rw [List.getLast?_cons, Option.mem_def.1 hn]
        rfl
      have hone := h.last p c hlast
      rw [List.eq_nil_of_length_eq_zero (Nat.succ.inj hone)] at hn
      cases hn

def Lined (ps : List Piece) : Prop :=
  ∀ t, Piece.content (.text t) ∈ ps → IsLine t

theorem node_eq_marker {p : Piece} {pos pos' : Position} {b : Bool}
    (hp : ∀ n, p = .content n → n.isMarker = false) (h : p.node pos = .marker pos' b) :
    p = .space b ∧ pos' = pos := by
  cases p with
  | space c =>
      simp only [Piece.node, Node.marker.injEq] at h
      exact ⟨by rw [h.2], h.1.symm⟩
  | content n =>
      have := hp n rfl
      simp only [Piece.node] at h
      simp [h, Node.isMarker] at this

theorem Solid.of_getElem? {ps : List Piece} (hs : Solid ps) {i : Nat} {p : Piece}
    (h : ps[i]? = some p) : ∀ n, p = .content n → n.isMarker = false := by
  rintro n rfl
  exact hs n (List.mem_of_getElem? h)

theorem Apart.isSpace_next {ps : List Piece} (ha : Apart ps) {i : Nat} {p q : Piece}
    (hp : ps[i]? = some p) (hq : ps[i + 1]? = some q) :
    ¬(p.isSpace = true ∧ q.isSpace = true) :=
  isChain_iff_getElem?.1 ha i p q hp hq

section Children

variable {ps : List Piece} (hs : Solid ps) (ha : Apart ps)
include hs

theorem marker_bodyNodes {i : Nat} {pos : Position} {b : Bool}
    (h : (bodyNodes ps)[i]? = some (.marker pos b)) :
    ps[i]? = some (.space b) ∧ pos = placement i ps.length := by
  rw [getElem?_bodyNodes] at h
  cases hp : ps[i]? with
  | none => simp [hp] at h
  | some p =>
      simp only [hp, Option.map_some, Option.some.injEq] at h
      obtain ⟨rfl, rfl⟩ := node_eq_marker (hs.of_getElem? hp) h
      exact ⟨rfl, rfl⟩

include ha

theorem content_next {i : Nat} {b : Bool} (hi : ps[i]? = some (.space b))
    (hlen : i + 1 < ps.length) :
    ∃ n, (bodyNodes ps)[i + 1]? = some n ∧ n.isMarker = false := by
  have hq := List.getElem?_eq_getElem hlen
  refine ⟨_, by rw [getElem?_bodyNodes, hq]; rfl, ?_⟩
  rw [isMarker_node (hs.of_getElem? hq)]
  simpa [Piece.isSpace] using ha.isSpace_next hi hq

theorem content_before {i : Nat} {b : Bool} (hi : ps[i + 1]? = some (.space b)) :
    ∃ n, (bodyNodes ps)[i]? = some n ∧ n.isMarker = false := by
  have hlen := (List.getElem?_eq_some_iff.1 hi).1
  have hq := List.getElem?_eq_getElem (l := ps) (i := i) (by omega)
  refine ⟨_, by rw [getElem?_bodyNodes, hq]; rfl, ?_⟩
  rw [isMarker_node (hs.of_getElem? hq)]
  simpa [Piece.isSpace] using ha.isSpace_next hq hi

theorem markersApart_bodyNodes : MarkersApart (bodyNodes ps) := by
  refine isChain_iff_getElem?.2 fun i m n hm hn => ?_
  rw [getElem?_bodyNodes] at hm hn
  obtain ⟨p, hp, rfl⟩ := Option.map_eq_some_iff.1 hm
  obtain ⟨q, hq, rfl⟩ := Option.map_eq_some_iff.1 hn
  rw [isMarker_node (hs.of_getElem? hp), isMarker_node (hs.of_getElem? hq)]
  exact ha.isSpace_next hp hq

theorem body_bodyNodes (hl : Lined ps) : Body (bodyNodes ps) where
  apart := markersApart_bodyNodes hs ha
  lines := by
    intro t ht
    obtain ⟨i, hi⟩ := List.mem_iff_getElem?.1 ht
    rw [getElem?_bodyNodes] at hi
    obtain ⟨p, hp, hpt⟩ := Option.map_eq_some_iff.1 hi
    cases p with
    | space b => simp [Piece.node] at hpt
    | content n =>
        simp only [Piece.node] at hpt
        exact (hl t (hpt ▸ List.mem_of_getElem? hp)).oneLine
  noStart := by
    intro b hb
    obtain ⟨i, hi⟩ := List.mem_iff_getElem?.1 hb
    have := (marker_bodyNodes hs hi).2
    simp only [placement] at this
    split at this
    · cases this
    · split at this <;> cases this
  first := by
    intro i b hi
    obtain ⟨hp, hpos⟩ := marker_bodyNodes hs hi
    have hlen := (List.getElem?_eq_some_iff.1 hp).1
    simp only [placement] at hpos
    split at hpos
    · cases hpos
    · split at hpos
      · next hne h0 =>
          subst h0
          exact ⟨rfl, content_next hs ha hp (by omega)⟩
      · cases hpos
  last := by
    intro i b hi
    obtain ⟨hp, hpos⟩ := marker_bodyNodes hs hi
    simp only [placement] at hpos
    rw [bodyNodes_eq_mapIdx, List.length_mapIdx]
    split at hpos
    · assumption
    · split at hpos <;> cases hpos
  between := by
    intro i b hi
    obtain ⟨hp, hpos⟩ := marker_bodyNodes hs hi
    have hlen := (List.getElem?_eq_some_iff.1 hp).1
    simp only [placement] at hpos
    split at hpos
    · cases hpos
    · split at hpos
      · cases hpos
      · next hne h0 =>
          obtain ⟨j, rfl⟩ := Nat.exists_eq_succ_of_ne_zero h0
          obtain ⟨n, hn, hnm⟩ := content_next hs ha hp (by omega)
          obtain ⟨m, hm, hmm⟩ := content_before hs ha hp
          exact ⟨m, n, hn, hnm, by omega, hm, hmm⟩

end Children

theorem documentNodes_eq {ps : List Piece} (ha : Apart ps) :
    ∃ b qs, documentNodes ps =
        .marker .documentStart b :: (withoutLastSpace qs).map (Piece.node .betweenSiblings) ∧
      qs <:+ ps ∧ ∀ c, qs.head? ≠ some (.space c) := by
  cases ps with
  | nil => exact ⟨false, [], rfl, List.suffix_refl _, by simp⟩
  | cons p ps =>
      cases p with
      | content n =>
          refine ⟨false, .content n :: ps, ?_, List.suffix_refl _, by simp⟩
          rw [← trailingNodes_eq_map]
          rfl
      | space b =>
          refine ⟨b, ps, ?_, List.suffix_cons _ _, ?_⟩
          · rw [← trailingNodes_eq_map]
            rfl
          · intro c hc
            cases ps with
            | nil => simp at hc
            | cons q qs =>
                simp only [List.head?_cons, Option.some.injEq] at hc
                exact (List.isChain_cons_cons.1 ha).1 ⟨rfl, by rw [hc]; rfl⟩

theorem topLevel_documentNodes {ps : List Piece} (hs : Solid ps) (ha : Apart ps) (hl : Lined ps) :
    TopLevel (documentNodes ps) := by
  obtain ⟨b, qs, heq, hsuf, hhead⟩ := documentNodes_eq ha
  have hpre := prefix_withoutLastSpace qs
  have hmem : ∀ p ∈ withoutLastSpace qs, p ∈ ps := fun p hp => hsuf.subset (hpre.subset hp)
  have hnode : ∀ p ∈ withoutLastSpace qs, ∀ n, p = .content n → n.isMarker = false :=
    fun p hp n hn => hs n (hn ▸ hmem p hp)
  have haq : Apart qs := ha.suffix hsuf
  rw [heq]
  constructor
  case first => exact ⟨b, rfl⟩
  case lines =>
    intro t ht
    simp only [List.mem_cons, reduceCtorEq, false_or, List.mem_map] at ht
    obtain ⟨p, hp, hpt⟩ := ht
    cases p with
    | space c => simp [Piece.node] at hpt
    | content n =>
        simp only [Piece.node] at hpt
        exact (hl t (hpt ▸ hmem _ hp)).oneLine
  case later =>
    intro i p c hi
    simp only [List.getElem?_cons_succ, List.getElem?_map, Option.map_eq_some_iff] at hi
    obtain ⟨q, hq, hqm⟩ := hi
    exact (node_eq_marker (hnode q (List.mem_of_getElem? hq)) hqm).2
  case apart =>
    refine isChain_iff_getElem?.2 fun i m n hm hn => ?_
    simp only [List.getElem?_cons_succ, List.getElem?_map, Option.map_eq_some_iff] at hn
    obtain ⟨q, hq, rfl⟩ := hn
    rw [isMarker_node (hnode q (List.mem_of_getElem? hq))]
    cases i with
    | zero =>
        have hq' : qs[0]? = some q := by
          obtain ⟨r, hr⟩ := hpre
          rw [← hr, List.getElem?_append_left (List.getElem?_eq_some_iff.1 hq).1, hq]
        cases q with
        | content n => simp [Piece.isSpace]
        | space c => exact absurd (by rw [List.head?_eq_getElem?, hq']) (hhead c)
    | succ i =>
        simp only [List.getElem?_cons_succ, List.getElem?_map, Option.map_eq_some_iff] at hm
        obtain ⟨p, hp, rfl⟩ := hm
        rw [isMarker_node (hnode p (List.mem_of_getElem? hp))]
        have happ : Apart (withoutLastSpace qs) := List.IsChain.prefix haq hpre
        exact Apart.isSpace_next happ hp hq
  case last =>
    intro p c hlast
    cases hw : (withoutLastSpace qs).getLast? with
    | none =>
        rw [List.getLast?_eq_none_iff] at hw
        simp [hw]
    | some q =>
        simp only [List.getLast?_cons, List.getLast?_map, hw, Option.map_some, Option.getD_some,
          Option.some.injEq] at hlast
        have hq := getLast?_withoutLastSpace haq hw
        obtain ⟨rfl, -⟩ := node_eq_marker (hnode q (List.mem_of_getLast? hw)) hlast
        simp [Piece.isSpace] at hq

theorem mem_bodyNodes {ps : List Piece} {n : Node} (h : n ∈ bodyNodes ps) :
    n.isMarker = true ∨ Piece.content n ∈ ps := by
  obtain ⟨i, hi⟩ := List.mem_iff_getElem?.1 h
  rw [getElem?_bodyNodes] at hi
  obtain ⟨p, hp, rfl⟩ := Option.map_eq_some_iff.1 hi
  cases p with
  | space b => exact .inl rfl
  | content n => exact .inr (List.mem_of_getElem? hp)

theorem mem_documentNodes {ps : List Piece} (ha : Apart ps) {n : Node}
    (h : n ∈ documentNodes ps) : n.isMarker = true ∨ Piece.content n ∈ ps := by
  obtain ⟨b, qs, heq, hsuf, -⟩ := documentNodes_eq ha
  rw [heq, List.mem_cons, List.mem_map] at h
  rcases h with rfl | ⟨p, hp, rfl⟩
  · exact .inl rfl
  · cases p with
    | space b => exact .inl rfl
    | content n => exact .inr (hsuf.subset ((prefix_withoutLastSpace qs).subset hp))

end MarkupFormat.Document
