import MarkupFormat.Proofs.Fitting
import MarkupFormat.Proofs.Lossless

namespace MarkupFormat.Raw

open Bytes Written

section Reading

variable {src : Source}

theorem lt_of_slice_ne_nil {start stop : Nat} (h : src.slice start stop ≠ []) : start < stop := by
  rw [← Nat.not_le]
  intro hle
  rw [Source.slice, Nat.sub_eq_zero_of_le hle, List.take_zero] at h
  exact h rfl

theorem Tiles.le {ns : List Node} : ∀ {start stop}, Tiles start stop ns → start ≤ stop := by
  induction ns with
  | nil => exact fun h => Nat.le_of_eq h
  | cons n ns ih =>
      rintro start stop ⟨-, hlt, hrest⟩
      exact Nat.le_trans (Nat.le_of_lt hlt) (ih hrest)

theorem follows_self {stop cursor : Nat} {span : Span} (hstart : span.start = cursor)
    (hlt : cursor < span.stop) (hstop : span.stop ≤ stop) : Follows src stop cursor span where
  cursor_le := Nat.le_of_eq hstart.symm
  start_le := by
    rw [hstart]
    exact Nat.le_of_lt hlt
  stop_le := hstop
  gap := by
    rw [hstart, Document.slice_self]
    rfl

theorem Header.Encloses.fits {head : Header} {span : Span} {children : List Node}
    (h : head.Encloses src span children) : head.Fits span children := by
  have hopen : head.openTag.start < head.openTag.stop := by
    obtain ⟨rest, hrest⟩ := h.named
    exact lt_of_slice_ne_nil (by rw [← hrest]; simp)
  cases hself : head.selfClosing with
  | true =>
      obtain ⟨hspan, -, hnone⟩ := h.selfClosed hself
      exact ⟨Nat.le_of_eq h.opens.symm, Nat.le_of_lt hopen, by rw [hspan], fun _ => hnone, by simp [hself]⟩
  | false =>
      obtain ⟨close, hclose, hle, hstop, hslice, -⟩ := h.closed hself
      have hlt : close.start < close.stop :=
        lt_of_slice_ne_nil (by rw [hslice]; simp [closingTag])
      refine ⟨Nat.le_of_eq h.opens.symm, Nat.le_of_lt hopen, by omega, by simp [hself], fun _ => ?_⟩
      exact ⟨close, hclose, hle, Nat.le_of_lt hlt, Nat.le_of_eq hstop⟩

theorem eq_hash_of_unread {name : Bytes} (hhash : startsWith [Byte.hash] name = true)
    (hsens : ElementName.isSensitive name = false) : name = [Byte.hash] := by
  obtain ⟨rest, rfl⟩ := startsWith_iff.1 hhash
  cases rest with
  | nil => rfl
  | cons c rest => simp [ElementName.isSensitive, ElementName.isMacro] at hsens

def Node.BlankIfHash (src : Source) : Node → Prop
  | .text _ => True
  | .comment _ => True
  | .interpolation _ _ => True
  | .element _ head _ =>
      head.selfClosing = false → head.name = [Byte.hash] →
        allBlank (src.slice head.body.start head.body.stop) = true

def FindsUnread (found : Option Defect) (blank : Prop) : Prop :=
  (found = none ∧ blank) ∨ ((∃ o, found = some ⟨.uncovered, o, [Byte.hash]⟩) ∧ ¬blank)

theorem FindsUnread.congr {found : Option Defect} {blank blank' : Prop} (h : FindsUnread found blank)
    (hb : blank ↔ blank') : FindsUnread found blank' := by
  rwa [FindsUnread, ← hb]

theorem fits_of_exact {span inner : Span} (h : Node.Exact src (.interpolation span inner)) :
    fits inner span = true := by
  obtain ⟨hstart, hstop, hslice⟩ := h
  have hlength := congrArg List.length hslice
  have hle : (src.slice span.start span.stop).length ≤ span.stop - span.start :=
    List.length_take_le _ _
  simp only [List.length_append, openDelimiter, closeDelimiter, List.length_cons, List.length_nil]
    at hlength
  exact fits_iff.2 ⟨by omega, by omega, by omega⟩

theorem forall_exposed {span : Span} {head : Header} {children : List Node} {p : Node → Prop} :
    (∀ m ∈ (Node.element span head children).exposed, p m) ↔
      p (.element span head children) ∧ (head.isOpen = true → ∀ m ∈ exposedAll children, p m) := by
  rw [Node.exposed, List.forall_mem_cons]
  cases head.isOpen <;> simp

theorem blankIfHash_of_not_open {span : Span} {head : Header} {children : List Node}
    (h : head.isOpen = false) : (Node.element span head children).BlankIfHash src := by
  intro hself hname
  simp [Header.isOpen, hself, hname] at h
  cases h

mutual
theorem nodeDefect?_exact (parent : Bytes) (n : Node) (h : ∀ m ∈ n.nodes, m.Exact src)
    (hstop : n.span.stop ≤ src.length) :
    FindsUnread (nodeDefect? src parent n) (∀ m ∈ n.exposed, m.BlankIfHash src) := by
  cases n with
  | text span => exact .inl ⟨rfl, by simp [Node.exposed, Node.BlankIfHash]⟩
  | comment span => exact .inl ⟨rfl, by simp [Node.exposed, Node.BlankIfHash]⟩
  | interpolation span inner =>
      have hfits := fits_of_exact (h (.interpolation span inner) (by simp [Node.nodes]))
      exact .inl ⟨by rw [nodeDefect?, if_pos hfits], by simp [Node.exposed, Node.BlankIfHash]⟩
  | element span head children =>
      obtain ⟨hexact, hkids⟩ := List.forall_mem_cons.1 h
      have hfits := Header.Encloses.fits hexact
      refine FindsUnread.congr ?_ forall_exposed.symm
      rw [nodeDefect?, tagDefect?_none_iff.2 hfits]
      cases hopen : head.isOpen with
      | false => exact .inl ⟨rfl, blankIfHash_of_not_open hopen, nofun⟩
      | true =>
          obtain ⟨hself, hsens⟩ := Header.isOpen_iff.1 hopen
          obtain ⟨close, hclose, -, -, -, hbody⟩ := hexact.closed hself
          obtain ⟨-, hle, hbelow⟩ := hfits.body_bounds hopen
          have heq : head.body = ⟨head.openTag.stop, close.start⟩ := by rw [Header.body, hclose]
          simp only [if_true, forall_const]
          cases hhash : startsWith [Byte.hash] head.name with
          | true =>
              have hname := eq_hash_of_unread hhash hsens
              rw [hhash, if_pos rfl] at hbody
              subst hbody
              have hblank : (Node.element span head []).BlankIfHash src ↔
                  allBlank (src.slice head.body.start head.body.stop) = true := by
                simp [Node.BlankIfHash, hself, hname]
              rw [childrenDefect?, hname]
              split
              · exact .inl ⟨rfl, hblank.2 ‹_›, by simp [exposedAll]⟩
              · exact .inr ⟨⟨_, rfl⟩, fun hall => absurd (hblank.1 hall.1) ‹_›⟩
          | false =>
              rw [hhash, if_neg (by simp)] at hbody
              have htiles : Tiles head.body.start head.body.stop children := by rwa [heq]
              have hother : (Node.element span head children).BlankIfHash src := by
                intro _ hname
                rw [hname] at hhash
                cases hhash
              have hfound := childrenDefect?_exact head.name children hkids htiles (Nat.le_refl _)
                (Nat.le_trans hbelow hstop)
              exact hfound.congr (and_iff_right hother).symm

theorem childrenDefect?_exact (parent : Bytes) (ns : List Node) {container : Span} {cursor : Nat}
    (h : ∀ m ∈ nodesIn ns, m.Exact src) (htiles : Tiles cursor container.stop ns)
    (hstart : container.start ≤ cursor) (hstop : container.stop ≤ src.length) :
    FindsUnread (childrenDefect? src container parent cursor ns)
      (∀ m ∈ exposedAll ns, m.BlankIfHash src) := by
  cases ns with
  | nil =>
      have hgap : src.slice cursor container.stop = [] := by
        rw [show cursor = container.stop from htiles, Document.slice_self]
      refine .inl ⟨?_, by simp [exposedAll]⟩
      rw [childrenDefect?, hgap]
      rfl
  | cons n ns =>
      obtain ⟨hfirst, hlt, hrest⟩ := htiles
      obtain ⟨hn, hns⟩ := List.forall_mem_append.1 h
      have hle := hrest.le
      have hplace := (placeDefect?_none_iff parent hstart hstop).2 (follows_self hfirst hlt hle)
      have hnode := nodeDefect?_exact parent n hn (Nat.le_trans hle hstop)
      have hnext := childrenDefect?_exact parent ns hns hrest
        (Nat.le_trans hstart (Nat.le_of_lt hlt)) hstop
      rw [childrenDefect?, hplace, exposedAll]
      simp only [List.forall_mem_append]
      obtain ⟨hnone, hblank⟩ | ⟨⟨o, hsome⟩, hnot⟩ := hnode
      · rw [hnone]
        exact hnext.congr (and_iff_right hblank).symm
      · rw [hsome]
        exact .inr ⟨⟨o, rfl⟩, fun hall => hnot hall.1⟩
end

end Reading

theorem findsUnread_locateAll {src : Source} {ns : List Written.Node}
    (h : Written.read src.content = .ok ns) :
    FindsUnread (defect? src (locateAll 0 ns))
      (∀ n ∈ exposedAll (locateAll 0 ns), n.BlankIfHash src) := by
  have hlossless := lossless_locateAll h
  exact childrenDefect?_exact [] _ hlossless.nodes hlossless.tiles (Nat.le_refl 0) (Nat.le_refl _)

-- What has been read is without defect unless an unread body holds more than whitespace.
theorem defect_of_read {src : Source} {tree : List Node} (h : read src = .ok tree) :
    (defect? src tree = none ↔ ∀ n ∈ exposedAll tree, n.BlankIfHash src) ∧
      ∀ d, defect? src tree = some d →
        (d.report src).kind = .structural ∧ (d.report src).code = ascii "S004" ∧
          (d.report src).elementName = ascii "#" := by
  obtain ⟨ns, hread, rfl⟩ := read_eq_ok.1 h
  obtain ⟨hnone, hblank⟩ | ⟨⟨o, hsome⟩, hnot⟩ := findsUnread_locateAll hread
  · exact ⟨iff_of_true hnone hblank, by simp [hnone]⟩
  · refine ⟨iff_of_false (by simp [hsome]) hnot, fun d hd => ?_⟩
    rw [hsome, Option.some.injEq] at hd
    subst hd
    exact ⟨rfl, rfl, rfl⟩

def hashed : Source :=
  ⟨[], ascii "<pre><#>x</#></pre><p><#>y</#></p>"⟩

def hashedTree : List Node :=
  [.element ⟨0, 19⟩ ⟨ascii "pre", [], false, ⟨0, 5⟩, some ⟨13, 19⟩⟩
      [.element ⟨5, 13⟩ ⟨ascii "#", [], false, ⟨5, 8⟩, some ⟨9, 13⟩⟩ []],
    .element ⟨19, 34⟩ ⟨ascii "p", [], false, ⟨19, 22⟩, some ⟨30, 34⟩⟩
      [.element ⟨22, 30⟩ ⟨ascii "#", [], false, ⟨22, 25⟩, some ⟨26, 30⟩⟩ []]]

theorem defect_hashed : read hashed = .ok hashedTree ∧ ∃ d, defect? hashed hashedTree = some d ∧
    (d.report hashed).code = ascii "S004" ∧ (d.report hashed).elementName = ascii "#" ∧
      d.offset = 25 := by
  have hwritten : Written.read hashed.content =
      .ok [.element ⟨ascii "pre", [], []⟩ [.verbatim ⟨ascii "#", [], []⟩ (ascii "x")],
        .element ⟨ascii "p", [], []⟩ [.verbatim ⟨ascii "#", [], []⟩ (ascii "y")]] := by
    refine read_iff.2 ⟨rfl, ⟨⟨by cbv, rfl, by simp⟩, ?_⟩, ⟨⟨by cbv, rfl, by simp⟩, ?_⟩, trivial⟩
    · exact ⟨⟨by cbv, rfl, by simp⟩, trivial⟩
    · exact ⟨⟨by cbv, rfl, by simp⟩, trivial⟩
  have hread : read hashed = .ok hashedTree := by
    rw [read, hwritten]
    rfl
  have hdefect : defect? hashed hashedTree = some ⟨.uncovered, 25, ascii "#"⟩ := by decide
  obtain ⟨-, hcode, helement⟩ := (defect_of_read hread).2 _ hdefect
  exact ⟨hread, _, hdefect, hcode, helement, rfl⟩

end MarkupFormat.Raw
