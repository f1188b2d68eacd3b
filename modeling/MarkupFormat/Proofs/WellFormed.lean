import MarkupFormat.Proofs.Fitting

namespace MarkupFormat.Raw

open Bytes

def Node.Shaped : Node → Prop
  | .text _ => True
  | .comment _ => True
  | .interpolation span inner =>
      span.start ≤ inner.start ∧ inner.start ≤ inner.stop ∧ inner.stop ≤ span.stop
  | .element span head children => head.Fits span children

structure WellLaid (src : Source) (container : Span) (ns : List Node) : Prop where
  inside : ∀ n ∈ ns,
    container.start ≤ n.span.start ∧ n.span.start ≤ n.span.stop ∧ n.span.stop ≤ container.stop
  apart : ns.Pairwise fun m n => m.span.stop ≤ n.span.start
  covered : ∀ o ∈ container, (∀ n ∈ ns, o ∉ n.span) →
    ∀ c, src.content[o]? = some c → isBlank c = true
  shaped : ∀ n ∈ ns, n.Shaped

inductive Body (container : Span) (ns : List Node) : Span → List Node → Prop
  | whole : Body container ns container ns
  | within {outer : Span} {ms : List Node} {span : Span} {head : Header} {children : List Node} :
      Body container ns outer ms → .element span head children ∈ ms →
      head.selfClosing = false → ElementName.isSensitive head.name = false →
      Body container ns head.body children

def WellFormed (src : Source) (tree : List Node) : Prop :=
  ∀ container ns, Body ⟨0, src.length⟩ tree container ns → WellLaid src container ns

def Node.HasBody (n : Node) (c : Span) (ms : List Node) : Prop :=
  ∃ span head children, n = .element span head children ∧ head.isOpen = true ∧
    Body head.body children c ms

section Bodies

variable {container : Span} {ns : List Node} {c : Span} {ms : List Node}

theorem Body.trans {inner : Span} {ks : List Node} (h : Body container ns inner ks)
    (hc : Body inner ks c ms) : Body container ns c ms := by
  induction hc with
  | whole => exact h
  | within _ hmem hself hsens ih => exact .within ih hmem hself hsens

theorem body_iff :
    Body container ns c ms ↔ (c = container ∧ ms = ns) ∨ ∃ n ∈ ns, n.HasBody c ms := by
  constructor
  · intro h
    induction h with
    | whole => exact .inl ⟨rfl, rfl⟩
    | @within outer ms span head children _ hmem hself hsens ih =>
        have hopen : head.isOpen = true := Header.isOpen_iff.2 ⟨hself, hsens⟩
        rcases ih with ⟨rfl, rfl⟩ | ⟨n, hn, s, h, ks, rfl, hn', hbody⟩
        · exact .inr ⟨_, hmem, span, head, children, rfl, hopen, .whole⟩
        · exact .inr ⟨_, hn, s, h, ks, rfl, hn', .within hbody hmem hself hsens⟩
  · rintro (⟨rfl, rfl⟩ | ⟨n, hn, span, head, children, rfl, hopen, hbody⟩)
    · exact .whole
    · obtain ⟨hself, hsens⟩ := Header.isOpen_iff.1 hopen
      exact (Body.within .whole hn hself hsens).trans hbody

theorem forall_body_iff {P : Span → List Node → Prop} :
    (∀ c ms, Body container ns c ms → P c ms) ↔
      P container ns ∧ ∀ n ∈ ns, ∀ c ms, n.HasBody c ms → P c ms := by
  simp only [body_iff]
  constructor
  · intro h
    exact ⟨h _ _ (.inl ⟨rfl, rfl⟩), fun n hn c ms hbody => h c ms (.inr ⟨n, hn, hbody⟩)⟩
  · rintro ⟨hwhole, hinner⟩ c ms (⟨rfl, rfl⟩ | ⟨n, hn, hbody⟩)
    · exact hwhole
    · exact hinner n hn c ms hbody

end Bodies

section WellLaid

variable {src : Source} {stop cursor : Nat} {n : Node} {ns : List Node}

theorem wellLaid_nil : WellLaid src ⟨cursor, stop⟩ [] ↔ allBlank (src.slice cursor stop) = true := by
  rw [Source.allBlank_slice]
  refine ⟨fun h o ho => h.covered o ho nofun, fun h => ⟨nofun, .nil, ?_, nofun⟩⟩
  exact fun o ho _ => h o ho

theorem WellLaid.follows (h : WellLaid src ⟨cursor, stop⟩ (n :: ns)) :
    Follows src stop cursor n.span := by
  obtain ⟨h1, h2, h3⟩ := h.inside n List.mem_cons_self
  refine ⟨h1, h2, h3, Source.allBlank_slice.2 fun o ho => ?_⟩
  refine h.covered o ⟨ho.1, Nat.lt_of_lt_of_le ho.2 (Nat.le_trans h2 h3)⟩ fun m hm => ?_
  -- the nodes after `n` start where it ends or later
  rcases List.mem_cons.1 hm with rfl | hm
  · exact fun hin => Nat.not_lt_of_le hin.1 ho.2
  · have hle := (List.pairwise_cons.1 h.apart).1 m hm
    simp only [Span.mem_iff] at ho ⊢
    omega

theorem WellLaid.rest (h : WellLaid src ⟨cursor, stop⟩ (n :: ns)) :
    WellLaid src ⟨n.span.stop, stop⟩ ns := by
  obtain ⟨hafter, hapart⟩ := List.pairwise_cons.1 h.apart
  obtain ⟨h1, h2, -⟩ := h.inside n List.mem_cons_self
  constructor
  case inside =>
    intro m hm
    exact ⟨hafter m hm, (h.inside m (List.mem_cons_of_mem _ hm)).2⟩
  case apart => exact hapart
  case covered =>
    intro o ho hout
    refine h.covered o ⟨Nat.le_trans (Nat.le_trans h1 h2) ho.1, ho.2⟩ fun m hm => ?_
    rcases List.mem_cons.1 hm with rfl | hm
    · exact fun hin => Nat.not_lt_of_le ho.1 hin.2
    · exact hout m hm
  case shaped => exact fun m hm => h.shaped m (List.mem_cons_of_mem _ hm)

theorem WellLaid.cons (hn : Follows src stop cursor n.span) (hshape : n.Shaped)
    (h : WellLaid src ⟨n.span.stop, stop⟩ ns) : WellLaid src ⟨cursor, stop⟩ (n :: ns) := by
  obtain ⟨h1, h2, h3, hgap⟩ := hn
  constructor
  case inside =>
    refine List.forall_mem_cons.2 ⟨⟨h1, h2, h3⟩, fun m hm => ?_⟩
    obtain ⟨hle, hrest⟩ := h.inside m hm
    exact ⟨Nat.le_trans (Nat.le_trans h1 h2) hle, hrest⟩
  case apart => exact .cons (fun m hm => (h.inside m hm).1) h.apart
  case covered =>
    intro o ho hout
    obtain ⟨hn, hns⟩ := List.forall_mem_cons.1 hout
    -- before `n` there is its gap, and after it the others account for the byte
    rcases Nat.lt_or_ge o n.span.start with hlt | hge
    · exact Source.allBlank_slice.1 hgap o ⟨ho.1, hlt⟩
    · exact h.covered o ⟨Nat.le_of_not_lt fun hlt => hn ⟨hge, hlt⟩, ho.2⟩ hns
  case shaped => exact List.forall_mem_cons.2 ⟨hshape, h.shaped⟩

theorem wellLaid_cons :
    WellLaid src ⟨cursor, stop⟩ (n :: ns) ↔
      Follows src stop cursor n.span ∧ n.Shaped ∧ WellLaid src ⟨n.span.stop, stop⟩ ns :=
  ⟨fun h => ⟨h.follows, h.shaped n List.mem_cons_self, h.rest⟩, fun h => .cons h.1 h.2.1 h.2.2⟩

end WellLaid

section WellFormed

variable {src : Source}

mutual
theorem Node.fits_iff (n : Node) :
    n.Fits src ↔ n.Shaped ∧ ∀ c ms, n.HasBody c ms → WellLaid src c ms := by
  cases n with
  | text span => simp [Node.Fits, Node.Shaped, Node.HasBody]
  | comment span => simp [Node.Fits, Node.Shaped, Node.HasBody]
  | interpolation span inner => simp [Node.Fits, Node.Shaped, Node.HasBody]
  | element span head children =>
      have hkids := childrenFit_iff head.body.stop head.body.start children
      refine and_congr_right fun _ => ⟨?_, ?_⟩
      · rintro h c ms ⟨_, _, _, heq, hopen, hbody⟩
        cases heq
        exact hkids.1 (h hopen) c ms hbody
      · intro h hopen
        exact hkids.2 fun c ms hbody => h c ms ⟨_, _, _, rfl, hopen, hbody⟩

theorem childrenFit_iff (stop cursor : Nat) (ns : List Node) :
    ChildrenFit src stop cursor ns ↔
      ∀ c ms, Body ⟨cursor, stop⟩ ns c ms → WellLaid src c ms := by
  rw [forall_body_iff]
  cases ns with
  | nil => simp [ChildrenFit, wellLaid_nil]
  | cons n ns =>
      have hrest := childrenFit_iff stop n.span.stop ns
      rw [forall_body_iff] at hrest
      rw [ChildrenFit, wellLaid_cons, Node.fits_iff n, hrest, List.forall_mem_cons]
      exact ⟨fun ⟨h1, ⟨h2, h3⟩, h4, h5⟩ => ⟨⟨h1, h2, h4⟩, h3, h5⟩,
        fun ⟨⟨h1, h2, h4⟩, h3, h5⟩ => ⟨h1, ⟨h2, h3⟩, h4, h5⟩⟩
end

end WellFormed

-- No defect is found in a tree if and only if it is well formed.
theorem defect?_none_iff_wellFormed (src : Source) (tree : List Node) :
    defect? src tree = none ↔ WellFormed src tree :=
  defect?_none_iff.trans (childrenFit_iff _ _ tree)

end MarkupFormat.Raw
