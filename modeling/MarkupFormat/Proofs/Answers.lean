import Mathlib.Data.List.Basic
import MarkupFormat.Proofs.Formatting

namespace MarkupFormat

open Bytes Document Layout Expression

structure Inquiry where
  asked : List Bytes
  answers : List (Bytes × Bytes)

abbrev Asking := ExceptT Report (StateM Inquiry)

def ask (f : Formatter) (s : Snippet) : Asking Unit := do
  modify fun q => { q with asked := q.asked ++ [s.raw] }
  match f s.raw with
  | .error message => throw (refusalReport s message)
  | .ok t => modify fun q => { q with answers := (s.raw, trim t) :: q.answers }

def askTag (f : Formatter) (tag : Tag) : Asking Unit :=
  tag.attributes.forM fun a =>
    if isFormatted a.kind then ask f ⟨a.value, a.place, tag.name, a.name⟩ else pure ()

mutual
def askNode (f : Formatter) (parent : Bytes) : Node → Asking Unit
  | .marker _ _ => pure ()
  | .text _ => pure ()
  | .expression raw location => ask f ⟨raw, location, parent, []⟩
  | .element tag children => do
      askTag f tag
      if tag.sensitive then pure () else askAll f tag.name children

def askAll (f : Formatter) (parent : Bytes) : List Node → Asking Unit
  | [] => pure ()
  | n :: ns => do
      askNode f parent n
      askAll f parent ns
end

def renderAsking (f : Formatter) (opts : Options) (miss : Bytes) (nodes : List Node) :
    Except Report Bytes × List Bytes :=
  match (askAll f [] nodes).run.run ⟨[], []⟩ with
  | (.error r, q) => (.error r, q.asked)
  | (.ok _, q) => (.ok (layout ⟨opts, fun raw => (q.answers.lookup raw).getD miss⟩ nodes), q.asked)

section Asking

variable {f : Formatter}

theorem askTag_eq_forM (tag : Tag) : askTag f tag = tag.snippets.forM (ask f) := by
  unfold askTag Tag.snippets
  generalize tag.attributes = as
  induction as with
  | nil => rfl
  | cons a as ih =>
      cases ha : isFormatted a.kind with
      | true => simp_all
      | false => simp_all

mutual
theorem askNode_eq_forM (parent : Bytes) (n : Node) :
    askNode f parent n = (nodeSnippets parent n).forM (ask f) := by
  cases n with
  | marker p b => rfl
  | text t => rfl
  | expression raw location => simp [askNode, nodeSnippets]
  | element tag children =>
      rw [askNode, nodeSnippets, askTag_eq_forM]
      cases hs : tag.sensitive with
      | true => simp
      | false => simp [askAll_eq_forM tag.name children]

theorem askAll_eq_forM (parent : Bytes) (ns : List Node) :
    askAll f parent ns = (snippetsIn parent ns).forM (ask f) := by
  cases ns with
  | nil => rfl
  | cons n ns => simp [askAll, snippetsIn, askNode_eq_forM parent n, askAll_eq_forM parent ns]
end

theorem run_ask_ok {s : Snippet} {t : Bytes} (h : f s.raw = .ok t) (q : Inquiry) :
    (ask f s).run.run q = (.ok (), ⟨q.asked ++ [s.raw], (s.raw, trim t) :: q.answers⟩) := by
  unfold ask
  rw [h]
  rfl

theorem run_ask_error {s : Snippet} {message : Bytes} (h : f s.raw = .error message) (q : Inquiry) :
    (ask f s).run.run q =
      (.error (refusalReport s message), ⟨q.asked ++ [s.raw], q.answers⟩) := by
  unfold ask
  rw [h]
  rfl

theorem run_bind_ok {x : Asking Unit} {y : Unit → Asking Unit} {q q' : Inquiry}
    (h : x.run.run q = (.ok (), q')) : (x >>= y).run.run q = (y ()).run.run q' := by
  rw [ExceptT.run_bind, StateT.run_bind, h]
  rfl

theorem run_bind_error {x : Asking Unit} {y : Unit → Asking Unit} {q q' : Inquiry} {r : Report}
    (h : x.run.run q = (.error r, q')) : (x >>= y).run.run q = (.error r, q') := by
  rw [ExceptT.run_bind, StateT.run_bind, h]
  rfl

theorem shown_of_ok {raw t : Bytes} (h : f raw = .ok t) : shown f raw = trim t := by
  rw [shown, h]

variable (f) in
def answersTo (ss : List Snippet) : List (Bytes × Bytes) :=
  (ss.map Snippet.raw).reverse.map fun raw => (raw, shown f raw)

theorem run_accepted {ss : List Snippet} : ∀ q : Inquiry, (∀ s ∈ ss, ∃ t, f s.raw = .ok t) →
    (ss.forM (ask f)).run.run q =
      (.ok (), ⟨q.asked ++ ss.map Snippet.raw, answersTo f ss ++ q.answers⟩) := by
  induction ss with
  | nil =>
      intro q _
      simp [answersTo]
      rfl
  | cons s ss ih =>
      intro q h
      obtain ⟨⟨t, ht⟩, hss⟩ := List.forall_mem_cons.1 h
      rw [List.forM_eq_forM, List.forM_cons, run_bind_ok (run_ask_ok ht q), ← List.forM_eq_forM, ih _ hss]
      simp [answersTo, shown_of_ok ht]

theorem run_refused {before : List Snippet} (after : List Snippet) {s : Snippet} {message : Bytes}
    (q : Inquiry) (hbefore : ∀ b ∈ before, ∃ t, f b.raw = .ok t) (hs : f s.raw = .error message) :
    ((before ++ s :: after).forM (ask f)).run.run q =
      (.error (refusalReport s message),
        ⟨q.asked ++ (before ++ [s]).map Snippet.raw, answersTo f before ++ q.answers⟩) := by
  have hfirst := run_accepted q hbefore
  rw [List.forM_eq_forM, List.forM_append, List.forM_cons, ← List.forM_eq_forM]
  rw [run_bind_ok hfirst, run_bind_error (run_ask_error hs _)]
  simp

end Asking

section Calls

variable {f : Formatter}

theorem accepted_or_refused (f : Formatter) (ss : List Snippet) :
    (∀ s ∈ ss, ∃ t, f s.raw = .ok t) ∨
      ∃ before s after message, ss = before ++ s :: after ∧
        (∀ b ∈ before, ∃ t, f b.raw = .ok t) ∧ f s.raw = .error message := by
  induction ss with
  | nil => exact .inl nofun
  | cons s ss ih =>
      cases hs : f s.raw with
      | error message => exact .inr ⟨[], s, ss, message, rfl, nofun, hs⟩
      | ok t =>
          rcases ih with hss | ⟨before, s', after, message, rfl, hbefore, hs'⟩
          · exact .inl (List.forall_mem_cons.2 ⟨⟨t, hs⟩, hss⟩)
          · exact .inr ⟨s :: before, s', after, message, rfl,
              List.forall_mem_cons.2 ⟨⟨t, hs⟩, hbefore⟩, hs'⟩

theorem calls_accepted {ss : List Snippet} (h : ∀ s ∈ ss, ∃ t, f s.raw = .ok t) :
    calls f ss = ss.map Snippet.raw := by
  induction ss with
  | nil => rfl
  | cons s ss ih =>
      obtain ⟨⟨t, ht⟩, hss⟩ := List.forall_mem_cons.1 h
      rw [calls, ht]
      exact congrArg _ (ih hss)

section Refused

variable {before after : List Snippet} {s : Snippet} {message : Bytes}
  (hbefore : ∀ b ∈ before, ∃ t, f b.raw = .ok t) (hs : f s.raw = .error message)
include hbefore hs

theorem calls_refused : calls f (before ++ s :: after) = (before ++ [s]).map Snippet.raw := by
  induction before with
  | nil => simp [calls, hs]
  | cons b before ih =>
      obtain ⟨⟨t, ht⟩, hrest⟩ := List.forall_mem_cons.1 hbefore
      simp only [List.cons_append, List.map_cons, calls, ht, ih hrest]

theorem firstRefusal_refused : firstRefusal f (before ++ s :: after) = some (s, message) := by
  induction before with
  | nil => simp [firstRefusal, hs]
  | cons b before ih =>
      obtain ⟨⟨t, ht⟩, hrest⟩ := List.forall_mem_cons.1 hbefore
      simp only [List.cons_append, firstRefusal, ht, ih hrest]

end Refused

end Calls

mutual
def nodeLookups (parent : Bytes) : Node → List Snippet
  | .marker _ _ => []
  | .text _ => []
  | .expression raw location => [⟨raw, location, parent, []⟩]
  | .element tag children =>
      tag.snippets ++ if tag.selfClosing || tag.sensitive then [] else lookupsIn tag.name children

def lookupsIn (parent : Bytes) : List Node → List Snippet
  | [] => []
  | n :: ns => nodeLookups parent n ++ lookupsIn parent ns
end

mutual
theorem nodeLookups_sublist (parent : Bytes) (n : Node) :
    (nodeLookups parent n).Sublist (nodeSnippets parent n) := by
  cases n with
  | marker p b => exact .refl _
  | text t => exact .refl _
  | expression raw location => exact .refl _
  | element tag children =>
      have hkids := lookupsIn_sublist tag.name children
      rw [nodeLookups, nodeSnippets]
      refine .append (.refl _) ?_
      cases tag.sensitive with
      | true => simp
      | false =>
          cases tag.selfClosing with
          | true => simp
          | false => exact hkids

theorem lookupsIn_sublist (parent : Bytes) (ns : List Node) :
    (lookupsIn parent ns).Sublist (snippetsIn parent ns) := by
  cases ns with
  | nil => exact .refl _
  | cons n ns => exact .append (nodeLookups_sublist parent n) (lookupsIn_sublist parent ns)
end

theorem lookupsIn_eq_flatMap (parent : Bytes) (ns : List Node) :
    lookupsIn parent ns = ns.flatMap (nodeLookups parent) := by
  induction ns with
  | nil => rfl
  | cons n ns ih => rw [lookupsIn, ih, List.flatMap_cons]

section Congruence

variable {opts : Options} {g g' : Bytes → Bytes}

theorem attributeTexts_shown {tag : Tag} (h : ∀ s ∈ tag.snippets, g s.raw = g' s.raw) :
    attributeTexts ⟨opts, g⟩ tag = attributeTexts ⟨opts, g'⟩ tag := by
  refine List.map_congr_left fun a ha => ?_
  have hshown := (forall_tag_snippets (Q := fun raw => g raw = g' raw)).1 h a ha
  unfold attributeText
  cases hk : a.kind with
  | string => rfl
  | boolean => rfl
  | integer => simp only [hshown (by rw [hk]; rfl)]
  | expression => simp only [hshown (by rw [hk]; rfl)]

theorem openTag_shown {tag : Tag} (depth : Nat) (h : ∀ s ∈ tag.snippets, g s.raw = g' s.raw) :
    openTag ⟨opts, g⟩ depth tag = openTag ⟨opts, g'⟩ depth tag := by
  have htexts : attributeTexts ⟨opts, g⟩ tag = attributeTexts ⟨opts, g'⟩ tag := attributeTexts_shown h
  simp only [openTag, tagShape, exceedsLine, oneLine, htexts]
  rfl

mutual
theorem layoutNode_shown (depth : Nat) {parent : Bytes} (n : Node)
    (h : ∀ s ∈ nodeLookups parent n, g s.raw = g' s.raw) :
    layoutNode ⟨opts, g⟩ depth n = layoutNode ⟨opts, g'⟩ depth n := by
  cases n with
  | marker p b => rfl
  | text t => rfl
  | expression raw location =>
      have hraw := h ⟨raw, location, parent, []⟩ (by simp [nodeLookups])
      simp only [layoutNode, hraw]
      rfl
  | element tag children =>
      rw [nodeLookups, List.forall_mem_append] at h
      rw [layoutNode, layoutNode, openTag_shown depth h.1]
      cases hself : tag.selfClosing with
      | true => simp
      | false =>
          cases hsens : tag.sensitive with
          | true => simp
          | false =>
              have hkids := layoutChildren_shown depth children (by simpa [hself, hsens] using h.2)
              simp [hkids]

theorem layoutChildren_shown (depth : Nat) {parent : Bytes} (ns : List Node)
    (h : ∀ s ∈ lookupsIn parent ns, g s.raw = g' s.raw) :
    layoutChildren ⟨opts, g⟩ depth ns = layoutChildren ⟨opts, g'⟩ depth ns := by
  cases ns with
  | nil => rfl
  | cons n ns =>
      rw [lookupsIn, List.forall_mem_append] at h
      rw [layoutChildren, layoutChildren, layoutNode_shown _ n h.1, layoutChildren_shown depth ns h.2]
end

theorem layout_shown {nodes : List Node} (h : ∀ s ∈ lookupsIn [] nodes, g s.raw = g' s.raw) :
    layout ⟨opts, g⟩ nodes = layout ⟨opts, g'⟩ nodes := by
  have htop : ∀ n ∈ nodes, layoutTop ⟨opts, g⟩ n = layoutTop ⟨opts, g'⟩ n := by
    intro n hn
    have hlookups : ∀ s ∈ nodeLookups [] n, g s.raw = g' s.raw := by
      intro s hs
      rw [lookupsIn_eq_flatMap] at h
      exact h s (List.mem_flatMap.2 ⟨n, hn, hs⟩)
    rcases layoutTop_cases n with ⟨b, rfl⟩ | htop
    · rfl
    · rw [htop, htop]
      exact layoutNode_shown 0 n hlookups
  rw [layout, layout, List.flatMap_congr htop]
  rfl

end Congruence

section Walks

variable {f : Formatter} {opts : Options} {nodes : List Node}

theorem render_accepted (h : ∀ s ∈ snippets nodes, ∃ t, f s.raw = .ok t) {g : Bytes → Bytes}
    (hg : ∀ s ∈ lookupsIn [] nodes, ∀ t, f s.raw = .ok t → g s.raw = trim t) :
    render f opts nodes = .ok (layout ⟨opts, g⟩ nodes) := by
  refine render_iff.2 ⟨h, layout_shown fun s hs => ?_⟩
  obtain ⟨t, ht⟩ := h s ((lookupsIn_sublist [] nodes).subset hs)
  rw [shown_of_ok ht, hg s hs t ht]

theorem lookup_answersTo {ss : List Snippet} {s : Snippet} (h : s ∈ ss) :
    (answersTo f ss).lookup s.raw = some (shown f s.raw) := by
  refine List.lookup_graph _ ?_
  rw [List.mem_reverse]
  exact List.mem_map_of_mem h

theorem renderAsking_eq (miss : Bytes) :
    renderAsking f opts miss nodes = (render f opts nodes, calls f (snippets nodes)) := by
  unfold renderAsking
  rw [askAll_eq_forM]
  obtain hall | ⟨before, s, after, message, hsplit, hbefore, hs⟩ :=
    accepted_or_refused f (snippets nodes)
  · have hrun := run_accepted ⟨[], []⟩ hall
    rw [snippets] at hrun
    rw [hrun]
    let g := fun raw => ((answersTo f (snippets nodes) ++ []).lookup raw).getD miss
    have hg : ∀ s ∈ lookupsIn [] nodes, ∀ t, f s.raw = .ok t → g s.raw = trim t := by
      intro s hs t ht
      have hmem : s ∈ snippets nodes := (lookupsIn_sublist [] nodes).subset hs
      simp only [g, List.append_nil, lookup_answersTo hmem, shown_of_ok ht, Option.getD_some]
    rw [render_accepted hall hg, calls_accepted hall]
    rfl
  · have hrun := run_refused after ⟨[], []⟩ hbefore hs
    rw [← hsplit, snippets] at hrun
    rw [hrun, render, hsplit, firstRefusal_refused hbefore hs, calls_refused hbefore hs]
    rfl

end Walks

end MarkupFormat
