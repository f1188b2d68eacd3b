import MarkupFormat.Proofs.Sources

namespace MarkupFormat.Document

open Bytes Layout
open Written hiding Node

theorem cleanAll_iff {ns : List Node} :
    CleanAll ns ↔ (∀ n ∈ ns, n.Clean) ∧ ns.IsChain fun m n => abuts m n = false := by
  induction ns with
  | nil => exact ⟨fun _ => ⟨by simp, .nil⟩, fun _ => trivial⟩
  | cons n ns ih =>
      rw [CleanAll, ih, List.forall_mem_cons]
      cases ns with
      | nil => simp
      | cons m ms =>
          rw [List.isChain_cons_cons]
          constructor
          · rintro ⟨hn, hnext, hms, hc⟩
            exact ⟨⟨hn, hms⟩, hnext m rfl, hc⟩
          · rintro ⟨⟨hn, hms⟩, hnext, hc⟩
            refine ⟨hn, ?_, hms, hc⟩
            rintro k hk
            rw [← Option.some.inj hk]
            exact hnext

def Piece.Abut : Piece → Piece → Prop
  | .content m, .content n => abuts m n = true
  | _, _ => False

def Loose (ps : List Piece) : Prop :=
  ps.IsChain fun p q => ¬p.Abut q

theorem not_abut_space {p : Piece} {b : Bool} : ¬p.Abut (.space b) := by
  cases p <;> exact id

theorem loose_consPiece {p : Piece} {ps : List Piece} (h : Loose (p :: ps)) :
    Loose (consPiece p ps) := by
  unfold consPiece
  split
  · next b c qs =>
      have hqs := List.IsChain.tail h
      cases qs with
      | nil => exact .singleton _
      | cons q qs => exact List.isChain_cons_cons.2 ⟨id, (List.isChain_cons_cons.1 hqs).2⟩
  · exact h

theorem loose_joinSpaces {ps : List Piece} (h : Loose ps) : Loose (joinSpaces ps) := by
  induction ps with
  | nil => exact .nil
  | cons p ps ih =>
      have ih := ih (List.IsChain.tail h)
      change Loose (consPiece p (joinSpaces ps))
      refine loose_consPiece ?_
      cases ps with
      | nil => exact .singleton _
      | cons q qs =>
          -- what was content at the head still is
          have hhead : ∃ r rs, joinSpaces (q :: qs) = r :: rs ∧ (r = q ∨ r.isSpace = true) := by
            change ∃ r rs, consPiece q (joinSpaces qs) = r :: rs ∧ _
            unfold consPiece
            split
            · exact ⟨_, _, rfl, .inr rfl⟩
            · exact ⟨_, _, rfl, .inl rfl⟩
          obtain ⟨r, rs, hr, hq⟩ := hhead
          rw [hr] at ih ⊢
          refine List.isChain_cons_cons.2 ⟨?_, ih⟩
          rcases hq with rfl | hs
          · exact (List.isChain_cons_cons.1 h).1
          · cases r with
            | space b => exact not_abut_space
            | content n => cases hs

theorem abuts_node {p q : Piece} {pos pos' : Position} (h : ¬p.Abut q) :
    abuts (p.node pos) (q.node pos') = false := by
  cases p with
  | space b => rfl
  | content m =>
      cases q with
      | space b => cases m <;> rfl
      | content n =>
          have hmn : abuts m n = false := by simpa [Piece.Abut] using h
          exact hmn

theorem chain_bodyNodes {ps : List Piece} (h : Loose ps) :
    (bodyNodes ps).IsChain fun m n => abuts m n = false := by
  refine isChain_iff_getElem?.2 fun i m n hm hn => ?_
  rw [getElem?_bodyNodes] at hm hn
  obtain ⟨p, hp, rfl⟩ := Option.map_eq_some_iff.1 hm
  obtain ⟨q, hq, rfl⟩ := Option.map_eq_some_iff.1 hn
  exact abuts_node (isChain_iff_getElem?.1 h i p q hp hq)

theorem chain_documentNodes {ps : List Piece} (ha : Apart ps) (h : Loose ps) :
    (documentNodes ps).IsChain fun m n => abuts m n = false := by
  obtain ⟨b, qs, heq, hsuf, -⟩ := documentNodes_eq ha
  have hqs : Loose qs := List.IsChain.suffix h hsuf
  have hloose : Loose (withoutLastSpace qs) :=
    List.IsChain.prefix hqs (prefix_withoutLastSpace qs)
  have hmap : ((withoutLastSpace qs).map (Piece.node .betweenSiblings)).IsChain
      fun m n => abuts m n = false := by
    rw [List.isChain_map]
    exact List.IsChain.imp (fun _ _ => abuts_node) hloose
  rw [heq]
  cases hm : (withoutLastSpace qs).map (Piece.node .betweenSiblings) with
  | nil => exact .singleton _
  | cons n ns =>
      rw [hm] at hmap
      exact List.isChain_cons_cons.2 ⟨rfl, hmap⟩

theorem loose_textPieces (t : Bytes) : Loose (textPieces t) := by
  unfold textPieces
  split
  · exact .nil
  · exact .singleton _

theorem loose_linePieces (t : Bytes) : ∀ line, Loose (linePieces line (runs t)) := by
  induction t using blank_induction with
  | nil => exact loose_textPieces
  | solid c t hc ih =>
      intro line
      rw [linePieces_solid hc]
      exact ih _
  | blank m t hm hb ht ih =>
      intro line
      rw [linePieces_blank hm hb ht]
      split
      · have hspace : spacePieces m = [.space (hasBlankLine m)] := if_neg hm
        rw [hspace, List.append_assoc]
        refine List.isChain_append.2 ⟨loose_textPieces line, ?_, ?_⟩
        · rw [List.singleton_append]
          cases hl : linePieces [] (runs t) with
          | nil => exact .singleton _
          | cons p ps =>
              refine List.isChain_cons_cons.2 ⟨?_, ?_⟩
              · cases p <;> exact id
              · rw [← hl]
                exact ih []
        · intro p _ q hq
          rw [List.singleton_append, List.head?_cons] at hq
          rw [← Option.some.inj hq]
          exact not_abut_space
      · exact ih _

theorem getLast?_linePieces {x : Bytes} (t : Bytes) : ∀ line,
    (linePieces line (runs t)).getLast? = some (.content (.text x)) →
    x.getLast? = (line ++ t).getLast? := by
  have htext : ∀ line, (textPieces line).getLast? = some (.content (.text x)) → x = line := by
    intro line h
    have := content_of_mem_textPieces (List.mem_of_getLast? h)
    cases this
    rfl
  induction t using blank_induction with
  | nil =>
      intro line h
      rw [htext line h, List.append_nil]
  | solid c t hc ih =>
      intro line h
      rw [linePieces_solid hc] at h
      simpa using ih _ h
  | blank m t hm hb ht ih =>
      intro line h
      rw [linePieces_blank hm hb ht] at h
      by_cases hnil : t = []
      · subst hnil
        have hspace : spacePieces m = [.space (hasBlankLine m)] := if_neg hm
        simp [runs, linePieces, textPieces, hspace] at h
      · have hlast : ∀ u : Bytes, (u ++ t).getLast? = t.getLast? := by
          intro u
          rw [List.getLast?_append]
          cases hl : t.getLast? with
          | none => exact absurd (List.getLast?_eq_none_iff.1 hl) hnil
          | some c => rfl
        rw [← List.append_assoc, hlast]
        split at h
        · have hne : linePieces [] (runs t) ≠ [] := fun h0 => hnil (linePieces_eq_nil t [] h0).2
          rw [List.getLast?_append_of_ne_nil _ hne] at h
          exact ih [] h
        · rw [ih _ h, hlast]

theorem head_after_text {t after : Bytes} {ns : List Written.Node}
    (hl : LegalAll after (.text t :: ns)) (hns : ∀ n ∈ ns, ∀ u, n ≠ .comment u) {x : Bytes}
    (hx : x.getLast? = t.getLast?) :
    ∀ q ∈ (piecesAll ns).head?, ¬Piece.Abut (.content (.text x)) q := by
  intro q hq
  obtain ⟨-, -, hlast, -⟩ := cutAt_startsMarkup_iff.1 hl.1.2
  cases ns with
  | nil => cases hq
  | cons n ns =>
      cases n with
      | text u => exact absurd hl not_text_after_text
      | comment u => exact absurd rfl (hns _ (by simp) u)
      | interpolation inner =>
          simp only [piecesAll, piecesOf, List.cons_append, List.head?_cons] at hq
          rw [← Option.some.inj hq]
          simp only [Piece.Abut, abuts, decide_eq_true_eq, hx]
          intro hb
          exact hlast hb rfl
      | selfClosed tag =>
          simp only [piecesAll, piecesOf, List.cons_append, List.head?_cons] at hq
          rw [← Option.some.inj hq]
          simp [Piece.Abut, abuts]
      | verbatim tag body =>
          simp only [piecesAll, piecesOf, List.cons_append, List.head?_cons] at hq
          rw [← Option.some.inj hq]
          simp [Piece.Abut, abuts]
      | element tag children =>
          simp only [piecesAll, piecesOf, List.cons_append, List.head?_cons] at hq
          rw [← Option.some.inj hq]
          simp [Piece.Abut, abuts]

theorem loose_piecesAll {after : Bytes} {ns : List Written.Node} (hl : LegalAll after ns)
    (hns : ∀ n ∈ ns, ∀ u, n ≠ .comment u) : Loose (piecesAll ns) := by
  induction ns with
  | nil => exact .nil
  | cons n ns ih =>
      have hns' : ∀ m ∈ ns, ∀ u, m ≠ .comment u := fun m hm => hns m (by simp [hm])
      have ih := ih hl.2 hns'
      have hitem : ∀ tag children, Loose (.content (.element tag children) :: piecesAll ns) := by
        intro tag children
        cases hp : piecesAll ns with
        | nil => exact .singleton _
        | cons p ps =>
            rw [hp] at ih
            refine List.isChain_cons_cons.2 ⟨?_, ih⟩
            cases p <;> simp [Piece.Abut, abuts]
      cases n with
      | comment t => exact absurd rfl (hns _ (by simp) t)
      | selfClosed tag => exact hitem _ _
      | verbatim tag body => exact hitem _ _
      | element tag children => exact hitem _ _
      | interpolation inner =>
          change Loose (.content (.expression inner .start) :: piecesAll ns)
          cases hp : piecesAll ns with
          | nil => exact .singleton _
          | cons p ps =>
              rw [hp] at ih
              refine List.isChain_cons_cons.2 ⟨?_, ih⟩
              cases p <;> simp [Piece.Abut, abuts]
      | text t =>
          rw [piecesAll, piecesOf]
          refine List.isChain_append.2 ⟨loose_linePieces t [], ih, ?_⟩
          intro p hp q hq
          cases p with
          | space b => cases q <;> exact id
          | content m =>
              obtain ⟨x, rfl⟩ := content_of_mem_linePieces _ _ (List.mem_of_getLast? hp)
              exact head_after_text hl hns' (getLast?_linePieces t [] hp) q hq

theorem clean_of_isMarker {n : Node} (h : n.isMarker = true) : n.Clean := by
  cases n <;> trivial

theorem cleanAll_bodyNodes {ps : List Piece} (hloose : Loose ps)
    (hclean : ∀ m, Piece.content m ∈ ps → m.Clean) : CleanAll (bodyNodes (joinSpaces ps)) := by
  refine cleanAll_iff.2 ⟨?_, chain_bodyNodes (loose_joinSpaces hloose)⟩
  intro m hm
  rcases mem_bodyNodes hm with hmark | hc
  · exact clean_of_isMarker hmark
  · exact hclean m (content_mem_joinSpaces.1 hc)

theorem not_comment_of_exposed {ns : List Written.Node}
    (h : ∀ k ∈ exposedAll ns, ∀ u, k ≠ .comment u) : ∀ n ∈ ns, ∀ u, n ≠ .comment u := by
  induction ns with
  | nil => simp
  | cons m ms ih =>
      intro n hn
      rcases List.mem_cons.1 hn with rfl | hn
      · exact h n (by simp [exposedAll, mem_exposed])
      · exact ih (fun k hk => h k (by simp [exposedAll, hk])) n hn

mutual
theorem clean_piecesOf (n : Written.Node) {after : Bytes} (hl : n.Legal after)
    (hn : ∀ k ∈ n.exposed, ∀ u, k ≠ .comment u) {m : Node} (hm : Piece.content m ∈ piecesOf n) :
    m.Clean := by
  cases n with
  | text t =>
      obtain ⟨x, rfl⟩ := content_of_mem_linePieces _ _ hm
      exact (unmarked_of_mem_linePieces t [] (unmarked_of_legal hl) hm).braces
  | comment t => simp [piecesOf] at hm
  | interpolation inner =>
      rw [piecesOf, List.mem_singleton] at hm
      cases hm
      trivial
  | selfClosed tag =>
      rw [piecesOf, List.mem_singleton] at hm
      cases hm
      exact .inr trivial
  | verbatim tag body =>
      rw [piecesOf, List.mem_singleton] at hm
      cases hm
      by_cases hs : ElementName.isSensitive tag.name = true
      · exact .inl hs
      · right
        rw [if_neg hs]
        rcases hollow_spacePieces body with h | ⟨b, h⟩
        · rw [h]
          trivial
        · rw [h]
          exact ⟨trivial, by simp, trivial⟩
  | element tag children =>
      rw [piecesOf, List.mem_singleton] at hm
      cases hm
      cases hs : ElementName.isSensitive tag.name with
      | true => exact .inl hs
      | false =>
          right
          simp only [Bool.false_eq_true, if_false]
          have hchildren : ∀ k ∈ exposedAll children, ∀ u, k ≠ .comment u := fun k hk =>
            hn k (exposed_element hs k hk)
          exact cleanAll_bodyNodes (loose_piecesAll hl.2 (not_comment_of_exposed hchildren))
            fun m hm => clean_piecesAll children hl.2 hchildren hm

theorem clean_piecesAll (ns : List Written.Node) {after : Bytes} (hl : LegalAll after ns)
    (hns : ∀ k ∈ exposedAll ns, ∀ u, k ≠ .comment u) {m : Node}
    (hm : Piece.content m ∈ piecesAll ns) : m.Clean := by
  cases ns with
  | nil => simp [piecesAll] at hm
  | cons n ns =>
      rw [piecesAll, List.mem_append] at hm
      rcases hm with hm | hm
      · exact clean_piecesOf n hl.1 (fun k hk => hns k (by simp [exposedAll, hk])) hm
      · exact clean_piecesAll ns hl.2 (fun k hk => hns k (by simp [exposedAll, hk])) hm
end

theorem clean_ofWritten {ns : List Written.Node} (hl : LegalAll [] ns) (hns : Uncommented ns) :
    CleanAll (ofWritten ns) := by
  refine cleanAll_iff.2 ⟨?_, chain_documentNodes (apart_joinSpaces _)
    (loose_joinSpaces (loose_piecesAll hl (not_comment_of_exposed hns)))⟩
  intro m hm
  rcases mem_documentNodes (apart_joinSpaces _) hm with hmark | hc
  · exact clean_of_isMarker hmark
  · exact clean_piecesAll ns hl hns (content_mem_joinSpaces.1 hc)

end MarkupFormat.Document
