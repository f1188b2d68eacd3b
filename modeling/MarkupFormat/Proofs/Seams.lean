import MarkupFormat.Proofs.Outcomes

namespace MarkupFormat.Document

open Bytes
open Written (startsSolid)

def EndsSolid (t : Bytes) : Prop :=
  ∀ c ∈ t.getLast?, isBlank c = false

instance (t : Bytes) : Decidable (EndsSolid t) :=
  decidable_of_iff (t.getLast?.any isBlank = false) (by cases h : t.getLast? <;> simp [EndsSolid, h])

theorem EndsSolid.tail {c : UInt8} {t : Bytes} (h : EndsSolid (c :: t)) : EndsSolid t := by
  intro d hd
  refine h d ?_
  rw [List.getLast?_cons, Option.mem_def.1 hd]
  rfl

theorem EndsSolid.suffix {m t : Bytes} (h : EndsSolid (m ++ t)) : EndsSolid t := by
  induction m with
  | nil => exact h
  | cons c m ih => exact ih h.tail

theorem EndsSolid.ne_nil {m t : Bytes} (h : EndsSolid (m ++ t)) (hm : m ≠ [])
    (hb : allBlank m = true) : t ≠ [] := by
  rintro rfl
  rw [List.append_nil] at h
  have hlast := List.getLast?_eq_getLast_of_ne_nil hm
  have hblank := List.all_eq_true.1 hb _ (List.getLast_mem hm)
  rw [h _ hlast] at hblank
  cases hblank

theorem exists_blank_start (t : Bytes) :
    ∃ m u, t = m ++ u ∧ allBlank m = true ∧ startsSolid u = true := by
  induction t with
  | nil => exact ⟨[], [], rfl, rfl, rfl⟩
  | cons c t ih =>
      cases hc : isBlank c with
      | false => exact ⟨[], c :: t, rfl, rfl, by simp [startsSolid, hc]⟩
      | true =>
          obtain ⟨m, u, rfl, hm, hu⟩ := ih
          exact ⟨c :: m, u, rfl, by rw [allBlank_cons, hc, hm]; rfl, hu⟩

theorem exists_blank_end (t : Bytes) :
    ∃ v m, t = v ++ m ∧ EndsSolid v ∧ allBlank m = true := by
  induction t using List.reverseRecOn with
  | nil => exact ⟨[], [], rfl, by simp [EndsSolid], rfl⟩
  | append_singleton t c ih =>
      cases hc : isBlank c with
      | false => exact ⟨t ++ [c], [], by simp, by simpa [EndsSolid] using hc, rfl⟩
      | true =>
          obtain ⟨v, m, rfl, hv, hm⟩ := ih
          refine ⟨v, m ++ [c], by simp, hv, ?_⟩
          rw [allBlank_append, hm, allBlank_cons, hc]
          rfl

theorem linePieces_append {v : Bytes} (hv : EndsSolid v) : ∀ line, ∃ ps line',
    (line ++ v ≠ [] → line' ≠ []) ∧
      ∀ s, linePieces line (runs (v ++ s)) = ps ++ linePieces line' (runs s) := by
  induction v using blank_induction with
  | nil => exact fun line => ⟨[], line, by simp, fun s => rfl⟩
  | solid c t hc ih =>
      intro line
      obtain ⟨ps, line', hne, h⟩ := ih hv.tail (line ++ [c])
      exact ⟨ps, line', fun _ => hne (by simp), fun s => by
        rw [List.cons_append, linePieces_solid hc, h]⟩
  | blank m t hm hb ht ih =>
      intro line
      have hne : t ≠ [] := hv.ne_nil hm hb
      have hrest : ∀ s, startsSolid (t ++ s) = true := fun s => by
        rw [startsSolid_append hne, ht]
      by_cases hbreak : line = [] ∨ Byte.lf ∈ m
      · obtain ⟨ps, line', hline, h⟩ := ih hv.suffix []
        refine ⟨textPieces line ++ spacePieces m ++ ps, line', fun _ => hline (by simpa using hne), ?_⟩
        intro s
        rw [List.append_assoc, linePieces_blank hm hb (hrest s), if_pos (by tauto), h]
        simp
      · obtain ⟨ps, line', hline, h⟩ := ih hv.suffix (line ++ [Byte.space])
        refine ⟨ps, line', fun _ => hline (by simp), ?_⟩
        intro s
        have hcont : ¬(line = [] ∨ t ++ s = [] ∨ Byte.lf ∈ m) := by simp [hne]; tauto
        rw [List.append_assoc, linePieces_blank hm hb (hrest s), if_neg hcont, h]

theorem linePieces_break {v m u : Bytes} (hv : EndsSolid v) (hb : allBlank m = true)
    (hu : startsSolid u = true) (hbreak : u = [] ∨ Byte.lf ∈ m) :
    linePieces [] (runs (v ++ (m ++ u))) =
      linePieces [] (runs v) ++ spacePieces m ++ linePieces [] (runs u) := by
  by_cases hm : m = []
  · subst hm
    have hnil : u = [] := hbreak.resolve_right (by simp)
    subst hnil
    simp [runs, linePieces, textPieces, spacePieces]
  · obtain ⟨ps, line, -, h⟩ := linePieces_append hv []
    have hself := h []
    rw [List.append_nil] at hself
    rw [h, hself, linePieces_blank hm hb hu, if_pos (.inr hbreak)]
    simp [runs, linePieces]

theorem linePieces_starts (rs : List Bytes) : ∀ {line}, line ≠ [] →
    ∃ n ps, linePieces line rs = .content n :: ps := by
  induction rs with
  | nil => exact fun {line} hline => ⟨.text line, [], by rw [linePieces, textPieces, if_neg hline]⟩
  | cons r rs ih =>
      intro line hline
      rw [linePieces]
      split
      · exact ih (by simp [hline])
      · split
        · exact ⟨.text line, _, by rw [textPieces, if_neg hline]; rfl⟩
        · exact ih (by simp)

theorem linePieces_ends {t : Bytes} (ht : EndsSolid t) (hne : t ≠ []) :
    ∃ ps n, linePieces [] (runs t) = ps ++ [.content n] := by
  obtain ⟨ps, line, hline, h⟩ := linePieces_append ht []
  have hself := h []
  rw [List.append_nil] at hself
  exact ⟨ps, .text line, by rw [hself, runs, List.foldr_nil, linePieces, textPieces,
    if_neg (hline (by simpa using hne))]⟩

theorem joinSpaces_content (ps : List Piece) (n : Node) (qs : List Piece) :
    joinSpaces (ps ++ .content n :: qs) = joinSpaces ps ++ .content n :: joinSpaces qs := by
  induction ps with
  | nil => rfl
  | cons p ps ih =>
      change consPiece p (joinSpaces (ps ++ _)) = consPiece p (joinSpaces ps) ++ _
      rw [ih]
      cases p with
      | content m => rfl
      | space b =>
          cases joinSpaces ps with
          | nil => rfl
          | cons q qs => cases q <;> rfl

theorem trailingNodes_content (ps : List Piece) (n : Node) (qs : List Piece) :
    trailingNodes (ps ++ .content n :: qs) =
      ps.map (Piece.node .betweenSiblings) ++ n :: trailingNodes qs := by
  induction ps with
  | nil => rfl
  | cons p ps ih =>
      cases p with
      | content m => exact congrArg (m :: ·) ih
      | space b =>
          cases ps with
          | nil => rfl
          | cons q qs => exact congrArg (Node.marker .betweenSiblings b :: ·) ih

theorem documentNodes_content (ps : List Piece) (n : Node) : ∃ front, ∀ qs,
    (documentNodes (ps ++ .content n :: qs)).tail = front ++ n :: trailingNodes qs := by
  cases ps with
  | nil => exact ⟨[], fun qs => rfl⟩
  | cons p ps =>
      cases p with
      | content m => exact ⟨_, fun qs => trailingNodes_content (.content m :: ps) n qs⟩
      | space b => exact ⟨_, fun qs => trailingNodes_content ps n qs⟩

theorem exists_last_content (ps : List Piece) :
    (∀ p ∈ ps, p.isSpace = true) ∨
      ∃ qs n rs, ps = qs ++ .content n :: rs ∧ ∀ p ∈ rs, p.isSpace = true := by
  induction ps with
  | nil => exact .inl (by simp)
  | cons p ps ih =>
      rcases ih with hspaces | ⟨qs, n, rs, rfl, hspaces⟩
      · cases p with
        | space b => exact .inl (List.forall_mem_cons.2 ⟨rfl, hspaces⟩)
        | content n => exact .inr ⟨[], n, ps, rfl, hspaces⟩
      · exact .inr ⟨p :: qs, n, rs, rfl, hspaces⟩

theorem trailingNodes_spaces {ps : List Piece} (h : ∀ p ∈ ps, p.isSpace = true) :
    trailingNodes (joinSpaces ps) = [] ∧ (documentNodes (joinSpaces ps)).tail = [] := by
  have hjoin : joinSpaces ps = [] ∨ ∃ b, joinSpaces ps = [.space b] := by
    induction ps with
    | nil => exact .inl rfl
    | cons p ps ih =>
        obtain ⟨hp, hps⟩ := List.forall_mem_cons.1 h
        cases p with
        | content n => cases hp
        | space b =>
            right
            change ∃ c, consPiece (.space b) (joinSpaces ps) = [.space c]
            obtain hnil | ⟨c, hc⟩ := ih hps
            · exact ⟨b, by rw [hnil]; rfl⟩
            · exact ⟨b || c, by rw [hc]; rfl⟩
  obtain hnil | ⟨b, hb⟩ := hjoin
  · rw [hnil]
    exact ⟨rfl, rfl⟩
  · rw [hb]
    exact ⟨rfl, rfl⟩

theorem documentNodes_cons_space (b : Bool) (ps : List Piece) :
    (documentNodes (joinSpaces (.space b :: ps))).tail = (documentNodes (joinSpaces ps)).tail := by
  change (documentNodes (consPiece (.space b) (joinSpaces ps))).tail = _
  cases joinSpaces ps with
  | nil => rfl
  | cons q qs => cases q <;> rfl

theorem documentNodes_append_space (ps : List Piece) (b : Bool) :
    (documentNodes (joinSpaces (ps ++ [.space b]))).tail = (documentNodes (joinSpaces ps)).tail := by
  have hadd : ∀ rs : List Piece, (∀ p ∈ rs, p.isSpace = true) →
      ∀ p ∈ rs ++ [.space b], p.isSpace = true := by
    intro rs hrs
    exact List.forall_mem_append.2 ⟨hrs, List.forall_mem_singleton.2 rfl⟩
  obtain hspaces | ⟨qs, n, rs, rfl, hspaces⟩ := exists_last_content ps
  · rw [(trailingNodes_spaces hspaces).2, (trailingNodes_spaces (hadd ps hspaces)).2]
  · obtain ⟨front, hfront⟩ := documentNodes_content (joinSpaces qs) n
    rw [List.append_assoc, List.cons_append, joinSpaces_content, joinSpaces_content, hfront, hfront,
      (trailingNodes_spaces hspaces).1, (trailingNodes_spaces (hadd rs hspaces)).1]

theorem documentNodes_seam (ps qs : List Piece) (m n : Node) (b : Bool) :
    (documentNodes (joinSpaces ((ps ++ [.content m]) ++ .space b :: .content n :: qs))).tail =
      (documentNodes (joinSpaces (ps ++ [.content m]))).tail ++
        .marker .betweenSiblings b :: (documentNodes (joinSpaces (.content n :: qs))).tail := by
  obtain ⟨front, hfront⟩ := documentNodes_content (joinSpaces ps) m
  have hspace : joinSpaces (.space b :: .content n :: qs) = .space b :: .content n :: joinSpaces qs :=
    joinSpaces_content [.space b] n qs
  have hcontent : joinSpaces (.content n :: qs) = .content n :: joinSpaces qs := rfl
  rw [List.append_assoc, List.singleton_append, joinSpaces_content, joinSpaces_content, hfront, hfront,
    hspace, hcontent]
  simp [trailingNodes, documentNodes, joinSpaces]

end MarkupFormat.Document

namespace MarkupFormat.Written

open Bytes Layout Document
open Document hiding Node

def consNode : Node → List Node → List Node
  | .text t, ns => consText t ns
  | n, ns => n :: ns

def across (w : Bytes) (ms ns : List Node) : List Node :=
  ms.foldr consNode (consText w ns)

theorem consNode_cases (n : Node) :
    (∃ t, n = .text t ∧ ∀ ns, consNode n ns = consText t ns) ∨
      ((∀ t, n ≠ .text t) ∧ ∀ ns, consNode n ns = n :: ns) := by
  cases n with
  | text t => exact .inl ⟨t, rfl, fun _ => rfl⟩
  | comment t => exact .inr ⟨by simp, fun _ => rfl⟩
  | interpolation inner => exact .inr ⟨by simp, fun _ => rfl⟩
  | selfClosed tag => exact .inr ⟨by simp, fun _ => rfl⟩
  | verbatim tag body => exact .inr ⟨by simp, fun _ => rfl⟩
  | element tag children => exact .inr ⟨by simp, fun _ => rfl⟩

theorem consText_consText (t u : Bytes) (ns : List Node) :
    consText t (consText u ns) = consText (t ++ u) ns := by
  rcases consText_cases u ns with ⟨v, vs, rfl, h⟩ | ⟨hno, h⟩
  · rw [h]
    simp [consText]
  · rcases consText_cases (t ++ u) ns with ⟨v, vs, rfl, -⟩ | ⟨-, h'⟩
    · exact absurd rfl (hno v vs)
    · rw [h, h']
      rfl

theorem writeAll_across (w : Bytes) (ms ns : List Node) :
    writeAll (across w ms ns) = writeAll ms ++ (w ++ writeAll ns) := by
  induction ms with
  | nil => exact writeAll_consText w ns
  | cons m ms ih =>
      change writeAll (consNode m (across w ms ns)) = _
      rcases consNode_cases m with ⟨t, rfl, h⟩ | ⟨-, h⟩
      · rw [h, writeAll_consText, ih, writeAll, Node.write, List.append_assoc]
      · rw [h, writeAll, ih, writeAll, List.append_assoc]

theorem coveredAll_across {w : Bytes} {ms ns : List Node} :
    CoveredAll (across w ms ns) ↔ CoveredAll ms ∧ CoveredAll ns := by
  induction ms with
  | nil => simp [across, coveredAll_consText, CoveredAll]
  | cons m ms ih =>
      change CoveredAll (consNode m (across w ms ns)) ↔ _
      rcases consNode_cases m with ⟨t, rfl, h⟩ | ⟨-, h⟩
      · rw [h, coveredAll_consText, ih, CoveredAll, Node.Covered, true_and]
      · rw [h, CoveredAll, CoveredAll, ih, and_assoc]

theorem Node.Legal.anywhere {n : Node} {r : Bytes} (h : n.Legal r) (hn : ∀ t, n ≠ .text t)
    (r' : Bytes) : n.Legal r' := by
  cases n with
  | text t => exact absurd rfl (hn t)
  | comment t => exact h
  | interpolation inner => exact h
  | selfClosed tag => exact h
  | verbatim tag body => exact h
  | element tag children => exact ⟨h.1, h.2.alike (alike_of_less (.inr rfl) (.inr rfl))⟩

theorem legalAll_across {w : Bytes} (hw : w ≠ []) (hb : allBlank w = true) {ms ns : List Node}
    (hms : LegalAll [] ms) (hns : LegalAll [] ns) : LegalAll [] (across w ms ns) := by
  have hbrace : Byte.openBrace ∉ w := notMem_of_allBlank hb (by decide)
  induction ms with
  | nil =>
      have hunmarked := unmarked_of_allBlank hb
      refine legalAll_consText (.inl rfl) hns hw hunmarked.less hunmarked.braces fun hlast => ?_
      exact absurd (List.mem_of_getLast? hlast) hbrace
  | cons m ms ih =>
      obtain ⟨hm, hms⟩ := hms
      have hrest := ih hms
      change LegalAll [] (consNode m (across w ms ns))
      rcases consNode_cases m with ⟨t, rfl, h⟩ | ⟨hno, h⟩
      · obtain ⟨hless, hbraces, hlast, -⟩ := cutAt_startsMarkup_iff.1 hm.2
        rw [h]
        refine legalAll_consText (.inl rfl) hrest hm.1 hless hbraces fun hend => ?_
        -- the text is followed by what followed it before, or by whitespace
        rw [writeAll_across, List.append_nil]
        have hbefore := hlast hend
        rw [List.append_nil] at hbefore
        cases hwrite : writeAll ms with
        | nil =>
            cases w with
            | nil => exact absurd rfl hw
            | cons c w =>
                intro hc
                exact hbrace (by simp at hc; simp [hc])
        | cons c r =>
            rw [hwrite] at hbefore
            exact hbefore
      · rw [h]
        exact ⟨hm.anywhere hno _, hrest⟩

theorem consText_cons {n : Node} (hn : ∀ t, n ≠ .text t) (t : Bytes) (ns : List Node) :
    consText t (n :: ns) = .text t :: n :: ns := by
  rcases consText_cases t (n :: ns) with ⟨u, us, h, -⟩ | ⟨-, h⟩
  · exact absurd (List.cons.inj h).1 (hn u)
  · exact h

theorem across_cons {after : Bytes} {m : Node} {ms : List Node} (h : LegalAll after (m :: ms))
    (hseam : ¬(ms = [] ∧ ∃ t, m = .text t)) (w : Bytes) (ns : List Node) :
    across w (m :: ms) ns = m :: across w ms ns := by
  change consNode m (across w ms ns) = _
  rcases consNode_cases m with ⟨t, rfl, hm⟩ | ⟨-, hm⟩
  · cases ms with
    | nil => exact absurd ⟨rfl, t, rfl⟩ hseam
    | cons n ms =>
        rcases consNode_cases n with ⟨u, rfl, -⟩ | ⟨hno, hn⟩
        · exact absurd h not_text_after_text
        · have hrest : across w (n :: ms) ns = n :: across w ms ns := hn _
          rw [hm, hrest, consText_cons hno]
  · exact hm _

theorem piecesAll_across {after : Bytes} {ms : List Node} (hms : LegalAll after ms) (ns : List Node) :
    ∃ ps t u qs, piecesAll ms = ps ++ linePieces [] (runs t) ∧
      piecesAll ns = linePieces [] (runs u) ++ qs ∧
      (∀ w, piecesAll (across w ms ns) = ps ++ linePieces [] (runs (t ++ (w ++ u))) ++ qs) ∧
      (t = [] ∨ ms.getLast? = some (.text t)) ∧ (u = [] ∨ ns.head? = some (.text u)) := by
  induction ms with
  | nil =>
      rcases consText_cases [] ns with ⟨u, vs, rfl, -⟩ | ⟨hno, -⟩
      · exact ⟨[], [], u, piecesAll vs, rfl, rfl, fun w => rfl, .inl rfl, .inr rfl⟩
      · refine ⟨[], [], [], piecesAll ns, rfl, rfl, fun w => ?_, .inl rfl, .inl rfl⟩
        rcases consText_cases w ns with ⟨u, vs, hns, -⟩ | ⟨-, h⟩
        · exact absurd hns (hno u vs)
        · rw [across, List.foldr_nil, h, piecesAll, piecesOf, List.append_nil]
          rfl
  | cons m ms ih =>
      obtain ⟨ps, t, u, qs, hps, hqs, hacross, ht, hu⟩ := ih hms.2
      have hlast : t = [] ∨ (m :: ms).getLast? = some (.text t) := by
        refine ht.imp_right fun h => ?_
        rw [List.getLast?_cons, h]
        rfl
      -- a text in front of the seam with nothing after it is itself a part of the seam
      by_cases hseam : ms = [] ∧ ∃ v, m = .text v
      · obtain ⟨rfl, v, rfl⟩ := hseam
        obtain ⟨rfl, hnil⟩ := List.append_eq_nil_iff.1 hps.symm
        obtain ⟨-, rfl⟩ := linePieces_eq_nil t [] hnil
        refine ⟨[], v, u, qs, by simp [piecesAll, piecesOf], hqs, fun w => ?_, .inr rfl, hu⟩
        have hw : across w [.text v] ns = across (v ++ w) [] ns := consText_consText v w ns
        rw [hw, hacross, List.append_assoc v]
        rfl
      · refine ⟨piecesOf m ++ ps, t, u, qs, by rw [piecesAll, hps, List.append_assoc], hqs,
          fun w => ?_, hlast, hu⟩
        rw [across_cons hms hseam, piecesAll, hacross]
        simp

end MarkupFormat.Written
