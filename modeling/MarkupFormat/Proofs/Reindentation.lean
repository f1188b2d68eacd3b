import MarkupFormat.Bytes.Line
import MarkupFormat.Expression.Mode
import MarkupFormat.Proofs.Lines

namespace MarkupFormat.Bytes

open Expression

def startsEmptyLine : Bytes → Bool
  | [] => true
  | [c] => c = Byte.lf || c = Byte.cr
  | c :: d :: _ => c = Byte.lf || (c = Byte.cr && d = Byte.lf)

def endsLine : Bytes → Bool
  | [] => true
  | c :: _ => c = Byte.lf

def relay (newline pad : Bytes) : Bytes → Bytes
  | [] => []
  | c :: t =>
      if c = Byte.lf then newline ++ (if startsEmptyLine t then [] else pad) ++ relay newline pad t
      else if c = Byte.cr && endsLine t then relay newline pad t
      else c :: relay newline pad t

def Flat (t : Bytes) : Prop :=
  ∀ c ∈ t, c ≠ Byte.lf ∧ c ≠ Byte.cr

instance (t : Bytes) : Decidable (Flat t) :=
  List.decidableBAll (fun c => c ≠ Byte.lf ∧ c ≠ Byte.cr) t

theorem flat_append {t u : Bytes} : Flat (t ++ u) ↔ Flat t ∧ Flat u := List.forall_mem_append

theorem flat_cons {c : UInt8} {t : Bytes} : Flat (c :: t) ↔ (c ≠ Byte.lf ∧ c ≠ Byte.cr) ∧ Flat t :=
  List.forall_mem_cons

theorem flat_nil : Flat [] := nofun

theorem flat_iff {t : Bytes} : Flat t ↔ Byte.lf ∉ t ∧ Byte.cr ∉ t := by
  constructor
  · intro h
    exact ⟨fun hlf => (h _ hlf).1 rfl, fun hcr => (h _ hcr).2 rfl⟩
  · rintro ⟨hlf, hcr⟩ c hc
    constructor
    · rintro rfl
      exact hlf hc
    · rintro rfl
      exact hcr hc

section Relay

variable {newline pad : Bytes}

theorem relay_lf (t : Bytes) : relay newline pad (Byte.lf :: t) =
    newline ++ (if startsEmptyLine t then [] else pad) ++ relay newline pad t := rfl

theorem relay_cr {t : Bytes} (h : endsLine t = true) :
    relay newline pad (Byte.cr :: t) = relay newline pad t := by
  rw [relay, if_neg (by decide), if_pos (by simp [h])]

theorem relay_keep {c : UInt8} {t : Bytes} (hlf : c ≠ Byte.lf)
    (hcr : ¬(c = Byte.cr ∧ endsLine t = true)) :
    relay newline pad (c :: t) = c :: relay newline pad t := by
  rw [relay, if_neg hlf, if_neg (by simpa using hcr)]

theorem relay_cons {c : UInt8} {t : Bytes} (hlf : c ≠ Byte.lf) (hcr : c ≠ Byte.cr) :
    relay newline pad (c :: t) = c :: relay newline pad t :=
  relay_keep hlf fun h => hcr h.1

theorem relay_cases (c : UInt8) (t : Bytes) :
    c = Byte.lf ∨ (c = Byte.cr ∧ endsLine t = true) ∨
      (c ≠ Byte.lf ∧ ¬(c = Byte.cr ∧ endsLine t = true)) := by
  by_cases hc : c = Byte.lf
  · exact .inl hc
  · by_cases hr : c = Byte.cr ∧ endsLine t = true
    · exact .inr (.inl hr)
    · exact .inr (.inr ⟨hc, hr⟩)

theorem dropReturn_cons {c : UInt8} {l : Bytes} (h : l = [] → c ≠ Byte.cr) :
    dropReturn (c :: l) = c :: dropReturn l := by
  cases l with
  | nil => simp [dropReturn, h rfl]
  | cons d l =>
      simp only [dropReturn, List.getLast?_cons_cons]
      split <;> rfl

theorem lines_cons_ne {c : UInt8} {t l : Bytes} {ls : List Bytes} (hc : c ≠ Byte.lf)
    (h : lines t = l :: ls) : lines (c :: t) = (c :: l) :: ls := by
  simp only [lines] at h ⊢
  simp [split, hc, h]

theorem startsEmptyLine_iff {t l : Bytes} {ls : List Bytes} (h : lines t = l :: ls) :
    startsEmptyLine t = true ↔ dropReturn l = [] := by
  cases t with
  | nil =>
      have hl : l = [] := by simpa [lines, split, eq_comm] using congrArg List.head? h
      simp [startsEmptyLine, hl, dropReturn]
  | cons c t =>
      by_cases hc : c = Byte.lf
      · have hl : l = [] := by simpa [lines, split, hc, eq_comm] using congrArg List.head? h
        cases t <;> simp [startsEmptyLine, hc, hl, dropReturn]
      · obtain ⟨m, ms, hm⟩ := List.exists_cons_of_ne_nil (split_ne_nil Byte.lf t)
        rw [lines_cons_ne hc hm] at h
        simp only [List.cons.injEq] at h
        obtain ⟨rfl, rfl⟩ := h
        cases t with
        | nil =>
            simp only [split, List.cons.injEq] at hm
            obtain ⟨rfl, rfl⟩ := hm
            by_cases hr : c = Byte.cr <;> simp [startsEmptyLine, hc, hr, dropReturn]
        | cons d t =>
            by_cases hd : d = Byte.lf
            · have hm' : m = [] := by simpa [split, hd, eq_comm] using congrArg List.head? hm
              by_cases hr : c = Byte.cr <;> simp [startsEmptyLine, hc, hd, hr, hm', dropReturn]
            · have hm' : m ≠ [] := by
                rintro rfl
                simp only [split, hd, if_false] at hm
                cases hs : split Byte.lf t <;> simp [hs] at hm
              rw [dropReturn_cons (fun h => absurd h hm')]
              simp [startsEmptyLine, hc, hd]

theorem indentLine_eq {t l : Bytes} {ls : List Bytes} (h : lines t = l :: ls) :
    indentLine pad (dropReturn l) =
      (if startsEmptyLine t then [] else pad) ++ dropReturn l := by
  simp only [indentLine, startsEmptyLine_iff h]
  split
  · next he => rw [he]; rfl
  · rfl

def laidLines (newline pad : Bytes) (ls : List Bytes) : Bytes :=
  ls.flatMap fun l => newline ++ indentLine pad (dropReturn l)

theorem relay_eq_lines (t : Bytes) : ∀ l ls, lines t = l :: ls →
    relay newline pad t = dropReturn l ++ laidLines newline pad ls := by
  induction t with
  | nil =>
      intro l ls h
      simp only [lines, split, List.cons.injEq] at h
      obtain ⟨rfl, rfl⟩ := h
      rfl
  | cons c t ih =>
      intro l ls h
      obtain ⟨m, ms, hm⟩ := List.exists_cons_of_ne_nil (split_ne_nil Byte.lf t)
      have ih := ih m ms hm
      rcases relay_cases c t with rfl | ⟨rfl, hr⟩ | ⟨hc, hr⟩
      · have hl : lines (Byte.lf :: t) = [] :: m :: ms := by simp [lines, split, hm]
        rw [hl] at h
        cases h
        have hlay : laidLines newline pad (m :: ms) =
            newline ++ indentLine pad (dropReturn m) ++ laidLines newline pad ms := by
          simp [laidLines]
        rw [relay_lf, ih, hlay, indentLine_eq hm]
        simp [dropReturn]
      · rw [lines_cons_ne (by decide) hm] at h
        cases h
        have hm' : m = [] := by
          cases t with
          | nil => simpa [split, eq_comm] using congrArg List.head? hm
          | cons d t =>
              have hd : d = Byte.lf := by simpa [endsLine] using hr
              simpa [split, hd, eq_comm] using congrArg List.head? hm
        rw [relay_cr hr, ih, hm']
        simp [dropReturn]
      · rw [lines_cons_ne hc hm] at h
        cases h
        have hm' : m = [] → c ≠ Byte.cr := by
          rintro rfl rfl
          refine hr ⟨rfl, ?_⟩
          cases t with
          | nil => rfl
          | cons d t =>
              by_cases hd : d = Byte.lf
              · simp [endsLine, hd]
              · simp only [split, hd, if_false] at hm
                cases hs : split Byte.lf t <;> simp [hs] at hm
        rw [relay_keep hc hr, ih, dropReturn_cons hm']
        rfl

theorem reindent_eq_relay (t : Bytes) : reindent newline pad t = relay newline pad t := by
  obtain ⟨l, ls, h⟩ := List.exists_cons_of_ne_nil (split_ne_nil Byte.lf t)
  have hl : lines t = l :: ls := h
  have hjoin : ∀ (ls : List Bytes) (m : Bytes),
      newline.intercalate (m :: ls) = m ++ ls.flatMap fun l => newline ++ l := by
    intro ls
    induction ls with
    | nil => simp
    | cons k ls ih =>
        intro m
        rw [List.intercalate_cons_cons, ih]
        simp
  rw [relay_eq_lines t l ls hl, reindent, hl]
  simp only [List.map_cons, hjoin, laidLines]
  simp [List.flatMap_map]

theorem relay_append_left {a u : Bytes} (ha : Flat a) :
    relay newline pad (a ++ u) = a ++ relay newline pad u := by
  induction a with
  | nil => rfl
  | cons c a ih =>
      have hc := ha c (by simp)
      rw [List.cons_append, relay_cons hc.1 hc.2, ih fun d hd => ha d (by simp [hd])]
      rfl

def EndsInLine (t : Bytes) : Prop :=
  t.getLast? ≠ some Byte.lf ∧ t.getLast? ≠ some Byte.cr

theorem EndsInLine.tail {c d : UInt8} {t : Bytes} (h : EndsInLine (c :: d :: t)) :
    EndsInLine (d :: t) := by
  simpa [EndsInLine, List.getLast?_cons_cons] using h

theorem startsEmptyLine_append {t u : Bytes} (h : EndsInLine t) (ht : t ≠ []) :
    startsEmptyLine (t ++ u) = startsEmptyLine t := by
  cases t with
  | nil => exact absurd rfl ht
  | cons c t =>
      cases t with
      | nil =>
          have hc : c ≠ Byte.lf ∧ c ≠ Byte.cr := by simpa [EndsInLine] using h
          cases u <;> simp [startsEmptyLine, hc.1, hc.2]
      | cons d t => rfl

theorem relay_append {t u : Bytes} (h : EndsInLine t) :
    relay newline pad (t ++ u) = relay newline pad t ++ relay newline pad u := by
  induction t with
  | nil => rfl
  | cons c t ih =>
      cases t with
      | nil =>
          have hc : c ≠ Byte.lf ∧ c ≠ Byte.cr := by simpa [EndsInLine] using h
          rw [List.cons_append, relay_cons hc.1 hc.2, relay_cons hc.1 hc.2]
          rfl
      | cons d t =>
          have hd := h.tail
          have ih := ih hd
          have hs := startsEmptyLine_append (u := u) hd (by simp)
          rw [List.cons_append, relay, relay]
          simp only [hs, ih]
          have he : endsLine ((d :: t) ++ u) = endsLine (d :: t) := rfl
          rw [he]
          split
          · simp
          · split <;> simp

theorem relay_of_no_break {t : Bytes} (hlf : Byte.lf ∉ t) (hcr : t.getLast? ≠ some Byte.cr) :
    relay newline pad t = t := by
  induction t with
  | nil => rfl
  | cons c t ih =>
      simp only [List.mem_cons, not_or] at hlf
      cases t with
      | nil =>
          have hc : c ≠ Byte.cr := by simpa using hcr
          exact relay_cons (Ne.symm hlf.1) hc
      | cons d t =>
          rw [List.getLast?_cons_cons] at hcr
          have hd : d ≠ Byte.lf := by
            rintro rfl
            exact hlf.2 (by simp)
          rw [relay_keep (Ne.symm hlf.1) (by simp [endsLine, hd]), ih hlf.2 hcr]

theorem relay_ne_nil {t : Bytes} (hne : newline ≠ []) (ht : t ≠ [])
    (hcr : t.getLast? ≠ some Byte.cr) : relay newline pad t ≠ [] := by
  cases t with
  | nil => exact absurd rfl ht
  | cons c t =>
      rcases relay_cases c t with rfl | ⟨rfl, hr⟩ | ⟨hc, hr⟩
      · simp [relay_lf, hne]
      · cases t with
        | nil => simp at hcr
        | cons d t =>
            have hd : d = Byte.lf := by simpa [endsLine] using hr
            rw [relay_cr hr, hd, relay_lf]
            simp [hne]
      · simp [relay_keep hc hr]

end Relay

theorem allBlank_lead {newline pad : Bytes} (hnb : allBlank newline = true)
    (hpb : allBlank pad = true) (t : Bytes) :
    allBlank (newline ++ if startsEmptyLine t then [] else pad) = true := by
  rw [allBlank_append, hnb]
  split
  · rfl
  · exact hpb

def closesString (m : Mode) : Bytes → Bool
  | [] => false
  | c :: t => if m.next c = .code then t = [] else closesString (m.next c) t

theorem Mode.next_blank {m : Mode} {c : UInt8} (hm : m ≠ .code) (hc : isBlank c = true) :
    m.next c = .quoted := by
  have hb : c ≠ Byte.backslash := by
    rintro rfl
    exact absurd hc (by decide)
  have hq : c ≠ Byte.quote := by
    rintro rfl
    exact absurd hc (by decide)
  cases m with
  | code => exact absurd rfl hm
  | quoted => simp [Mode.next, hb, hq]
  | escaped => rfl

theorem closesString_blank {m : Mode} {c : UInt8} {t : Bytes} (hm : m ≠ .code)
    (hc : isBlank c = true) : closesString m (c :: t) = closesString .quoted t := by
  simp [closesString, Mode.next_blank hm hc]

theorem closesString_blanks {w t : Bytes} {m : Mode} (hm : m ≠ .code) (hw : w ≠ [])
    (hb : allBlank w = true) : closesString m (w ++ t) = closesString .quoted t := by
  induction w generalizing m with
  | nil => exact absurd rfl hw
  | cons c w ih =>
      simp only [allBlank_cons, Bool.and_eq_true] at hb
      rw [List.cons_append, closesString_blank hm hb.1]
      cases w with
      | nil => rfl
      | cons d w => exact ih (by decide) (by simp) hb.2

theorem closesString_relay {newline pad : Bytes} (hne : newline ≠ [])
    (hnb : allBlank newline = true) (hpb : allBlank pad = true) (t : Bytes) :
    t.getLast? ≠ some Byte.cr → ∀ m, m ≠ Mode.code →
      closesString m (relay newline pad t) = closesString m t := by
  induction t with
  | nil => intro _ m _; rfl
  | cons c t ih =>
      intro hcr m hm
      have hcrt : t.getLast? ≠ some Byte.cr := by
        cases t with
        | nil => simp
        | cons d t => simpa [List.getLast?_cons_cons] using hcr
      rcases relay_cases c t with rfl | ⟨rfl, hr⟩ | ⟨hc, hr⟩
      · rw [relay_lf, closesString_blanks hm (by simp [hne]) (allBlank_lead hnb hpb t),
          ih hcrt _ (by decide), closesString_blank hm isBlank_lf]
      · -- the carriage return goes with the line feed after it
        cases t with
        | nil => simp at hcr
        | cons d t =>
            have hd : d = Byte.lf := by simpa [endsLine] using hr
            rw [relay_cr hr, ih hcrt m hm, hd, closesString_blank hm isBlank_lf,
              closesString_blank hm isBlank_cr, closesString_blank (by decide) isBlank_lf]
      · rw [relay_keep hc hr]
        simp only [closesString]
        split
        · cases t with
          | nil => rfl
          | cons d t => simp [relay_ne_nil hne (t := d :: t) (by simp) hcrt]
        · next hnext => exact ih hcrt _ hnext

def staysOpen (m : Mode) : Bytes → Bool
  | [] => true
  | c :: t => m.next c ≠ .code && staysOpen (m.next c) t

theorem closes_or_staysOpen (t : Bytes) : ∀ m : Mode,
    (∃ s u, t = s ++ u ∧ closesString m s = true) ∨ staysOpen m t = true := by
  induction t with
  | nil => exact fun _ => .inr rfl
  | cons c t ih =>
      intro m
      by_cases hc : m.next c = .code
      · exact .inl ⟨[c], t, rfl, by simp [closesString, hc]⟩
      · rcases ih (m.next c) with ⟨s, u, rfl, hs⟩ | hopen
        · exact .inl ⟨c :: s, u, rfl, by simpa [closesString, hc] using hs⟩
        · exact .inr (by simp [staysOpen, hc, hopen])

theorem staysOpen_blank {m : Mode} {c : UInt8} {t : Bytes} (hm : m ≠ .code)
    (hc : isBlank c = true) : staysOpen m (c :: t) = staysOpen .quoted t := by
  simp [staysOpen, Mode.next_blank hm hc]

theorem staysOpen_blanks {w t : Bytes} {m : Mode} (hm : m ≠ .code) (hw : w ≠ [])
    (hb : allBlank w = true) : staysOpen m (w ++ t) = staysOpen .quoted t := by
  induction w generalizing m with
  | nil => exact absurd rfl hw
  | cons c w ih =>
      simp only [allBlank_cons, Bool.and_eq_true] at hb
      rw [List.cons_append, staysOpen_blank hm hb.1]
      cases w with
      | nil => rfl
      | cons d w => exact ih (by decide) (by simp) hb.2

theorem staysOpen_of_allBlank {w : Bytes} {m : Mode} (hm : m ≠ .code) (hb : allBlank w = true) :
    staysOpen m w = true := by
  by_cases hw : w = []
  · rw [hw]
    rfl
  · have hblanks := staysOpen_blanks (t := []) hm hw hb
    rwa [List.append_nil] at hblanks

theorem staysOpen_relay {newline pad : Bytes} (hne : newline ≠ []) (hnb : allBlank newline = true)
    (hpb : allBlank pad = true) (t : Bytes) : ∀ m, m ≠ Mode.code → staysOpen m t = true →
      staysOpen m (relay newline pad t) = true := by
  induction t with
  | nil => exact fun _ _ h => h
  | cons c t ih =>
      intro m hm h
      rcases relay_cases c t with rfl | ⟨rfl, hr⟩ | ⟨hc, hr⟩
      · rw [relay_lf, staysOpen_blanks hm (by simp [hne]) (allBlank_lead hnb hpb t)]
        rw [staysOpen_blank hm isBlank_lf] at h
        exact ih _ (by decide) h
      · rw [relay_cr hr]
        refine ih m hm ?_
        -- the carriage return is at the end, or before a line feed that also leaves the string open
        cases t with
        | nil => rfl
        | cons d t =>
            have hd : d = Byte.lf := by simpa [endsLine] using hr
            subst hd
            rw [staysOpen_blank hm isBlank_lf]
            rwa [staysOpen_blank hm isBlank_cr, staysOpen_blank (by decide) isBlank_lf] at h
      · rw [relay_keep hc hr]
        simp only [staysOpen, Bool.and_eq_true, decide_eq_true_eq] at h ⊢
        exact ⟨h.1, ih _ h.1 h.2⟩

end MarkupFormat.Bytes
