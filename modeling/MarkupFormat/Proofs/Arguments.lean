import MarkupFormat.Log.Config
import MarkupFormat.Proofs.Entries
import MarkupFormat.Proofs.FilterText

namespace MarkupFormat.Log

open Bytes

inductive Wish where
  | level (l : Level)
  | rules (t : Bytes)
  | file (t : Bytes)
  | format (f : Format)
  | verbosity (n : Nat)
  | noColor
  deriving DecidableEq, Repr

inductive Asks : Bytes → Wish → Prop
  | level {t : Bytes} {l : Level} : l.Meant t → Asks (ascii "--log-level=" ++ t) (.level l)
  | quiet : Asks (ascii "-q") (.level .error)
  | quietInFull : Asks (ascii "--quiet") (.level .error)
  | rules (t : Bytes) : Asks (ascii "--log-filter=" ++ t) (.rules t)
  | file (t : Bytes) : Asks (ascii "--log-file=" ++ t) (.file t)
  | json {t : Bytes} : t = ascii "json" ∨ t = ascii "JSON" → Asks (ascii "--log-format=" ++ t) (.format .json)
  | text {t : Bytes} : ¬(t = ascii "json" ∨ t = ascii "JSON") → Asks (ascii "--log-format=" ++ t) (.format .text)
  | verbose : Asks (ascii "--verbose") (.verbosity 1)
  | letters (n : Nat) : Asks (ascii "-" ++ List.replicate (n + 1) 118) (.verbosity (n + 1))
  | noColor : Asks (ascii "--no-color") .noColor

namespace Request

def only : Wish → Request
  | .level l => { empty with level := some l }
  | .rules t => { empty with rules := some t }
  | .file t => { empty with file := some t }
  | .format f => { empty with format := some f }
  | .verbosity n => { empty with verbosity := n }
  | .noColor => { empty with noColor := true }

def followedBy (r s : Request) : Request :=
  ⟨s.level.or r.level, s.rules.or r.rules, s.file.or r.file, s.format.or r.format,
    max r.verbosity s.verbosity, s.noColor || r.noColor⟩

theorem note_eq (r : Request) (a : Bytes) : r.note a = r.followedBy (empty.note a) := by
  unfold note
  split
  · simp [followedBy, empty]
  · simp [followedBy, empty]
  · simp [followedBy, empty]
  · simp [followedBy, empty]
  · split
    · simp [followedBy, empty]
    · split
      · simp [followedBy, empty]
      · split <;> simp [followedBy, empty]

theorem value?_eq_some_iff {option : String} {a t : Bytes} :
    value? option a = some t ↔ a = ascii option ++ t := by
  unfold value?
  split
  · next h =>
      obtain ⟨r, rfl⟩ := startsWith_iff.1 h
      simp
  · next h =>
      constructor
      · exact nofun
      · rintro rfl
        exact absurd (startsWith_iff.2 ⟨t, rfl⟩) h

theorem value?_other (option other : String) (h : ¬ascii option <+: ascii other)
    (h' : ¬ascii other <+: ascii option) (t : Bytes) : value? option (ascii other ++ t) = none := by
  rw [Option.eq_none_iff_forall_ne_some]
  intro u hu
  have heq := value?_eq_some_iff.1 hu
  have hprefix : ascii option <+: ascii other ++ t := ⟨u, heq.symm⟩
  rcases List.prefix_or_prefix_of_prefix hprefix (List.prefix_append _ t) with hp | hp
  · exact h hp
  · exact h' hp

theorem verboseCount_letters (n : Nat) : verboseCount (ascii "-" ++ List.replicate (n + 1) 118) = n + 1 := by
  have hall : (List.replicate (n + 1) (118 : UInt8)).all isVerboseByte = true := by
    simp [List.all_replicate, isVerboseByte]
  rw [List.replicate_succ] at hall ⊢
  have hdash : ascii "-" = [Byte.dash] := rfl
  simp [hdash, verboseCount, hall]

theorem eq_letters_of_verboseCount {a : Bytes} (h : verboseCount a ≠ 0) :
    ∃ n, a = ascii "-" ++ List.replicate (n + 1) 118 := by
  match a, h with
  | c :: d :: t, h =>
      by_cases hcd : (c = Byte.dash && (d :: t).all isVerboseByte) = true
      · simp only [Bool.and_eq_true, decide_eq_true_eq, List.all_eq_true, isVerboseByte] at hcd
        refine ⟨t.length, ?_⟩
        have hletters : d :: t = List.replicate (t.length + 1) 118 := List.eq_replicate_of_mem hcd.2
        rw [hcd.1, hletters]
        rfl
      · rw [verboseCount, if_neg hcd] at h
        exact absurd rfl h

theorem formatOfName_json {t : Bytes} (h : t = ascii "json" ∨ t = ascii "JSON") : formatOfName t = .json := by
  rw [formatOfName, if_pos (by simpa using h)]

theorem formatOfName_text {t : Bytes} (h : ¬(t = ascii "json" ∨ t = ascii "JSON")) :
    formatOfName t = .text := by
  rw [formatOfName, if_neg (by simpa using h)]

theorem letters_ne (t : Bytes) (h : t[1]? ≠ some 118) (n : Nat) :
    ascii "-" ++ List.replicate (n + 1) 118 ≠ t := by
  rintro rfl
  exact h rfl

theorem note_format (t : Bytes) : empty.note (ascii "--log-format=" ++ t) = only (.format (formatOfName t)) := by
  have hlevel := value?_other "--log-level=" "--log-format=" (by decide) (by decide) t
  have hrules := value?_other "--log-filter=" "--log-format=" (by decide) (by decide) t
  have hfile := value?_other "--log-file=" "--log-format=" (by decide) (by decide) t
  have hself : value? "--log-format=" (ascii "--log-format=" ++ t) = some t := value?_eq_some_iff.2 rfl
  simp only [note, hself, hlevel, hrules, hfile]
  rfl

theorem note_letters (n : Nat) :
    empty.note (ascii "-" ++ List.replicate (n + 1) 118) = only (.verbosity (n + 1)) := by
  have hlevel : value? "--log-level=" (ascii "-" ++ List.replicate (n + 1) 118) = none := rfl
  have hrules : value? "--log-filter=" (ascii "-" ++ List.replicate (n + 1) 118) = none := rfl
  have hfile : value? "--log-file=" (ascii "-" ++ List.replicate (n + 1) 118) = none := rfl
  have hformat : value? "--log-format=" (ascii "-" ++ List.replicate (n + 1) 118) = none := rfl
  have hcolor := letters_ne (ascii "--no-color") (by decide) n
  have hquiet := letters_ne (ascii "-q") (by decide) n
  have hfull := letters_ne (ascii "--quiet") (by decide) n
  have hverbose := letters_ne (ascii "--verbose") (by decide) n
  simp only [note, hlevel, hrules, hfile, hformat, hcolor, hquiet, hfull, hverbose, verboseCount_letters]
  simp [only, empty]

theorem note_of_asks {a : Bytes} {w : Wish} (h : Asks a w) : empty.note a = only w := by
  have hself : ∀ option t, value? option (ascii option ++ t) = some t := fun _ _ => value?_eq_some_iff.2 rfl
  cases h with
  | @level t l hl =>
      simp only [note, hself, Level.ofName_eq_iff.2 hl]
      rfl
  | quiet => rfl
  | quietInFull => rfl
  | rules t =>
      have hlevel := value?_other "--log-level=" "--log-filter=" (by decide) (by decide) t
      simp only [note, hself, hlevel]
      rfl
  | file t =>
      have hlevel := value?_other "--log-level=" "--log-file=" (by decide) (by decide) t
      have hrules := value?_other "--log-filter=" "--log-file=" (by decide) (by decide) t
      simp only [note, hself, hlevel, hrules]
      rfl
  | json ht => rw [note_format, formatOfName_json ht]
  | text ht => rw [note_format, formatOfName_text ht]
  | verbose => rfl
  | letters n => exact note_letters n
  | noColor => rfl

theorem asks_or_note_eq (a : Bytes) : (∃ w, Asks a w) ∨ empty.note a = empty := by
  cases hlevel : value? "--log-level=" a with
  | some t => exact .inl ⟨.level (.ofName t), value?_eq_some_iff.1 hlevel ▸ .level (Level.ofName_eq_iff.1 rfl)⟩
  | none =>
  cases hrules : value? "--log-filter=" a with
  | some t => exact .inl ⟨.rules t, value?_eq_some_iff.1 hrules ▸ .rules t⟩
  | none =>
  cases hfile : value? "--log-file=" a with
  | some t => exact .inl ⟨.file t, value?_eq_some_iff.1 hfile ▸ .file t⟩
  | none =>
  cases hformat : value? "--log-format=" a with
  | some t =>
      rw [value?_eq_some_iff.1 hformat]
      by_cases ht : t = ascii "json" ∨ t = ascii "JSON"
      · exact .inl ⟨.format .json, .json ht⟩
      · exact .inl ⟨.format .text, .text ht⟩
  | none =>
  by_cases hcolor : a = ascii "--no-color"
  · exact .inl ⟨.noColor, hcolor ▸ .noColor⟩
  by_cases hquiet : a = ascii "-q"
  · exact .inl ⟨.level .error, hquiet ▸ .quiet⟩
  by_cases hfull : a = ascii "--quiet"
  · exact .inl ⟨.level .error, hfull ▸ .quietInFull⟩
  by_cases hverbose : a = ascii "--verbose"
  · exact .inl ⟨.verbosity 1, hverbose ▸ .verbose⟩
  by_cases hcount : verboseCount a = 0
  · right
    simp only [note, hlevel, hrules, hfile, hformat, hcolor, hquiet, hfull, hverbose, hcount]
    rfl
  · obtain ⟨n, rfl⟩ := eq_letters_of_verboseCount hcount
    exact .inl ⟨.verbosity (n + 1), .letters n⟩

structure Holds {α : Type} (part : Request → Option α) (kind : α → Wish) : Prop where
  empty : part empty = none
  only_iff : ∀ w x, part (only w) = some x ↔ w = kind x
  followedBy : ∀ r s, part (r.followedBy s) = (part s).or (part r)

theorem holds_level : Holds level Wish.level :=
  ⟨rfl, fun w x => by cases w <;> simp [only, Request.empty], fun _ _ => rfl⟩

theorem holds_rules : Holds rules Wish.rules :=
  ⟨rfl, fun w x => by cases w <;> simp [only, Request.empty], fun _ _ => rfl⟩

theorem holds_file : Holds file Wish.file :=
  ⟨rfl, fun w x => by cases w <;> simp [only, Request.empty], fun _ _ => rfl⟩

theorem holds_format : Holds format Wish.format :=
  ⟨rfl, fun w x => by cases w <;> simp [only, Request.empty], fun _ _ => rfl⟩

section Holds

variable {α : Type} {part : Request → Option α} {kind : α → Wish} (h : Holds part kind)
include h

theorem Holds.note_eq_some_iff {a : Bytes} {x : α} :
    part (Request.empty.note a) = some x ↔ Asks a (kind x) := by
  constructor
  · intro hx
    rcases asks_or_note_eq a with ⟨w, hw⟩ | hnote
    · rw [note_of_asks hw, h.only_iff] at hx
      exact hx ▸ hw
    · rw [hnote, h.empty] at hx
      cases hx
  · intro ha
    rw [note_of_asks ha, h.only_iff]

theorem Holds.note_eq_none_iff {a : Bytes} :
    part (Request.empty.note a) = none ↔ ∀ x, ¬Asks a (kind x) := by
  simp only [Option.eq_none_iff_forall_ne_some, ne_eq, h.note_eq_some_iff]

end Holds

theorem verbosity_note_iff {a : Bytes} {n : Nat} :
    (empty.note a).verbosity = n ∧ n ≠ 0 ↔ Asks a (.verbosity n) := by
  constructor
  · rintro ⟨hn, hne⟩
    rcases asks_or_note_eq a with ⟨w, hw⟩ | hnote
    · rw [note_of_asks hw] at hn
      cases w with
      | verbosity m => exact (show m = n from hn) ▸ hw
      | level | rules | file | format | noColor => exact absurd hn.symm hne
    · rw [hnote] at hn
      exact absurd hn.symm hne
  · intro h
    refine ⟨by rw [note_of_asks h]; rfl, ?_⟩
    cases h with
    | verbose => exact one_ne_zero
    | letters n => exact Nat.succ_ne_zero n

theorem noColor_note_iff {a : Bytes} : (empty.note a).noColor = true ↔ a = ascii "--no-color" := by
  constructor
  · intro h
    rcases asks_or_note_eq a with ⟨w, hw⟩ | hnote
    · rw [note_of_asks hw] at h
      cases hw with
      | noColor => rfl
      | level | quiet | quietInFull | rules | file | json | text | verbose | letters => cases h
    · rw [hnote] at h
      cases h
  · rintro rfl
    rfl

end Request

def LastAsked {α : Type} (kind : α → Wish) (arguments : List Bytes) (x : α) : Prop :=
  ∃ before a after, arguments = before ++ a :: after ∧ Asks a (kind x) ∧
    ∀ b ∈ after, ∀ y, ¬Asks b (kind y)

def Unasked {α : Type} (kind : α → Wish) (arguments : List Bytes) : Prop :=
  ∀ a ∈ arguments, ∀ x, ¬Asks a (kind x)

def Loudest (arguments : List Bytes) (n : Nat) : Prop :=
  (∃ a ∈ arguments, Asks a (.verbosity n)) ∧ ∀ a ∈ arguments, ∀ m, Asks a (.verbosity m) → m ≤ n

namespace Request

def ofArguments (arguments : List Bytes) : Request :=
  arguments.foldl note empty

section Holds

variable {α : Type} {part : Request → Option α} {kind : α → Wish} (h : Holds part kind)
include h

theorem Holds.ofArguments_eq (arguments : List Bytes) :
    part (ofArguments arguments) = latest (fun a => part (Request.empty.note a)) arguments := by
  have hnote : ∀ r a, part (note r a) = (part (Request.empty.note a)).or (part r) := fun r a => by
    rw [note_eq, h.followedBy]
  rw [ofArguments, value_foldl_latest hnote, h.empty, Option.or_none]

theorem Holds.ofArguments_eq_some_iff {arguments : List Bytes} {x : α} :
    part (ofArguments arguments) = some x ↔ LastAsked kind arguments x := by
  simp only [h.ofArguments_eq, latest_eq_some_iff, h.note_eq_some_iff, h.note_eq_none_iff, LastAsked]

theorem Holds.ofArguments_eq_none_iff {arguments : List Bytes} :
    part (ofArguments arguments) = none ↔ Unasked kind arguments := by
  simp only [h.ofArguments_eq, latest_eq_none_iff, h.note_eq_none_iff, Unasked]

theorem Holds.ofArguments_filter {p : Bytes → Bool} (hp : ∀ a x, Asks a (kind x) → p a = true)
    (arguments : List Bytes) : part (ofArguments (arguments.filter p)) = part (ofArguments arguments) := by
  rw [h.ofArguments_eq, h.ofArguments_eq]
  refine latest_filter (fun a ha => h.note_eq_none_iff.2 fun x hx => ?_) arguments
  simp [hp a x hx] at ha

end Holds

theorem verbosity_foldl_le_iff {m : Nat} (arguments : List Bytes) : ∀ {r : Request},
    (arguments.foldl note r).verbosity ≤ m ↔
      r.verbosity ≤ m ∧ ∀ a ∈ arguments, (empty.note a).verbosity ≤ m := by
  induction arguments with
  | nil => simp
  | cons a arguments ih =>
      intro r
      have hmax : (r.note a).verbosity = max r.verbosity (empty.note a).verbosity := by
        rw [note_eq]
        rfl
      rw [List.foldl_cons, ih, hmax, Nat.max_le, List.forall_mem_cons, and_assoc]

theorem verbosity_le_iff {m : Nat} {arguments : List Bytes} :
    (ofArguments arguments).verbosity ≤ m ↔ ∀ a ∈ arguments, (empty.note a).verbosity ≤ m :=
  (verbosity_foldl_le_iff arguments).trans (and_iff_right (Nat.zero_le m))

theorem exists_verbosity_eq {arguments : List Bytes} (h : (ofArguments arguments).verbosity ≠ 0) :
    ∃ a ∈ arguments, (empty.note a).verbosity = (ofArguments arguments).verbosity := by
  by_contra hnone
  push Not at hnone
  have hle := verbosity_le_iff.1 (Nat.le_refl (ofArguments arguments).verbosity)
  have hless : (ofArguments arguments).verbosity ≤ (ofArguments arguments).verbosity - 1 :=
    verbosity_le_iff.2 fun a ha => Nat.le_sub_one_of_lt (Nat.lt_of_le_of_ne (hle a ha) (hnone a ha))
  omega

theorem verbosity_eq_iff_loudest {arguments : List Bytes} {n : Nat} (h : n ≠ 0) :
    (ofArguments arguments).verbosity = n ↔ Loudest arguments n := by
  constructor
  · rintro rfl
    obtain ⟨a, ha, hverbosity⟩ := exists_verbosity_eq h
    refine ⟨⟨a, ha, verbosity_note_iff.1 ⟨hverbosity, h⟩⟩, fun b hb m hm => ?_⟩
    rw [← (verbosity_note_iff.2 hm).1]
    exact verbosity_le_iff.1 (Nat.le_refl _) b hb
  · rintro ⟨⟨a, ha, hasks⟩, hmost⟩
    refine Nat.le_antisymm (verbosity_le_iff.2 fun b hb => ?_) ?_
    · rcases Nat.eq_zero_or_pos (empty.note b).verbosity with hzero | hpos
      · rw [hzero]
        exact Nat.zero_le n
      · exact hmost b hb _ (verbosity_note_iff.1 ⟨rfl, Nat.ne_of_gt hpos⟩)
    · rw [← (verbosity_note_iff.2 hasks).1]
      exact verbosity_le_iff.1 (Nat.le_refl _) a ha

theorem verbosity_eq_zero_iff {arguments : List Bytes} :
    (ofArguments arguments).verbosity = 0 ↔ Unasked Wish.verbosity arguments := by
  rw [← Nat.le_zero, verbosity_le_iff]
  refine forall₂_congr fun a _ => ?_
  simp only [← verbosity_note_iff]
  constructor
  · intro hle n hn
    omega
  · intro hnone
    by_contra hpos
    exact hnone _ ⟨rfl, by omega⟩

theorem noColor_iff {arguments : List Bytes} :
    (ofArguments arguments).noColor = true ↔ ascii "--no-color" ∈ arguments := by
  have hfold : ∀ r : Request, (arguments.foldl note r).noColor = true ↔
      ascii "--no-color" ∈ arguments ∨ r.noColor = true := by
    induction arguments with
    | nil => simp
    | cons a arguments ih =>
        intro r
        have hor : (r.note a).noColor = ((empty.note a).noColor || r.noColor) := by
          rw [note_eq]
          rfl
        rw [List.foldl_cons, ih, hor, Bool.or_eq_true, noColor_note_iff, List.mem_cons]
        tauto
  exact (hfold empty).trans (or_iff_left Bool.false_ne_true)

end Request

inductive VerboseLevel : Nat → Level → Prop
  | one : VerboseLevel 1 .info
  | two : VerboseLevel 2 .debug
  | more {n : Nat} : 3 ≤ n → VerboseLevel n .trace

def IsFilterText (t : Bytes) : Prop :=
  Byte.equals ∈ t ∨ Byte.comma ∈ t

inductive MeantLevel (arguments : List Bytes) (environment : Bytes) : Level → Prop
  | asked {l : Level} : LastAsked Wish.level arguments l → MeantLevel arguments environment l
  | verbose {n : Nat} {l : Level} : Unasked Wish.level arguments → Loudest arguments n → VerboseLevel n l →
      MeantLevel arguments environment l
  | environment {l : Level} : Unasked Wish.level arguments → Unasked Wish.verbosity arguments →
      Unasked Wish.rules arguments → environment ≠ [] → ¬IsFilterText environment → l.Meant environment →
      MeantLevel arguments environment l
  | default : Unasked Wish.level arguments → Unasked Wish.verbosity arguments →
      ¬Unasked Wish.rules arguments ∨ environment = [] ∨ IsFilterText environment →
      MeantLevel arguments environment .warn

inductive MeantRules (arguments : List Bytes) (environment : Bytes) : Bytes → Prop
  | asked {t : Bytes} : LastAsked Wish.rules arguments t → MeantRules arguments environment t
  | environment : Unasked Wish.level arguments → Unasked Wish.verbosity arguments →
      Unasked Wish.rules arguments → IsFilterText environment → MeantRules arguments environment environment
  | none : Unasked Wish.rules arguments →
      ¬Unasked Wish.level arguments ∨ ¬Unasked Wish.verbosity arguments ∨ ¬IsFilterText environment →
      MeantRules arguments environment []

namespace Request

theorem isRules_iff {t : Bytes} : isRules t = true ↔ IsFilterText t := by
  simp [isRules, IsFilterText]

theorem verboseLevel?_eq_some_iff {n : Nat} {l : Level} (h : n ≠ 0) :
    verboseLevel? n = some l ↔ VerboseLevel n l := by
  constructor
  · intro hl
    match n, h with
    | 1, _ => exact Option.some.inj hl ▸ .one
    | 2, _ => exact Option.some.inj hl ▸ .two
    | n + 3, _ => exact Option.some.inj hl ▸ .more (Nat.le_add_left 3 n)
  · rintro (_ | _ | hn)
    · rfl
    · rfl
    · obtain ⟨m, rfl⟩ := Nat.exists_eq_add_of_le' hn
      rfl

theorem verboseLevel?_eq_none_iff {n : Nat} : verboseLevel? n = none ↔ n = 0 := by
  match n with
  | 0 => simp [verboseLevel?]
  | 1 => simp [verboseLevel?]
  | 2 => simp [verboseLevel?]
  | n + 3 => simp [verboseLevel?]

variable {arguments : List Bytes}

theorem chosenLevel?_eq_none_iff : (ofArguments arguments).chosenLevel? = none ↔
    Unasked Wish.level arguments ∧ Unasked Wish.verbosity arguments := by
  rw [chosenLevel?, Option.orElse_eq_orElse, Option.orElse_eq_or, Option.or_eq_none_iff,
    holds_level.ofArguments_eq_none_iff, verboseLevel?_eq_none_iff, verbosity_eq_zero_iff]

theorem chosenLevel?_eq_some_iff {l : Level} : (ofArguments arguments).chosenLevel? = some l ↔
    LastAsked Wish.level arguments l ∨
      Unasked Wish.level arguments ∧ ∃ n, Loudest arguments n ∧ VerboseLevel n l := by
  rw [chosenLevel?, Option.orElse_eq_orElse, Option.orElse_eq_or, Option.or_eq_some_iff,
    holds_level.ofArguments_eq_some_iff, holds_level.ofArguments_eq_none_iff]
  refine or_congr_right (and_congr_right fun _ => ?_)
  constructor
  · intro hl
    have hne : (ofArguments arguments).verbosity ≠ 0 := fun hzero => by
      rw [verboseLevel?_eq_none_iff.2 hzero] at hl
      cases hl
    exact ⟨_, (verbosity_eq_iff_loudest hne).1 rfl, (verboseLevel?_eq_some_iff hne).1 hl⟩
  · rintro ⟨n, hn, hl⟩
    have hne : n ≠ 0 := by
      rintro rfl
      cases hl
      omega
    rw [(verbosity_eq_iff_loudest hne).2 hn, verboseLevel?_eq_some_iff hne]
    exact hl

variable {environment : Bytes}

theorem heededEnvironment_of_unasked (environment : Bytes) (hlevel : Unasked Wish.level arguments)
    (hverbosity : Unasked Wish.verbosity arguments) (hrules : Unasked Wish.rules arguments) :
    (ofArguments arguments).heededEnvironment environment = environment := by
  rw [heededEnvironment, chosenLevel?_eq_none_iff.2 ⟨hlevel, hverbosity⟩,
    holds_rules.ofArguments_eq_none_iff.2 hrules]
  rfl

theorem heededEnvironment_of_rules (hrules : ¬Unasked Wish.rules arguments) :
    (ofArguments arguments).heededEnvironment environment = [] := by
  rw [← holds_rules.ofArguments_eq_none_iff, ← ne_eq, Option.ne_none_iff_isSome] at hrules
  rw [heededEnvironment, hrules, Bool.or_true, if_pos rfl]

theorem heededEnvironment_of_chosen
    (hchosen : ¬(Unasked Wish.level arguments ∧ Unasked Wish.verbosity arguments)) :
    (ofArguments arguments).heededEnvironment environment = [] := by
  rw [← chosenLevel?_eq_none_iff, ← ne_eq, Option.ne_none_iff_isSome] at hchosen
  rw [heededEnvironment, hchosen, Bool.true_or, if_pos rfl]

theorem level_of_chosen {l : Level} (h : (ofArguments arguments).chosenLevel? = some l) :
    ((ofArguments arguments).config environment).level = l := by
  simp only [config, h, Option.getD_some]

theorem level_of_meant {l : Level} (h : MeantLevel arguments environment l) :
    ((ofArguments arguments).config environment).level = l := by
  cases h with
  | asked hl => exact level_of_chosen (chosenLevel?_eq_some_iff.2 (.inl hl))
  | verbose hlevel hn hl => exact level_of_chosen (chosenLevel?_eq_some_iff.2 (.inr ⟨hlevel, _, hn, hl⟩))
  | environment hlevel hverbosity hrules hne htext hl =>
      have hchosen := chosenLevel?_eq_none_iff.2 ⟨hlevel, hverbosity⟩
      have hheeded := heededEnvironment_of_unasked environment hlevel hverbosity hrules
      have hnot : isRules environment = false := Bool.eq_false_iff.2 fun h => htext (isRules_iff.1 h)
      simp only [config, hchosen, hheeded, hne, hnot, decide_false, Bool.or_self, Option.getD_none,
        Bool.false_eq_true, if_false]
      exact Level.ofName_eq_iff.2 hl
  | default hlevel hverbosity h =>
      have hchosen := chosenLevel?_eq_none_iff.2 ⟨hlevel, hverbosity⟩
      have hunread : (ofArguments arguments).heededEnvironment environment = [] ∨
          isRules ((ofArguments arguments).heededEnvironment environment) = true := by
        by_cases hrules : Unasked Wish.rules arguments
        · rw [heededEnvironment_of_unasked environment hlevel hverbosity hrules, isRules_iff]
          exact h.resolve_left (not_not_intro hrules)
        · exact .inl (heededEnvironment_of_rules hrules)
      simp only [config, hchosen, Option.getD_none]
      exact if_pos (by simpa using hunread)

theorem exists_meantLevel (arguments : List Bytes) (environment : Bytes) :
    ∃ l, MeantLevel arguments environment l := by
  cases hchosen : (ofArguments arguments).chosenLevel? with
  | some l =>
      rcases chosenLevel?_eq_some_iff.1 hchosen with hl | ⟨hlevel, n, hn, hl⟩
      · exact ⟨l, .asked hl⟩
      · exact ⟨l, .verbose hlevel hn hl⟩
  | none =>
      obtain ⟨hlevel, hverbosity⟩ := chosenLevel?_eq_none_iff.1 hchosen
      by_cases h : ¬Unasked Wish.rules arguments ∨ environment = [] ∨ IsFilterText environment
      · exact ⟨.warn, .default hlevel hverbosity h⟩
      · push Not at h
        exact ⟨_, .environment hlevel hverbosity h.1 h.2.1 h.2.2 (Level.ofName_eq_iff.1 rfl)⟩

theorem level_config_iff {l : Level} :
    ((ofArguments arguments).config environment).level = l ↔ MeantLevel arguments environment l := by
  refine ⟨?_, level_of_meant⟩
  rintro rfl
  obtain ⟨l, hl⟩ := exists_meantLevel arguments environment
  exact level_of_meant hl ▸ hl

theorem rules_of_meant {t : Bytes} (h : MeantRules arguments environment t) :
    ((ofArguments arguments).config environment).rules = t := by
  cases h with
  | asked ht => simp only [config, holds_rules.ofArguments_eq_some_iff.2 ht, Option.getD_some]
  | environment hlevel hverbosity hrules htext =>
      simp only [config, holds_rules.ofArguments_eq_none_iff.2 hrules, Option.getD_none,
        heededEnvironment_of_unasked environment hlevel hverbosity hrules]
      exact if_pos (isRules_iff.2 htext)
  | none hrules h =>
      simp only [config, holds_rules.ofArguments_eq_none_iff.2 hrules, Option.getD_none]
      by_cases hunasked : Unasked Wish.level arguments ∧ Unasked Wish.verbosity arguments
      · have htext : ¬IsFilterText environment :=
          (h.resolve_left (not_not_intro hunasked.1)).resolve_left (not_not_intro hunasked.2)
        rw [heededEnvironment_of_unasked environment hunasked.1 hunasked.2 hrules]
        exact if_neg fun hrules => htext (isRules_iff.1 hrules)
      · rw [heededEnvironment_of_chosen hunasked]
        rfl

theorem exists_meantRules (arguments : List Bytes) (environment : Bytes) :
    ∃ t, MeantRules arguments environment t := by
  cases hrules : (ofArguments arguments).rules with
  | some t => exact ⟨t, .asked (holds_rules.ofArguments_eq_some_iff.1 hrules)⟩
  | none =>
      have hunasked := holds_rules.ofArguments_eq_none_iff.1 hrules
      by_cases h : ¬Unasked Wish.level arguments ∨ ¬Unasked Wish.verbosity arguments ∨ ¬IsFilterText environment
      · exact ⟨[], .none hunasked h⟩
      · push Not at h
        exact ⟨environment, .environment h.1 h.2.1 hunasked h.2.2⟩

theorem rules_config_iff {t : Bytes} :
    ((ofArguments arguments).config environment).rules = t ↔ MeantRules arguments environment t := by
  refine ⟨?_, rules_of_meant⟩
  rintro rfl
  obtain ⟨t, ht⟩ := exists_meantRules arguments environment
  exact rules_of_meant ht ▸ ht

theorem Holds.getD_iff {α : Type} {part : Request → Option α} {kind : α → Wish} (h : Holds part kind)
    {otherwise x : α} : (part (ofArguments arguments)).getD otherwise = x ↔
      LastAsked kind arguments x ∨ Unasked kind arguments ∧ x = otherwise := by
  rw [← h.ofArguments_eq_some_iff, ← h.ofArguments_eq_none_iff]
  cases part (ofArguments arguments) <;> simp [eq_comm]

end Request

inductive ArgumentKind where
  | level
  | rules
  | file
  | format
  deriving DecidableEq, Repr

def ArgumentKind.holds : ArgumentKind → Bytes → Bool
  | .level, a => startsWith (ascii "--log-level=") a || a = ascii "-q" || a = ascii "--quiet"
  | .rules, a => startsWith (ascii "--log-filter=") a
  | .file, a => startsWith (ascii "--log-file=") a
  | .format, a => startsWith (ascii "--log-format=") a

structure Rearranged (arguments others : List Bytes) : Prop where
  perm : arguments.Perm others
  ordered : ∀ k : ArgumentKind, arguments.filter k.holds = others.filter k.holds

theorem Asks.holds_level {a : Bytes} {l : Level} (h : Asks a (.level l)) : ArgumentKind.level.holds a = true := by
  cases h with
  | level => simp [ArgumentKind.holds, startsWith_iff]
  | quiet => rfl
  | quietInFull => rfl

theorem Asks.holds_rules {a t : Bytes} (h : Asks a (.rules t)) : ArgumentKind.rules.holds a = true := by
  cases h
  exact startsWith_iff.2 ⟨t, rfl⟩

theorem Asks.holds_file {a t : Bytes} (h : Asks a (.file t)) : ArgumentKind.file.holds a = true := by
  cases h
  exact startsWith_iff.2 ⟨t, rfl⟩

theorem Asks.holds_format {a : Bytes} {f : Format} (h : Asks a (.format f)) :
    ArgumentKind.format.holds a = true := by
  cases h with
  | @json t _ => exact startsWith_iff.2 ⟨t, rfl⟩
  | @text t _ => exact startsWith_iff.2 ⟨t, rfl⟩

namespace Request

attribute [ext] Request

theorem Holds.rearranged {α : Type} {part : Request → Option α} {kind : α → Wish} (h : Holds part kind)
    {k : ArgumentKind} (hk : ∀ a x, Asks a (kind x) → k.holds a = true) {arguments others : List Bytes}
    (hr : Rearranged arguments others) : part (ofArguments arguments) = part (ofArguments others) := by
  rw [← h.ofArguments_filter hk arguments, hr.ordered k, h.ofArguments_filter hk others]

theorem ofArguments_rearranged {arguments others : List Bytes} (h : Rearranged arguments others) :
    ofArguments arguments = ofArguments others := by
  apply Request.ext
  case level => exact holds_level.rearranged (fun _ _ => Asks.holds_level) h
  case rules => exact holds_rules.rearranged (fun _ _ => Asks.holds_rules) h
  case file => exact holds_file.rearranged (fun _ _ => Asks.holds_file) h
  case format => exact holds_format.rearranged (fun _ _ => Asks.holds_format) h
  case verbosity =>
    refine Nat.le_antisymm (verbosity_le_iff.2 fun a ha => ?_) (verbosity_le_iff.2 fun a ha => ?_)
    · exact verbosity_le_iff.1 (Nat.le_refl _) a (h.perm.mem_iff.1 ha)
    · exact verbosity_le_iff.1 (Nat.le_refl _) a (h.perm.mem_iff.2 ha)
  case noColor => rw [Bool.eq_iff_iff, noColor_iff, noColor_iff, h.perm.mem_iff]

end Request

-- The configuration of any arguments in any environment. Its level is the one that is asked for last,
-- or that of the greatest verbosity, or the one the environment names, or `warn`. Filter, file and
-- format are those that are asked for last, the environment gives a filter only where no level,
-- verbosity or filter is asked for, and colors are shown unless some argument forbids them. So
-- arguments may be rearranged as long as those of each kind keep their order.
theorem ofArguments_by_kind (arguments : List Bytes) (environment : Bytes) :
    let c := Config.ofArguments arguments environment
    ((∀ l, c.level = l ↔ MeantLevel arguments environment l) ∧
      (∀ t, c.rules = t ↔ MeantRules arguments environment t) ∧
      (∀ t, c.file = t ↔ LastAsked Wish.file arguments t ∨ Unasked Wish.file arguments ∧ t = []) ∧
      (∀ f, c.format = f ↔ LastAsked Wish.format arguments f ∨ Unasked Wish.format arguments ∧ f = .text) ∧
      (c.colors = false ↔ ascii "--no-color" ∈ arguments) ∧
      c.console = true) ∧
    ∀ others, Rearranged arguments others → Config.ofArguments others environment = c := by
  have hconfig : ∀ arguments, Config.ofArguments arguments environment =
      (Request.ofArguments arguments).config environment := fun _ => rfl
  intro c
  refine ⟨⟨?_, ?_, ?_, ?_, ?_, rfl⟩, ?_⟩
  · exact fun l => Request.level_config_iff
  · exact fun t => Request.rules_config_iff
  · exact fun t => Request.holds_file.getD_iff
  · exact fun f => Request.holds_format.getD_iff
  · rw [← Request.noColor_iff]
    exact iff_of_eq (Bool.not_eq_false' _)
  · intro others h
    rw [hconfig, ← Request.ofArguments_rearranged h]
    rfl

theorem ofArguments_rearranged_files :
    let arguments := ["-vv", "--log-file=a", "page", "--no-color", "--log-file=b", "--verbose"].map ascii
    let others := ["--verbose", "--no-color", "--log-file=a", "--log-file=b", "page", "-vv"].map ascii
    Rearranged arguments others ∧
      Config.ofArguments others (ascii "a=trace") = Config.ofArguments arguments (ascii "a=trace") := by
  intro arguments others
  have h : Rearranged arguments others := ⟨by decide, fun k => by cases k <;> decide⟩
  exact ⟨h, (ofArguments_by_kind arguments (ascii "a=trace")).2 others h⟩

example :
    let c := Config.ofArguments (["-vvv", "-q", "--log-file=a", "--log-file=b"].map ascii) (ascii "trace")
    (c.level, c.file) = (.error, ascii "b") := by
  decide

end MarkupFormat.Log
