import MarkupFormat.Proofs.Entries
import MarkupFormat.Proofs.Filters
import MarkupFormat.Proofs.Separators

namespace MarkupFormat.Log

open Bytes

namespace Level

def spellings (l : Level) : List Bytes :=
  [l.name, l.name.map Byte.toLower]

def Meant (t : Bytes) (l : Level) : Prop :=
  t ∈ l.spellings ∨ l = info ∧ ∀ k : Level, t ∉ k.spellings

theorem eq_of_mem_spellings {k l : Level} {t : Bytes} (hk : t ∈ k.spellings) (hl : t ∈ l.spellings) :
    k = l := by
  have hall : ∀ k ∈ all, ∀ l ∈ all, ∀ t ∈ k.spellings, t ∈ l.spellings → k = l := by decide
  exact hall k (mem_all k) l (mem_all l) t hk hl

theorem ofName_eq_iff {t : Bytes} {l : Level} : ofName t = l ↔ Meant t l := by
  have hspelled : ∀ k : Level, (t = k.name || t = k.name.map Byte.toLower) = true ↔ t ∈ k.spellings := by
    simp [spellings]
  unfold ofName Meant
  cases hfind : all.find? fun k => t = k.name || t = k.name.map Byte.toLower with
  | none =>
      have hnone : ∀ k : Level, t ∉ k.spellings := fun k hk =>
        List.find?_eq_none.1 hfind k (mem_all k) ((hspelled k).2 hk)
      simp [hnone, eq_comm]
  | some k =>
      have hk : t ∈ k.spellings := (hspelled k).1 (by simpa using List.find?_some hfind)
      constructor
      · rintro rfl
        exact .inl hk
      · rintro (hl | ⟨-, hnone⟩)
        · exact eq_of_mem_spellings hk hl
        · exact absurd hk (hnone k)

end Level

inductive TellsOf (topic : Bytes) : Bytes → Level → Prop
  | assigned {text : Bytes} {l : Level} :
      Byte.equals ∉ topic → topic ≠ ascii "*" → l.Meant text → TellsOf topic (topic ++ Byte.equals :: text) l
  | alone : Byte.equals ∉ topic → topic ≠ [] → TellsOf topic topic .trace

inductive TellsOfOthers : Bytes → Level → Prop
  | assigned {text : Bytes} {l : Level} :
      l.Meant text → TellsOfOthers (ascii "*" ++ Byte.equals :: text) l

def Settled (tells : Bytes → Level → Prop) (tokens : List Bytes) (otherwise l : Level) : Prop :=
  (∃ before t after, tokens = before ++ t :: after ∧ tells t l ∧ ∀ u ∈ after, ∀ k, ¬tells u k) ∨
    (∀ t ∈ tokens, ∀ k, ¬tells t k) ∧ otherwise = l

namespace Rule

theorem ofText?_alone {t : Bytes} (h : Byte.equals ∉ t) :
    ofText? t = if t = [] then none else some (.topic t .trace) := by
  have hcut : cutAt (startsWith [Byte.equals]) t = (t, []) :=
    cutAt_byte_eq_iff.2 ⟨by simp, h, .inl rfl⟩
  rw [ofText?, hcut]
  cases t <;> rfl

theorem ofText?_assigned {name : Bytes} (h : Byte.equals ∉ name) (text : Bytes) :
    ofText? (name ++ Byte.equals :: text) =
      some (if name = ascii "*" then .default (.ofName text) else .topic name (.ofName text)) := by
  have hcut : cutAt (startsWith [Byte.equals]) (name ++ Byte.equals :: text) =
      (name, Byte.equals :: text) := cutAt_byte_eq_iff.2 ⟨rfl, h, .inr ⟨text, rfl⟩⟩
  rw [ofText?, hcut]
  simp only
  split <;> rfl

theorem ofText?_cases (t : Bytes) :
    (Byte.equals ∉ t ∧ ofText? t = if t = [] then none else some (.topic t .trace)) ∨
      ∃ name text, t = name ++ Byte.equals :: text ∧ Byte.equals ∉ name ∧
        ofText? t = some (if name = ascii "*" then .default (.ofName text) else .topic name (.ofName text)) := by
  by_cases heq : Byte.equals ∈ t
  · obtain ⟨name, text, rfl, hname⟩ := List.eq_append_cons_of_mem heq
    exact .inr ⟨name, text, rfl, hname, ofText?_assigned hname text⟩
  · exact .inl ⟨heq, ofText?_alone heq⟩

def levelOf (topic : Bytes) : Rule → Option Level
  | .default _ => none
  | .topic name l => if name = topic then some l else none

def levelOfOthers : Rule → Option Level
  | .default l => some l
  | .topic _ _ => none

theorem levelOf_iff {topic t : Bytes} {l : Level} :
    (ofText? t).bind (levelOf topic) = some l ↔ TellsOf topic t l := by
  constructor
  · intro h
    rcases ofText?_cases t with ⟨heq, ht⟩ | ⟨name, text, rfl, hname, ht⟩
    · rw [ht] at h
      by_cases hnil : t = []
      · simp [hnil] at h
      · simp only [hnil, if_false, Option.bind_some, levelOf, Option.ite_none_right_eq_some,
          Option.some.injEq] at h
        obtain ⟨rfl, rfl⟩ := h
        exact .alone heq hnil
    · rw [ht] at h
      by_cases hstar : name = ascii "*"
      · simp [hstar, levelOf] at h
      · simp only [hstar, if_false, Option.bind_some, levelOf, Option.ite_none_right_eq_some,
          Option.some.injEq] at h
        obtain ⟨rfl, hl⟩ := h
        exact .assigned hname hstar (Level.ofName_eq_iff.1 hl)
  · intro h
    cases h with
    | assigned hname hstar hl => simp [ofText?_assigned hname, hstar, levelOf, Level.ofName_eq_iff.2 hl]
    | alone hname hnil => simp [ofText?_alone hname, hnil, levelOf]

theorem levelOfOthers_iff {t : Bytes} {l : Level} :
    (ofText? t).bind levelOfOthers = some l ↔ TellsOfOthers t l := by
  constructor
  · intro h
    rcases ofText?_cases t with ⟨-, ht⟩ | ⟨name, text, rfl, -, ht⟩
    · rw [ht] at h
      by_cases hnil : t = [] <;> simp [hnil, levelOfOthers] at h
    · rw [ht] at h
      by_cases hstar : name = ascii "*"
      · subst hstar
        simp only [if_true, Option.bind_some, levelOfOthers, Option.some.injEq] at h
        exact .assigned (Level.ofName_eq_iff.1 h)
      · simp [hstar, levelOfOthers] at h
  · rintro ⟨hl⟩
    rw [ofText?_assigned (by decide)]
    simp [levelOfOthers, Level.ofName_eq_iff.2 hl]

end Rule

def lastTold (told : Rule → Option Level) (tokens : List Bytes) : Option Level :=
  tokens.reverse.findSome? fun t => (Rule.ofText? t).bind told

theorem lastTold_eq_latest (told : Rule → Option Level) (tokens : List Bytes) :
    lastTold told tokens = latest (fun t => (Rule.ofText? t).bind told) tokens := rfl

section Told

variable {told : Rule → Option Level} {tells : Bytes → Level → Prop}
  (htells : ∀ t l, (Rule.ofText? t).bind told = some l ↔ tells t l)
include htells

theorem told_eq_none_iff (t : Bytes) : (Rule.ofText? t).bind told = none ↔ ∀ k, ¬tells t k := by
  simp only [Option.eq_none_iff_forall_ne_some, ne_eq, htells]

theorem lastTold_eq_none_iff {tokens : List Bytes} :
    lastTold told tokens = none ↔ ∀ t ∈ tokens, ∀ k, ¬tells t k := by
  simp only [lastTold_eq_latest, latest_eq_none_iff, told_eq_none_iff htells]

theorem lastTold_eq_some_iff {tokens : List Bytes} {l : Level} :
    lastTold told tokens = some l ↔
      ∃ before t after, tokens = before ++ t :: after ∧ tells t l ∧ ∀ u ∈ after, ∀ k, ¬tells u k := by
  simp only [lastTold_eq_latest, latest_eq_some_iff, told_eq_none_iff htells, htells]

theorem settled_iff {tokens : List Bytes} {otherwise l : Level} :
    (lastTold told tokens).getD otherwise = l ↔ Settled tells tokens otherwise l := by
  rw [Settled, ← lastTold_eq_some_iff htells, ← lastTold_eq_none_iff htells]
  cases lastTold told tokens <;> simp

end Told

namespace Filter

theorem lookup_apply (f : Filter) (r : Rule) (topic : Bytes) :
    (f.apply r).topics.lookup topic = (r.levelOf topic).or (f.topics.lookup topic) := by
  cases r with
  | default l => rfl
  | topic name l =>
      by_cases hname : name = topic
      · simp [apply, Rule.levelOf, hname]
      · have hne : (topic == name) = false := beq_eq_false_iff_ne.2 (Ne.symm hname)
        simp only [apply, Rule.levelOf, hname, if_false, Option.none_or]
        rw [List.lookup_cons, hne]
        exact lookup_filter_ne hname f.topics

theorem default_apply (f : Filter) (r : Rule) :
    some (f.apply r).default = r.levelOfOthers.or (some f.default) := by
  cases r <;> rfl

theorem value_foldl (value : Filter → Option Level) {told : Rule → Option Level}
    (happly : ∀ f r, value (f.apply r) = (told r).or (value f)) (tokens : List Bytes) (f : Filter) :
    value ((tokens.filterMap Rule.ofText?).foldl apply f) = (lastTold told tokens).or (value f) := by
  rw [List.foldl_filterMap]
  refine value_foldl_latest (fun g t => ?_) tokens f
  cases Rule.ofText? t with
  | none => rfl
  | some r => exact happly g r

theorem default_parse (f : Filter) (spec : Bytes) :
    (f.parse spec).default = (lastTold Rule.levelOfOthers (split Byte.comma spec)).getD f.default := by
  have hvalue := value_foldl (fun f => some f.default) default_apply (split Byte.comma spec)
    { f with topics := [] }
  rw [Option.or_some, Option.some.injEq] at hvalue
  exact hvalue

theorem lookup_parse (f : Filter) (spec topic : Bytes) :
    (f.parse spec).topics.lookup topic = lastTold (Rule.levelOf topic) (split Byte.comma spec) := by
  have hvalue := value_foldl (fun f => f.topics.lookup topic)
    (fun f r => f.lookup_apply r topic) (split Byte.comma spec) { f with topics := [] }
  rw [List.lookup_nil, Option.or_none] at hvalue
  exact hvalue

end Filter

-- Whatever a filter was before it is given a text, a topic has the level that the last token of the
-- text with something to say of it says, and if there is none the level of the others. That one is
-- said by the last token for all others; without such a token it stays. A topic is heard from its
-- level on, and some topic is heard from the lowest level on.
theorem parse_settled (f : Filter) (spec : Bytes) :
    let tokens := split Byte.comma spec
    let g := f.parse spec
    ([Byte.comma].intercalate tokens = spec ∧ ∀ t ∈ tokens, Byte.comma ∉ t) ∧
      (∀ l, g.default = l ↔ Settled TellsOfOthers tokens f.default l) ∧
      (∀ topic level, g.level topic = level ↔ Settled (TellsOf topic) tokens g.default level) ∧
      (∀ topic l, g.allows l topic = true ↔ g.level topic ≤ l) ∧
      ∀ l, g.minLevel ≤ l ↔ ∃ topic, g.allows l topic = true := by
  intro tokens g
  refine ⟨⟨?_, ?_⟩, ?_, ?_, ?_, ?_⟩
  · exact intercalate_split Byte.comma spec
  · exact fun t ht => separator_not_mem_of_mem_split ht
  · intro l
    rw [← settled_iff fun t l => Rule.levelOfOthers_iff]
    rw [f.default_parse spec]
  · intro topic level
    rw [← settled_iff fun t l => Rule.levelOf_iff, ← f.lookup_parse spec topic]
    rfl
  · intro topic l
    exact decide_eq_true_iff
  · intro l
    exact Filter.minLevel_le_iff (Filter.single_parse f spec)

example :
    let f := Filter.empty.parse (ascii "a=error,,b=x=y,*=warn,a")
    (f.level (ascii "a"), f.level (ascii "b"), f.level (ascii "c")) = (.trace, .info, .warn) := by
  decide

end MarkupFormat.Log
