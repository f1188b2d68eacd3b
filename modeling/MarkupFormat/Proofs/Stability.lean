import MarkupFormat.Proofs.Formatters

namespace MarkupFormat.Expression

open Bytes Layout

section Relaid

variable {newline : Newline} {n : Nat} {before after : Bytes} (hbefore : allBlank before = true)
  (hafter : allBlank after = true)
include hbefore hafter

theorem normalize_reindent {v : Bytes} (hv : ∀ l ∈ literals v, Byte.lf ∉ l) :
    normalize (before ++ reindent newline.text (spaces n) v ++ after) = normalize v := by
  rw [normalize_append_blanks hafter, normalize_blanks_append hbefore, reindent_eq_relay]
  exact normalize_relay (newlineText_ne_nil newline) (allBlank_newlineText newline) (allBlank_spaces n) hv

end Relaid

-- Normal forms are answered with themselves, and so is what a table of layouts of its own keys
-- answers. No formatter of the two sees whitespace around a text or the indentation of its lines, as
-- long as the lines end outside strings.
theorem answers_stand (newline : Newline) (n : Nat) {before after : Bytes}
    (hbefore : allBlank before = true) (hafter : allBlank after = true) :
    (∀ r t, normalizing r = .ok t → normalizing t = .ok t) ∧
    (∀ v, (∀ l ∈ literals v, Byte.lf ∉ l) →
      normalizing (before ++ reindent newline.text (spaces n) v ++ after) = normalizing v) ∧
    ∀ table : List (Bytes × Bytes), (∀ k v, table.lookup k = some v → normalize v = .ok k) →
      ∀ r v, tabulated table r = .ok v →
        tabulated table v = .ok v ∧
        ((∀ l ∈ literals v, Byte.lf ∉ l) →
          tabulated table (before ++ reindent newline.text (spaces n) v ++ after) = .ok v) := by
  refine ⟨?_, ?_, ?_⟩
  · intro r t h
    exact faithful_normalizing.answer_eq h rfl
  · intro v hv
    rw [normalizing, normalizing, normalize_reindent hbefore hafter hv]
  · intro table htable r v h
    have hfaithful := faithful_tabulated htable
    refine ⟨hfaithful.answer_eq h rfl, fun hv => ?_⟩
    exact hfaithful.answer_eq h (normalize_reindent hbefore hafter hv)

def laidList : Bytes × Bytes :=
  (ascii "[1, \"a, b\"]", ascii "[\n  1,\n  \"a, b\"\n]")

theorem answers_stand_list :
    allBlank (ascii "\n ") = true ∧ allBlank (ascii "\t") = true ∧
      (∀ l ∈ literals laidList.2, Byte.lf ∉ l) ∧
      (∀ k v, [laidList].lookup k = some v → normalize v = .ok k) ∧
      tabulated [laidList] (ascii "[1,\"a, b\"]") = .ok laidList.2 ∧
      tabulated [laidList] laidList.2 = .ok laidList.2 ∧
      tabulated [laidList] (ascii "\n [\r\n      1,\r\n      \"a, b\"\r\n    ]\t") = .ok laidList.2 ∧
      normalizing (ascii "\n [\r\n    ])\t") = normalizing (ascii "[\n])") ∧
      normalizing (ascii "[\n])") = .error (ascii "unexpected token: )") := by
  have hbefore : allBlank (ascii "\n ") = true := by decide
  have hafter : allBlank (ascii "\t") = true := by decide
  obtain ⟨-, hnormal, htable⟩ := answers_stand .crlf 4 hbefore hafter
  have hlist : ∀ l ∈ literals laidList.2, Byte.lf ∉ l := by decide
  have hkey : ∀ k v, [laidList].lookup k = some v → normalize v = .ok k := by
    intro k v h
    have hkv : (k, v) = laidList := by simpa using mem_of_lookup h
    obtain ⟨rfl, rfl⟩ : k = laidList.1 ∧ v = laidList.2 := Prod.ext_iff.1 hkv
    rfl
  have hanswer : tabulated [laidList] (ascii "[1,\"a, b\"]") = .ok laidList.2 := rfl
  obtain ⟨hself, hlaid⟩ := htable [laidList] hkey _ _ hanswer
  exact ⟨hbefore, hafter, hlist, hkey, hanswer, hself, hlaid hlist,
    hnormal (ascii "[\n])") (by decide), rfl⟩

end MarkupFormat.Expression
