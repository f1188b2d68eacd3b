import MarkupFormat.Proofs.Formatters
import MarkupFormat.Proofs.Formatting

namespace MarkupFormat

open Bytes Document Layout Expression
open Written hiding Node

structure OneLine (src : Source) (ns : List Written.Node) : Prop where
  tame : Tame (fun body => Byte.lf ∉ body) ns
  normal : ∀ s ∈ snippets (ofRaw src (Raw.locateAll 0 ns)), ∀ k, normalize s.raw = .ok k → Byte.lf ∉ k

def Known (f : Formatter) (r : Bytes) : Prop :=
  ∃ v k, f r = .ok v ∧ normalize r = .ok k ∧ Byte.lf ∉ k

abbrev QuotedLine : Bytes → Prop :=
  QuotedWith fun body => Byte.lf ∉ body

theorem QuotedLine.lay {v : Bytes} (h : QuotedLine v) (ctx : Context) (d : Option Nat) :
    ctx.lay d v = v := by
  obtain ⟨body, rfl, hc, hlf⟩ := h
  have hq : Byte.lf ≠ Byte.quote := by decide
  refine lay_of_no_break ctx d ?_ ?_
  · simp [hlf, hq]
  · rw [List.cons_append, ← List.cons_append, List.getLast?_append]
    exact (by decide : some Byte.quote ≠ some Byte.cr)

theorem normalize_innerText {t k : Bytes} (h : normalize t = .ok k) (hk : Byte.lf ∉ k) (ctx : Context)
    (d : Nat) : normalize (innerText ctx d t) = .ok k := by
  unfold innerText
  split
  · next h0 => exact h0 ▸ h
  · exact normalize_space (normalize_lay ctx (some d) h (no_lf_of_normalize h hk))

section Formatter

variable {f : Formatter} (hf : Expression.Faithful f)
include hf

theorem supports_accepted (opts : Options) {P : Bytes → Prop} :
    Supports ⟨opts, shown f⟩ (QuotedWith P) (fun r => ∃ v, f r = .ok v) where
  quoted := fun _ h => h.isQuoted
  presentable := by
    rintro r ⟨v, hv⟩
    obtain ⟨-, -, -, hp⟩ := hf.shown hv
    exact hp

theorem supports_known (opts : Options) {P : Bytes → Prop} :
    Supports ⟨opts, shown f⟩ (QuotedWith P) (Known f) where
  quoted := (supports_accepted hf opts).quoted
  presentable := fun r ⟨v, _, hv, _⟩ => (supports_accepted hf opts (P := P)).presentable r ⟨v, hv⟩

theorem OneLine.known {src : Source} {ns : List Written.Node} (h : OneLine src ns)
    (hread : Written.read src.content = .ok ns)
    (hsnip : ∀ s ∈ snippets (ofWritten ns), ∃ v, f s.raw = .ok v) :
    ∀ s ∈ snippets (ofWritten ns), Known f s.raw := by
  have hdoc := unplaced_ofRaw src (Written.writeAll_read hread).symm
  have hline : ∀ s ∈ snippets (ofWritten ns), ∀ k, normalize s.raw = .ok k → Byte.lf ∉ k := by
    rw [← hdoc]
    exact (forall_snippets_unplacedAll (Q := fun r => ∀ k, normalize r = .ok k → Byte.lf ∉ k) _).2
      h.normal
  intro s hs
  obtain ⟨v, hv⟩ := hsnip s hs
  obtain ⟨k, hk, -⟩ := hf.sound _ _ hv
  exact ⟨v, k, hv, hk, hline s hs k hk⟩

theorem OneLine.soundDocument {src : Source} {ns : List Written.Node} (h : OneLine src ns)
    (hread : Written.read src.content = .ok ns)
    (hsnip : ∀ s ∈ snippets (ofWritten ns), ∃ v, f s.raw = .ok v) {b : Bool} {rest : List Node}
    (hdoc : ofWritten ns = .marker .documentStart b :: rest) :
    SoundDocument QuotedLine (Known f) rest :=
  soundDocument_ofWritten hdoc (read_iff.1 hread).2 h.tame (h.known hf hread hsnip)

end Formatter

end MarkupFormat
