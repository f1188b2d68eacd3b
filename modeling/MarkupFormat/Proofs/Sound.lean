import MarkupFormat.Proofs.Merging
import MarkupFormat.Proofs.Placing
import MarkupFormat.Proofs.Values

namespace MarkupFormat.Document

open Bytes Written Layout

structure SoundTag (S R : Bytes → Prop) (tag : Tag) : Prop where
  name : PlainName tag.name
  noComment : startsWith (ascii "!--") tag.name = false
  sensitive : tag.sensitive = ElementName.isSensitive tag.name
  attributes : ∀ a ∈ tag.attributes, SoundAttribute S R a

inductive Sound (S R : Bytes → Prop) : Node → Prop
  | marker (position : Position) (blank : Bool) : Sound S R (.marker position blank)
  | text {t : Bytes} : IsLine t → Byte.less ∉ t → Sound S R (.text t)
  | expression {raw : Bytes} (location : Location) : R raw → Sound S R (.expression raw location)
  | selfClosed {tag : Tag} : SoundTag S R tag → tag.selfClosing = true → Sound S R (.element tag [])
  | verbatim {tag : Tag} {body : Bytes} : SoundTag S R tag → tag.selfClosing = false →
      startsWith [Byte.hash] tag.name = true → tag.sensitive = true →
      cutAt (startsWith (closingTag tag.name)) (body ++ closingTag tag.name) =
        (body, closingTag tag.name) →
      Sound S R (.element tag (verbatimText body))
  | hollow {tag : Tag} {children : List Node} : SoundTag S R tag → tag.selfClosing = false →
      startsWith [Byte.hash] tag.name = true → tag.sensitive = false →
      (children = [] ∨ ∃ b, children = [.marker .beforeClosingTag b]) →
      Sound S R (.element tag children)
  | sensitive {tag : Tag} {ns : List Written.Node} : SoundTag S R tag → tag.selfClosing = false →
      startsWith [Byte.hash] tag.name = false → tag.sensitive = true → LegalAll [] ns →
      Sound S R (.element tag (verbatimText (writeAll ns)))
  | element {tag : Tag} {children : List Node} : SoundTag S R tag → tag.selfClosing = false →
      startsWith [Byte.hash] tag.name = false → tag.sensitive = false → Settled children →
      MarkersApart children → (∀ n ∈ children, Sound S R n) → Sound S R (.element tag children)

theorem mergedAll_verbatimText (t : Bytes) : mergedAll (verbatimText t) = verbatimText t := by
  unfold verbatimText
  split <;> rfl

theorem verbatimAll_verbatimText (t : Bytes) : verbatimAll (verbatimText t) = t := by
  unfold verbatimText
  split
  · next h => rw [h]; rfl
  · simp [verbatimAll, verbatim]

section Sound

variable {S R : Bytes → Prop}

theorem Sound.text_inv {t : Bytes} (h : Sound S R (.text t)) : IsLine t ∧ Byte.less ∉ t := by
  cases h with
  | text h1 h2 => exact ⟨h1, h2⟩

theorem sound_mergedAll {ns : List Node} (h : ∀ n ∈ ns, Sound S R n.merged) :
    ∀ n ∈ mergedAll ns, Sound S R n := by
  refine forall_mergedAll h ?_
  intro a b ha hb
  obtain ⟨ha, ha'⟩ := ha.text_inv
  obtain ⟨hb, hb'⟩ := hb.text_inv
  refine .text (ha.append hb) ?_
  rw [List.mem_append]
  exact fun h => h.elim ha' hb'

theorem Sound.merged {n : Node} (h : Sound S R n) : Sound S R n.merged := by
  induction h with
  | marker p b => exact .marker p b
  | text h1 h2 => exact .text h1 h2
  | expression l h => exact .expression l h
  | selfClosed ht hs => exact .selfClosed ht hs
  | verbatim ht hs hh hv hc =>
      rw [Node.merged, mergedAll_verbatimText]
      exact .verbatim ht hs hh hv hc
  | hollow ht hs hh hv hc =>
      rcases hc with rfl | ⟨b, rfl⟩
      · exact .hollow ht hs hh hv (.inl rfl)
      · exact .hollow ht hs hh hv (.inr ⟨b, rfl⟩)
  | sensitive ht hs hh hv hl =>
      rw [Node.merged, mergedAll_verbatimText]
      exact .sensitive ht hs hh hv hl
  | element ht hs hh hv hset hm _ ih =>
      exact .element ht hs hh hv (settled_mergedAll hset) (markersApart_mergedAll hm)
        (sound_mergedAll ih)

end Sound

def abuts : Node → Node → Bool
  | .text _, .text _ => true
  | .text t, .expression _ _ => t.getLast? = some Byte.openBrace
  | _, _ => false

mutual
def Node.Clean : Node → Prop
  | .marker _ _ => True
  | .text t => ¬openDelimiter <:+: t
  | .expression _ _ => True
  | .element tag children => tag.sensitive = true ∨ CleanAll children

def CleanAll : List Node → Prop
  | [] => True
  | n :: ns => n.Clean ∧ (∀ m ∈ ns.head?, abuts n m = false) ∧ CleanAll ns
end

theorem CleanAll.clean {ns : List Node} (h : CleanAll ns) : ∀ n ∈ ns, n.Clean := by
  induction ns with
  | nil => simp
  | cons m ms ih =>
      intro n hn
      rcases List.mem_cons.1 hn with rfl | hn
      · exact h.1
      · exact ih h.2.2 n hn

end MarkupFormat.Document
