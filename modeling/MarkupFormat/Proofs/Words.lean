import MarkupFormat.Proofs.Lines

namespace MarkupFormat

open Bytes
open Written (startsSolid)

namespace Bytes

def words (t : Bytes) : List Bytes :=
  (runs t).filter fun r => !allBlank r

def unwords (ws : List Bytes) : Bytes :=
  [Byte.space].intercalate ws

theorem words_nil : words [] = [] := rfl

theorem allBlank_run (t : Bytes) : ∀ {c : UInt8} {r : Bytes} {rs : List Bytes},
    runs t = (c :: r) :: rs → allBlank (c :: r) = isBlank c := by
  induction t with
  | nil =>
      intro c r rs h
      cases h
  | cons b t ih =>
      intro c r rs h
      change consRun b (runs t) = _ at h
      cases t with
      | nil =>
          cases h
          simp [allBlank]
      | cons d t =>
          obtain ⟨r', rs', hr⟩ := runs_cons d t
          have hd := ih hr
          rw [hr, consRun] at h
          split at h
          · next hb =>
              cases h
              rw [allBlank_cons, hd, hb, Bool.and_self]
          · cases h
            simp [allBlank]

theorem words_cons_blank {c : UInt8} (hc : isBlank c = true) (t : Bytes) : words (c :: t) = words t := by
  change (consRun c (runs t)).filter _ = (runs t).filter _
  cases t with
  | nil => simp [runs, consRun, allBlank, hc]
  | cons d t =>
      obtain ⟨r, rs, h⟩ := runs_cons d t
      have hr := allBlank_run _ h
      rw [h]
      cases hd : isBlank d with
      | true =>
          have hcr : allBlank (c :: d :: r) = true := by rw [allBlank_cons, hc, hr, hd]; rfl
          rw [consRun, hc, hd, if_pos rfl, List.filter_cons, List.filter_cons, hcr, hr, hd]
          rfl
      | false =>
          have hcr : allBlank [c] = true := by rw [allBlank_cons, hc]; rfl
          rw [consRun, hc, hd, if_neg (by decide), List.filter_cons, hcr]
          rfl

theorem words_cons_solid {c : UInt8} (hc : isBlank c = false) (t : Bytes) :
    words (c :: t) =
      if t = [] ∨ startsSolid t = false then [c] :: words t else (words t).modifyHead (c :: ·) := by
  change (consRun c (runs t)).filter _ = _
  cases t with
  | nil => simp [runs, consRun, allBlank, hc, words]
  | cons d t =>
      obtain ⟨r, rs, h⟩ := runs_cons d t
      rw [words, h]
      cases hd : isBlank d <;> simp [consRun, allBlank_cons, hc, hd, startsSolid]

theorem words_blank {m : Bytes} (hm : allBlank m = true) (t : Bytes) : words (m ++ t) = words t := by
  induction m with
  | nil => rfl
  | cons c m ih =>
      simp only [allBlank_cons, Bool.and_eq_true] at hm
      rw [List.cons_append, words_cons_blank hm.1, ih hm.2]

theorem words_eq_nil {t : Bytes} : words t = [] ↔ allBlank t = true := by
  induction t with
  | nil => exact ⟨fun _ => rfl, fun _ => rfl⟩
  | cons c t ih =>
      cases hc : isBlank c with
      | true => simpa [words_cons_blank hc, allBlank_cons, hc] using ih
      | false =>
          rw [words_cons_solid hc, allBlank_cons, hc]
          split
          · simp
          · next h =>
              -- the text after `c` starts with a word
              cases t with
              | nil => simp at h
              | cons d t =>
                  have hd : isBlank d = false := by simpa [startsSolid] using h
                  cases hw : words (d :: t) with
                  | nil => simp [allBlank_cons, hd, hw] at ih
                  | cons w ws => simp

theorem words_append_blank {m : Bytes} (hm : m ≠ []) (hb : allBlank m = true) (a b : Bytes) :
    words (a ++ (m ++ b)) = words a ++ words b := by
  induction a with
  | nil => rw [List.nil_append, words_blank hb, words_nil, List.nil_append]
  | cons c a ih =>
      cases hc : isBlank c with
      | true => rw [List.cons_append, words_cons_blank hc, words_cons_blank hc, ih]
      | false =>
          rw [List.cons_append, words_cons_solid hc, words_cons_solid hc, ih]
          cases a with
          | nil =>
              obtain ⟨d, m, rfl⟩ := List.exists_cons_of_ne_nil hm
              simp only [allBlank_cons, Bool.and_eq_true] at hb
              simp [startsSolid, hb.1, words_nil]
          | cons d a =>
              cases hd : isBlank d with
              | true => simp [startsSolid, hd]
              | false =>
                  have hne : words (d :: a) ≠ [] := by
                    rw [Ne, words_eq_nil, allBlank_cons, hd]
                    simp
                  obtain ⟨w, ws, hw⟩ := List.exists_cons_of_ne_nil hne
                  simp [startsSolid, hd, hw]

end Bytes

end MarkupFormat
