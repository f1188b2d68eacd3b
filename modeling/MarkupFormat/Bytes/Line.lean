import MarkupFormat.Bytes

namespace MarkupFormat.Bytes

def split (sep : UInt8) : Bytes → List Bytes
  | [] => [[]]
  | c :: t => if c = sep then [] :: split sep t else (split sep t).modifyHead (c :: ·)

theorem split_ne_nil (sep : UInt8) (t : Bytes) : split sep t ≠ [] := by
  induction t with
  | nil => simp [split]
  | cons c t ih =>
      simp only [split]
      split
      · simp
      · cases h : split sep t with
        | nil => exact absurd h ih
        | cons l ls => simp

theorem length_split (sep : UInt8) (t : Bytes) : (split sep t).length = t.count sep + 1 := by
  induction t with
  | nil => rfl
  | cons c t ih =>
      simp only [split]
      split
      · next h => simp [h, ih]
      · next h => simp [ih, List.count_cons_of_ne h]

theorem intercalate_split (sep : UInt8) (t : Bytes) : [sep].intercalate (split sep t) = t := by
  induction t with
  | nil => rfl
  | cons c t ih =>
      obtain ⟨l, ls, h⟩ := List.exists_cons_of_ne_nil (split_ne_nil sep t)
      simp only [split]
      rw [h] at ih ⊢
      split
      · next hc => rw [List.intercalate_cons_cons, ih, hc]; rfl
      · cases ls with
        | nil => simpa using ih
        | cons m ms =>
            simp only [List.modifyHead_cons, List.intercalate_cons_cons] at ih ⊢
            simp [← ih]

def lines (t : Bytes) : List Bytes :=
  split Byte.lf t

def dropReturn (l : Bytes) : Bytes :=
  if l.getLast? = some Byte.cr then l.dropLast else l

def indentLine (pad l : Bytes) : Bytes :=
  if l = [] then [] else pad ++ l

def reindent (newline pad t : Bytes) : Bytes :=
  match (lines t).map dropReturn with
  | [] => []
  | l :: ls => newline.intercalate (l :: ls.map (indentLine pad))

end MarkupFormat.Bytes
