import MarkupFormat.Bytes

namespace MarkupFormat.Bytes

def isBlank (c : UInt8) : Bool :=
  c = 32 || (9 ≤ c && c ≤ 13)

def allBlank (t : Bytes) : Bool :=
  t.all isBlank

def hasBlankLine (t : Bytes) : Bool :=
  2 ≤ t.count Byte.lf

def consRun (c : UInt8) : List Bytes → List Bytes
  | (d :: r) :: rs => if isBlank c = isBlank d then (c :: d :: r) :: rs else [c] :: (d :: r) :: rs
  | rs => [c] :: rs

def runs (t : Bytes) : List Bytes :=
  t.foldr consRun []

def dropEndWhile (p : UInt8 → Bool) (t : Bytes) : Bytes :=
  (t.reverse.dropWhile p).reverse

theorem dropEndWhile_append (p : UInt8 → Bool) (t : Bytes) :
    dropEndWhile p t ++ (t.reverse.takeWhile p).reverse = t := by
  rw [dropEndWhile, ← List.reverse_append, List.takeWhile_append_dropWhile, List.reverse_reverse]

def isEdge (c : UInt8) : Bool :=
  c = Byte.space || c = Byte.tab || c = Byte.cr || c = Byte.lf

def trim (t : Bytes) : Bytes :=
  dropEndWhile isEdge (t.dropWhile isEdge)

end MarkupFormat.Bytes
