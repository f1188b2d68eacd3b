import MarkupFormat.Bytes

namespace MarkupFormat

open Bytes

-- `nameOf?` tells which file a path opens, if any.
structure Directory where
  nameOf? : Bytes → Option Bytes
  files : List (Bytes × Bytes)

namespace Directory

def content? (dir : Directory) (name : Bytes) : Option Bytes :=
  dir.files.lookup name

def content (dir : Directory) (name : Bytes) : Bytes :=
  (dir.content? name).getD []

def put (dir : Directory) (name content : Bytes) : Directory :=
  { dir with files := (name, content) :: dir.files.filter (·.1 ≠ name) }

theorem content?_put_self (dir : Directory) (name t : Bytes) :
    (dir.put name t).content? name = some t := by
  simp [put, content?]

def readPath? (dir : Directory) (path : Bytes) : Option Bytes :=
  (dir.nameOf? path).bind dir.content?

def writePath (dir : Directory) (path content : Bytes) : Directory :=
  match dir.nameOf? path with
  | some name => dir.put name content
  | none => dir

-- Zeros stand where there was nothing before `position`.
def overwrite (old : Bytes) (position : Nat) (t : Bytes) : Bytes :=
  old.take position ++ List.replicate (position - old.length) 0 ++ t
    ++ old.drop (position + t.length)

end Directory

end MarkupFormat
