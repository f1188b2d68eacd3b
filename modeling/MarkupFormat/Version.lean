import MarkupFormat.Bytes

namespace MarkupFormat

structure Version where
  major : Nat
  minor : Nat
  patch : Nat
  deriving DecidableEq, Repr

def Version.text (v : Version) : Bytes :=
  (Bytes.ascii ".").intercalate [Bytes.decimal v.major, Bytes.decimal v.minor, Bytes.decimal v.patch]

def version : Version :=
  ⟨0, 3, 0⟩

end MarkupFormat
