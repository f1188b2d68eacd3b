import MarkupFormat.Bytes

namespace MarkupFormat.Expression

inductive Mode where
  | code
  | quoted
  | escaped
  deriving DecidableEq, Repr

def Mode.next : Mode → UInt8 → Mode
  | .code, c => if c = Byte.quote then .quoted else .code
  | .quoted, c =>
      if c = Byte.backslash then .escaped
      else if c = Byte.quote then .code
      else .quoted
  | .escaped, _ => .quoted

end MarkupFormat.Expression
