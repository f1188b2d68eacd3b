import MarkupFormat.Bytes.Blank
import MarkupFormat.Document.Tree

namespace MarkupFormat.Document

open Bytes

inductive Piece where
  | content (n : Node)
  | space (blank : Bool)
  deriving Repr

def spacePieces (t : Bytes) : List Piece :=
  if t = [] then [] else [.space (hasBlankLine t)]

def textPieces (t : Bytes) : List Piece :=
  if t = [] then [] else [.content (.text t)]

def linePieces (line : Bytes) : List Bytes → List Piece
  | [] => textPieces line
  | r :: rs =>
      if !allBlank r then linePieces (line ++ r) rs
      else if line = [] || rs = [] || r.contains Byte.lf then
        textPieces line ++ spacePieces r ++ linePieces [] rs
      else linePieces (line ++ [Byte.space]) rs

def consPiece : Piece → List Piece → List Piece
  | .space b, .space c :: ps => .space (b || c) :: ps
  | p, ps => p :: ps

def joinSpaces (ps : List Piece) : List Piece :=
  ps.foldr consPiece []

def innerNodes : List Piece → List Node
  | [] => []
  | [.space b] => [.marker .beforeClosingTag b]
  | .space b :: ps => .marker .betweenSiblings b :: innerNodes ps
  | .content n :: ps => n :: innerNodes ps

def bodyNodes : List Piece → List Node
  | .space b :: p :: ps => .marker .beforeFirstChild b :: innerNodes (p :: ps)
  | ps => innerNodes ps

def trailingNodes : List Piece → List Node
  | [] => []
  | [.space _] => []
  | .space b :: ps => .marker .betweenSiblings b :: trailingNodes ps
  | .content n :: ps => n :: trailingNodes ps

def documentNodes : List Piece → List Node
  | .space b :: ps => .marker .documentStart b :: trailingNodes ps
  | ps => .marker .documentStart false :: trailingNodes ps

end MarkupFormat.Document
