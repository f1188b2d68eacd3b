import MarkupFormat.Bytes.Line
import MarkupFormat.Document.Tree
import MarkupFormat.Layout.Options
import MarkupFormat.Literal

namespace MarkupFormat.Layout

open Bytes Document

structure Context where
  options : Options
  shown : Bytes → Bytes

def Context.newline (ctx : Context) : Bytes :=
  ctx.options.newline.text

def Context.reindent (ctx : Context) (depth : Nat) (t : Bytes) : Bytes :=
  Bytes.reindent ctx.newline (indent depth) t

structure AttributeText where
  text : Bytes
  multiline : Bool
  deriving DecidableEq, Repr

def assigned (name value : Bytes) : Bytes :=
  name ++ Byte.equals :: value

def booleanText (name value : Bytes) : Bytes :=
  if value = Literal.trueText then name else assigned name value

def expressionText (name t : Bytes) : AttributeText :=
  match Literal.kind? t with
  | some .boolean => ⟨booleanText name t, false⟩
  | some _ => ⟨assigned name t, false⟩
  | none =>
      if t = [] then ⟨assigned name (openDelimiter ++ closeDelimiter), false⟩
      else if t.contains Byte.lf then ⟨assigned name (openDelimiter ++ t ++ closeDelimiter), true⟩
      else
        ⟨assigned name (openDelimiter ++ Byte.space :: t ++ Byte.space :: closeDelimiter), false⟩

def attributeText (ctx : Context) (a : Attribute Location) : AttributeText :=
  match a.kind with
  | .boolean => ⟨booleanText a.name a.value, false⟩
  | .string => ⟨assigned a.name a.value, false⟩
  | .integer | .expression => expressionText a.name (ctx.shown a.value)

def attributeTexts (ctx : Context) (tag : Tag) : List AttributeText :=
  tag.attributes.map (attributeText ctx)

def tagHead (tag : Tag) : Bytes :=
  Byte.less :: tag.name

def tagEnd (tag : Tag) : Bytes :=
  if tag.selfClosing then [Byte.slash, Byte.greater] else [Byte.greater]

def inlineEnd (tag : Tag) : Bytes :=
  if tag.selfClosing then Byte.space :: tagEnd tag else tagEnd tag

def oneLine (ctx : Context) (tag : Tag) : Bytes :=
  tagHead tag ++ (attributeTexts ctx tag).flatMap (fun a => Byte.space :: a.text) ++ inlineEnd tag

inductive WrapReason where
  | lineLength
  | multilineValue
  deriving DecidableEq, Repr

inductive TagShape where
  | oneLine
  | hugging
  | wrapped (reason : WrapReason)
  deriving DecidableEq, Repr

def exceedsLine (ctx : Context) (depth : Nat) (tag : Tag) : Bool :=
  ctx.options.exceeds (displayWidth (indent depth) + displayWidth (oneLine ctx tag))

-- One attribute of several lines stays on the line of the tag, however long it is.
def tagShape (ctx : Context) (depth : Nat) (tag : Tag) : TagShape :=
  match attributeTexts ctx tag with
  | [] => .oneLine
  | [a] =>
      if a.multiline then .hugging
      else if exceedsLine ctx depth tag then .wrapped .lineLength
      else .oneLine
  | as =>
      if exceedsLine ctx depth tag then .wrapped .lineLength
      else if as.any (·.multiline) then .wrapped .multilineValue
      else .oneLine

def openTag (ctx : Context) (depth : Nat) (tag : Tag) : Bytes :=
  match tagShape ctx depth tag with
  | .oneLine => oneLine ctx tag
  | .hugging =>
      tagHead tag
        ++ (attributeTexts ctx tag).flatMap (fun a => Byte.space :: ctx.reindent depth a.text)
        ++ inlineEnd tag
  | .wrapped _ =>
      tagHead tag
        ++ (attributeTexts ctx tag).flatMap (fun a =>
          ctx.newline ++ indent (depth + 1) ++ ctx.reindent (depth + 1) a.text)
        ++ ctx.newline ++ indent depth ++ tagEnd tag

end MarkupFormat.Layout
