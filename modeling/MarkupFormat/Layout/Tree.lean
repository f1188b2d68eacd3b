import MarkupFormat.Layout.Tag

namespace MarkupFormat.Layout

open Bytes Document

def markerText (ctx : Context) (depth : Nat) (blank : Bool) : Bytes :=
  ctx.newline ++ (if blank then ctx.newline else []) ++ indent depth

def interpolationText (ctx : Context) (depth : Nat) (t : Bytes) : Bytes :=
  if t = [] then openDelimiter ++ closeDelimiter
  else openDelimiter ++ Byte.space :: ctx.reindent depth t ++ Byte.space :: closeDelimiter

def verbatimAttribute (a : Attribute Location) : Bytes :=
  match a.kind with
  | .expression => assigned a.name (openDelimiter ++ a.value ++ closeDelimiter)
  | .boolean => booleanText a.name a.value
  | .string | .integer => assigned a.name a.value

def verbatimTag (tag : Tag) : Bytes :=
  tagHead tag ++ tag.attributes.flatMap (fun a => Byte.space :: verbatimAttribute a) ++ inlineEnd tag

mutual
def verbatim : Node → Bytes
  | .marker _ _ => []
  | .text t => t
  | .expression raw _ => openDelimiter ++ raw ++ closeDelimiter
  | .element tag children =>
      verbatimTag tag
        ++ if tag.selfClosing then [] else verbatimAll children ++ closingTag tag.name

def verbatimAll : List Node → Bytes
  | [] => []
  | n :: ns => verbatim n ++ verbatimAll ns
end

def childDepth (depth : Nat) : Node → Nat
  | .marker .beforeClosingTag _ => depth
  | _ => depth + 1

mutual
def layoutNode (ctx : Context) (depth : Nat) : Node → Bytes
  | .marker _ blank => markerText ctx depth blank
  | .text t => t
  | .expression raw _ => interpolationText ctx depth (ctx.shown raw)
  | .element tag children =>
      openTag ctx depth tag
        ++ if tag.selfClosing then []
          else if tag.sensitive then verbatimAll children ++ closingTag tag.name
          else layoutChildren ctx depth children ++ closingTag tag.name

def layoutChildren (ctx : Context) (depth : Nat) : List Node → Bytes
  | [] => []
  | n :: ns => layoutNode ctx (childDepth depth n) n ++ layoutChildren ctx depth ns
end

def layoutTop (ctx : Context) : Node → Bytes
  | .marker .documentStart _ => []
  | n => layoutNode ctx 0 n

def layout (ctx : Context) (nodes : List Node) : Bytes :=
  if nodes.all Node.isMarker then [] else nodes.flatMap (layoutTop ctx) ++ ctx.newline

end MarkupFormat.Layout
