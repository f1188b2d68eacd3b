import MarkupFormat.Log.Level
import MarkupFormat.Render

namespace MarkupFormat

open Bytes Document Layout Expression Log

def renderTopic : Bytes :=
  ascii "render"

def Layout.WrapReason.text : WrapReason → Bytes
  | .lineLength => ascii "line length"
  | .multilineValue => ascii "multi-line value"

def tagTrace (ctx : Context) (depth : Nat) (tag : Tag) : List Entry :=
  match tagShape ctx depth tag with
  | .wrapped reason =>
      [⟨.trace, renderTopic, ascii "<" ++ tag.name ++ ascii "> attributes wrapped ("
        ++ reason.text ++ ascii ")"⟩]
  | .oneLine | .hugging => []

mutual
def layoutTrace (ctx : Context) (depth : Nat) : Node → List Entry
  | .marker _ _ => []
  | .text _ => []
  | .expression _ _ => []
  | .element tag children =>
      tagTrace ctx depth tag
        ++ if tag.selfClosing || tag.sensitive then [] else layoutTraceAll ctx (depth + 1) children

def layoutTraceAll (ctx : Context) (depth : Nat) : List Node → List Entry
  | [] => []
  | n :: ns => layoutTrace ctx depth n ++ layoutTraceAll ctx depth ns
end

def refusalTrace (r : Report) : Entry :=
  ⟨.debug, renderTopic, ascii "aborted: " ++ r.summary⟩

def renderedTrace (size count : Nat) : Entry :=
  ⟨.debug, renderTopic,
    ascii "rendered " ++ decimal size ++ ascii " bytes, " ++ decimal count ++ ascii " expressions"⟩

def renderTrace (f : Formatter) (said : Bytes → List Entry) (opts : Options) (nodes : List Node) :
    List Entry :=
  (calls f (snippets nodes)).flatMap said
    ++ match render f opts nodes with
      | .error r => [refusalTrace r]
      | .ok t =>
          layoutTraceAll ⟨opts, shown f⟩ 0 nodes
            ++ if nodes.all Node.isMarker then []
              else [renderedTrace t.length (snippets nodes).length]

end MarkupFormat
