import MarkupFormat.Document.OfRaw
import MarkupFormat.Log.Level

namespace MarkupFormat.Document

open Bytes Log

def classifyTopic : Bytes :=
  ascii "classify"

mutual
def nodeTrace (src : Source) : Raw.Node → List Entry
  | .text _ => []
  | .interpolation _ _ => []
  | .comment span =>
      [⟨.trace, classifyTopic, ascii "dropped comment at offset " ++ decimal span.start⟩]
  | .element _ head children =>
      if head.selfClosing then []
      else if ElementName.isSensitive head.name then
        let size := (src.slice head.body.start head.body.stop).length
        [⟨.trace, classifyTopic, ascii "<" ++ head.name ++ ascii "> kept verbatim ("
          ++ decimal size ++ ascii " bytes)"⟩]
      else childrenTrace src children

def childrenTrace (src : Source) : List Raw.Node → List Entry
  | [] => []
  | n :: ns => nodeTrace src n ++ childrenTrace src ns
end

def trace (src : Source) (tree : List Raw.Node) : List Entry :=
  match ofRaw? src tree with
  | .error d => [⟨.debug, classifyTopic, ascii "rejected raw tree: " ++ (d.report src).summary⟩]
  | .ok nodes =>
      childrenTrace src tree
        ++ [⟨.debug, classifyTopic, src.name ++ ascii ": " ++ decimal nodes.length
          ++ ascii " top-level nodes after classification"⟩]

end MarkupFormat.Document
