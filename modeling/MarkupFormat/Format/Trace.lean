import MarkupFormat.Document.Trace
import MarkupFormat.Format
import MarkupFormat.Render.Trace

namespace MarkupFormat

open Bytes Document Layout Expression Log

def formatTrace (f : Formatter) (said : Bytes → List Entry) (opts : Options) (src : Source)
    (tree : List Raw.Node) : List Entry :=
  match opts.report? with
  | some _ => []
  | none =>
      Document.trace src tree
        ++ match ofRaw? src tree with
          | .error _ => []
          | .ok nodes =>
              renderTrace f said opts nodes
                ++ match render f opts nodes with
                  | .error r => [⟨.debug, renderTopic, (r.inFile src.name).summary⟩]
                  | .ok _ => []

end MarkupFormat
