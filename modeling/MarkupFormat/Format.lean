import MarkupFormat.Document.OfRaw
import MarkupFormat.Render

namespace MarkupFormat

open Bytes Document Layout Expression

def Report.inFile (r : Report) (file : Bytes) : Report :=
  { r with file := file }

def format (f : Formatter) (opts : Options) (src : Source) (tree : List Raw.Node) :
    Except Report Bytes :=
  match opts.report? with
  | some r => .error (r.inFile src.name)
  | none =>
      match ofRaw? src tree with
      | .error d => .error (d.report src)
      | .ok nodes => (render f opts nodes).mapError (·.inFile src.name)

def formatCalls (f : Formatter) (opts : Options) (src : Source) (tree : List Raw.Node) : List Bytes :=
  match opts.report? with
  | some _ => []
  | none =>
      match ofRaw? src tree with
      | .error _ => []
      | .ok nodes => calls f (snippets nodes)

end MarkupFormat
