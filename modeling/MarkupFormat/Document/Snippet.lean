import MarkupFormat.Document.Tree

namespace MarkupFormat.Document

open Bytes

-- `element` is empty at the top level, and `attribute` is empty for a child.
structure Snippet where
  raw : Bytes
  location : Location
  elementName : Bytes
  attributeName : Bytes
  deriving DecidableEq, Repr

def isFormatted : AttributeKind → Bool
  | .integer | .expression => true
  | .string | .boolean => false

def Tag.snippets (tag : Tag) : List Snippet :=
  (tag.attributes.filter fun a => isFormatted a.kind).map fun a =>
    ⟨a.value, a.place, tag.name, a.name⟩

mutual
def nodeSnippets (parent : Bytes) : Node → List Snippet
  | .marker _ _ => []
  | .text _ => []
  | .expression raw location => [⟨raw, location, parent, []⟩]
  | .element tag children =>
      tag.snippets ++ if tag.sensitive then [] else snippetsIn tag.name children

def snippetsIn (parent : Bytes) : List Node → List Snippet
  | [] => []
  | n :: ns => nodeSnippets parent n ++ snippetsIn parent ns
end

def snippets (nodes : List Node) : List Snippet :=
  snippetsIn [] nodes

end MarkupFormat.Document
