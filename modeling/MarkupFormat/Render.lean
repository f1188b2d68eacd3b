import MarkupFormat.Bytes.Blank
import MarkupFormat.Document.Snippet
import MarkupFormat.Expression.Formatter
import MarkupFormat.Layout.Tree

namespace MarkupFormat

open Bytes Document Layout Expression

def firstRefusal (f : Formatter) : List Snippet → Option (Snippet × Bytes)
  | [] => none
  | s :: ss =>
      match f s.raw with
      | .error message => some (s, message)
      | .ok _ => firstRefusal f ss

def calls (f : Formatter) : List Snippet → List Bytes
  | [] => []
  | s :: ss =>
      match f s.raw with
      | .error _ => [s.raw]
      | .ok _ => s.raw :: calls f ss

def shown (f : Formatter) (raw : Bytes) : Bytes :=
  match f raw with
  | .error _ => []
  | .ok t => trim t

def refusalReport (s : Snippet) (message : Bytes) : Report where
  kind := .expression
  code := ascii "F001"
  message := ascii "expression failed to format: " ++ message
  elementName := s.elementName
  attributeName := s.attributeName
  snippet := s.raw
  file := []
  location := s.location

def render (f : Formatter) (opts : Options) (nodes : List Node) : Except Report Bytes :=
  match firstRefusal f (snippets nodes) with
  | some (s, message) => .error (refusalReport s message)
  | none => .ok (layout ⟨opts, shown f⟩ nodes)

theorem firstRefusal_eq_none_iff {f : Formatter} {ss : List Snippet} :
    firstRefusal f ss = none ↔ ∀ s ∈ ss, ∃ t, f s.raw = .ok t := by
  induction ss with
  | nil => simp [firstRefusal]
  | cons s ss ih =>
      cases h : f s.raw <;> simp [firstRefusal, h, ih]

end MarkupFormat
