import MarkupFormat.Proofs.Formatting

namespace MarkupFormat.Document

open Bytes Layout Expression
open Written hiding Node

def attributeLiterals (a : Attribute Location) : List Bytes :=
  match a.kind with
  | .boolean => []
  | .string => [a.value]
  | .integer | .expression => literals a.value

mutual
def nodeLiterals : Node → List Bytes
  | .marker _ _ => []
  | .text _ => []
  | .expression raw _ => literals raw
  | .element tag children =>
      tag.attributes.flatMap attributeLiterals ++ if tag.sensitive then [] else allLiterals children

def allLiterals : List Node → List Bytes
  | [] => []
  | n :: ns => nodeLiterals n ++ allLiterals ns
end

def ownLiterals : Written.Node → List Bytes
  | .text _ => []
  | .comment _ => []
  | .interpolation inner => literals inner
  | .selfClosed tag => tag.attributes.flatMap fun a => attributeLiterals (attributeOf a)
  | .verbatim tag _ => tag.attributes.flatMap fun a => attributeLiterals (attributeOf a)
  | .element tag _ => tag.attributes.flatMap fun a => attributeLiterals (attributeOf a)

def literalsIn (ns : List Written.Node) : List Bytes :=
  (exposedAll ns).flatMap ownLiterals

theorem allLiterals_eq_flatMap (ns : List Node) : allLiterals ns = ns.flatMap nodeLiterals := by
  induction ns with
  | nil => rfl
  | cons n ns ih => rw [allLiterals, ih, List.flatMap_cons]

theorem allLiterals_solids (ns : List Node) : allLiterals (solids ns) = allLiterals ns := by
  induction ns with
  | nil => rfl
  | cons n ns ih =>
      cases n with
      | marker p b => exact ih
      | text t => exact ih
      | expression raw location => exact congrArg (literals raw ++ ·) ih
      | element tag children => exact congrArg (nodeLiterals (.element tag children) ++ ·) ih

theorem literals_tag_ofWritten (tag : OpenTag) (selfClosing : Bool) :
    (Tag.ofWritten tag selfClosing).attributes.flatMap attributeLiterals =
      tag.attributes.flatMap fun a => attributeLiterals (attributeOf a) := by
  rw [Tag.ofWritten, List.flatMap_map]

mutual
theorem allLiterals_piecesOf (n : Written.Node) :
    allLiterals (contents (piecesOf n)) = n.exposed.flatMap ownLiterals := by
  cases n with
  | text t =>
      rw [allLiterals_eq_flatMap, piecesOf, List.flatMap_eq_nil_iff.2]
      · simp [Written.Node.exposed, ownLiterals]
      · intro m hm
        obtain ⟨x, rfl⟩ := content_of_mem_linePieces _ _ (mem_contents.1 hm)
        rfl
  | comment t => simp [piecesOf, contents, allLiterals, Written.Node.exposed, ownLiterals]
  | interpolation inner =>
      simp [piecesOf, contents, allLiterals, nodeLiterals, Written.Node.exposed, ownLiterals]
  | selfClosed tag =>
      simp [piecesOf, contents, allLiterals, nodeLiterals, Written.Node.exposed, ownLiterals,
        literals_tag_ofWritten]
  | verbatim tag body =>
      have hbody : allLiterals (bodyNodes (joinSpaces (spacePieces body))) = [] := by
        rcases hollow_spacePieces body with h | ⟨b, h⟩ <;> rw [h] <;> rfl
      simp only [piecesOf, contents, allLiterals, nodeLiterals, literals_tag_ofWritten,
        Written.Node.exposed, List.flatMap_singleton, ownLiterals, List.append_nil]
      cases hs : ElementName.isSensitive tag.name <;> simp [Tag.ofWritten, hs, hbody]
  | element tag children =>
      simp only [piecesOf, contents, allLiterals, nodeLiterals, literals_tag_ofWritten,
        Written.Node.exposed, List.flatMap_cons, ownLiterals, List.append_nil]
      congr 1
      cases hs : ElementName.isSensitive tag.name with
      | true => simp [Tag.ofWritten, hs]
      | false =>
          have := allLiterals_piecesAll children
          rw [← contents_joinSpaces, ← solids_bodyNodes (solid_joinSpaces_piecesAll children),
            allLiterals_solids] at this
          simpa [Tag.ofWritten, hs, literalsIn] using this

theorem allLiterals_piecesAll (ns : List Written.Node) :
    allLiterals (contents (piecesAll ns)) = literalsIn ns := by
  cases ns with
  | nil => rfl
  | cons n ns =>
      have hn := allLiterals_piecesOf n
      have hns := allLiterals_piecesAll ns
      rw [allLiterals_eq_flatMap] at hn hns ⊢
      rw [piecesAll, contents_append, List.flatMap_append, hn, hns, literalsIn, literalsIn, exposedAll,
        List.flatMap_append]
end

theorem allLiterals_ofWritten (ns : List Written.Node) : allLiterals (ofWritten ns) = literalsIn ns := by
  rw [← allLiterals_solids, ofWritten, solids_documentNodes (solid_joinSpaces_piecesAll ns),
    contents_joinSpaces, allLiterals_piecesAll]

def placedTag (ctx : Context) (depth : Nat) (tag : Tag) : List (Option Nat × Bytes) :=
  (tag.attributes.flatMap attributeLiterals).map ((tagLay ctx depth tag).values, ·)

mutual
def placedNode (ctx : Context) (depth : Nat) : Node → List (Option Nat × Bytes)
  | .marker _ _ => []
  | .text _ => []
  | .expression raw _ => (literals raw).map (some depth, ·)
  | .element tag children =>
      placedTag ctx depth tag ++ if tag.sensitive then [] else placedAll ctx depth children

def placedAll (ctx : Context) (depth : Nat) : List Node → List (Option Nat × Bytes)
  | [] => []
  | n :: ns => placedNode ctx (childDepth depth n) n ++ placedAll ctx depth ns
end

def placed (ctx : Context) (ns : List Node) : List (Option Nat × Bytes) :=
  ns.flatMap (placedNode ctx 0)

mutual
theorem snd_placedNode (ctx : Context) (depth : Nat) (n : Node) :
    (placedNode ctx depth n).map Prod.snd = nodeLiterals n := by
  cases n with
  | marker p b => rfl
  | text t => rfl
  | expression raw location => simp [placedNode, nodeLiterals, Function.comp_def]
  | element tag children =>
      rw [placedNode, nodeLiterals, List.map_append, placedTag, List.map_map]
      congr 1
      · exact List.map_id' _
      · split
        · rfl
        · exact snd_placedAll ctx depth children

theorem snd_placedAll (ctx : Context) (depth : Nat) (ns : List Node) :
    (placedAll ctx depth ns).map Prod.snd = allLiterals ns := by
  cases ns with
  | nil => rfl
  | cons n ns =>
      rw [placedAll, List.map_append, snd_placedNode ctx _ n, snd_placedAll ctx depth ns, allLiterals]
end

theorem snd_placed (ctx : Context) (ns : List Node) : (placed ctx ns).map Prod.snd = allLiterals ns := by
  rw [placed, List.map_flatMap, allLiterals_eq_flatMap]
  exact List.flatMap_congr fun n _ => snd_placedNode ctx 0 n

theorem placedTag_unplaced (ctx : Context) (depth : Nat) (tag : Tag) :
    placedTag ctx depth tag.unplaced = placedTag ctx depth tag := by
  have hlay : (tagLay ctx depth tag.unplaced).values = (tagLay ctx depth tag).values := by
    rw [tagLay, tagLay, tagShape_unplaced]
    rfl
  rw [placedTag, placedTag, hlay, Tag.unplaced, List.flatMap_map]
  rfl

mutual
theorem placedNode_unplaced (ctx : Context) (depth : Nat) (n : Node) :
    placedNode ctx depth n.unplaced = placedNode ctx depth n := by
  cases n with
  | marker p b => rfl
  | text t => rfl
  | expression raw location => rfl
  | element tag children =>
      rw [Node.unplaced, placedNode, placedNode, placedTag_unplaced,
        placedAll_unplacedAll ctx depth children]
      rfl

theorem placedAll_unplacedAll (ctx : Context) (depth : Nat) (ns : List Node) :
    placedAll ctx depth (unplacedAll ns) = placedAll ctx depth ns := by
  cases ns with
  | nil => rfl
  | cons n ns =>
      have hdepth : childDepth depth n.unplaced = childDepth depth n := by cases n <;> rfl
      rw [unplacedAll, placedAll, placedAll, hdepth, placedNode_unplaced ctx _ n,
        placedAll_unplacedAll ctx depth ns]
end

theorem placed_unplacedAll (ctx : Context) (ns : List Node) :
    placed ctx (unplacedAll ns) = placed ctx ns := by
  rw [placed, placed, unplacedAll_eq_map, List.flatMap_map]
  exact List.flatMap_congr fun n _ => placedNode_unplaced ctx 0 n

theorem placedAll_eq_flatMap (ctx : Context) (depth : Nat) (ns : List Node) :
    placedAll ctx depth ns = ns.flatMap fun n => placedNode ctx (childDepth depth n) n := by
  induction ns with
  | nil => rfl
  | cons n ns ih => rw [placedAll, ih, List.flatMap_cons]

end MarkupFormat.Document
