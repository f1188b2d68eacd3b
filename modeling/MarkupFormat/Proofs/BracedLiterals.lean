import MarkupFormat.Proofs.Answers
import MarkupFormat.Proofs.Canonical

namespace MarkupFormat.Document

open Bytes Layout Expression

inductive Braced (f : Formatter) : Attribute Location → Attribute Location → Prop
  | same (a : Attribute Location) : Braced f a a
  | literal {a : Attribute Location} {k : LiteralKind} : Literal.kind? a.value = some k →
      a.kind = kindOfLiteral (some k) → f a.value = .ok a.value →
      Braced f a { a with kind := .expression }

inductive BracedAll (f : Formatter) : List Node → List Node → Prop
  | nil : BracedAll f [] []
  | same (n : Node) {ns ns' : List Node} : BracedAll f ns ns' → BracedAll f (n :: ns) (n :: ns')
  | element {tag : Tag} {attributes : List (Attribute Location)} {children children' ns ns' : List Node} :
      List.Forall₂ (Braced f) tag.attributes attributes →
      (tag.sensitive = true → children' = children) → BracedAll f children children' →
      BracedAll f ns ns' →
      BracedAll f (.element tag children :: ns)
        (.element { tag with attributes := attributes } children' :: ns')

section Shown

variable {f : Formatter} {opts : Options}

theorem shown_literal {v : Bytes} {k : LiteralKind} (hk : Literal.kind? v = some k) (hf : f v = .ok v) :
    shown f v = v := by
  have hne : Literal.kind? v ≠ none := by simp [hk]
  rw [shown_of_ok hf]
  exact trim_of_normalize (normalize_literal hne)

theorem attributeText_braced {a a' : Attribute Location} (h : Braced f a a') :
    attributeText ⟨opts, shown f⟩ a' = attributeText ⟨opts, shown f⟩ a := by
  cases h with
  | same => rfl
  | @literal k hk hkind hf =>
      have hshown := shown_literal hk hf
      cases k <;> simp [attributeText, hkind, kindOfLiteral, hshown, expressionText, hk]

theorem attributeTexts_braced {tag : Tag} {attributes : List (Attribute Location)}
    (h : List.Forall₂ (Braced f) tag.attributes attributes) :
    attributeTexts ⟨opts, shown f⟩ { tag with attributes := attributes } =
      attributeTexts ⟨opts, shown f⟩ tag := by
  unfold attributeTexts
  generalize tag.attributes = as at h
  induction h with
  | nil => rfl
  | cons ha _ ih => rw [List.map_cons, List.map_cons, attributeText_braced ha, ih]

end Shown

structure LaidAlike (ctx : Context) (n n' : Node) : Prop where
  marker : n'.isMarker = n.isMarker
  top : layoutTop ctx n' = layoutTop ctx n
  child : ∀ depth, layoutNode ctx (childDepth depth n') n' = layoutNode ctx (childDepth depth n) n

section Alike

variable {ctx : Context} {ns ns' : List Node}

theorem LaidAlike.refl (n : Node) : LaidAlike ctx n n :=
  ⟨rfl, rfl, fun _ => rfl⟩

theorem laidAlike_element {tag tag' : Tag} {children children' : List Node}
    (h : ∀ depth, layoutNode ctx depth (.element tag' children') =
      layoutNode ctx depth (.element tag children)) :
    LaidAlike ctx (.element tag children) (.element tag' children') :=
  ⟨rfl, h 0, fun depth => h (depth + 1)⟩

theorem layoutChildren_alike (h : List.Forall₂ (LaidAlike ctx) ns ns') (depth : Nat) :
    layoutChildren ctx depth ns' = layoutChildren ctx depth ns := by
  induction h with
  | nil => rfl
  | cons hn _ ih => rw [layoutChildren, layoutChildren, hn.child depth, ih]

theorem layout_alike (h : List.Forall₂ (LaidAlike ctx) ns ns') : layout ctx ns' = layout ctx ns := by
  have hboth : ns'.flatMap (layoutTop ctx) = ns.flatMap (layoutTop ctx) ∧
      ns'.all Node.isMarker = ns.all Node.isMarker := by
    induction h with
    | nil => exact ⟨rfl, rfl⟩
    | cons hn _ ih =>
        rw [List.flatMap_cons, List.flatMap_cons, List.all_cons, List.all_cons, hn.top, hn.marker, ih.1, ih.2]
        exact ⟨rfl, rfl⟩
  rw [layout, layout, hboth.1, hboth.2]

end Alike

section Braced

variable {f : Formatter}

theorem laidAlike_braced {opts : Options} {ns ns' : List Node} (h : BracedAll f ns ns') :
    List.Forall₂ (LaidAlike ⟨opts, shown f⟩) ns ns' := by
  induction h with
  | nil => exact .nil
  | same n _ ih => exact .cons (.refl n) ih
  | @element tag attributes children children' ns ns' hattributes hsensitive _ _ ihchildren ih =>
      refine .cons (laidAlike_element fun depth => ?_) ih
      have htexts : attributeTexts ⟨opts, shown f⟩ { tag with attributes := attributes } =
          attributeTexts ⟨opts, shown f⟩ tag := attributeTexts_braced hattributes
      have htag : openTag ⟨opts, shown f⟩ depth { tag with attributes := attributes } =
          openTag ⟨opts, shown f⟩ depth tag := openTag_congr depth rfl rfl htexts
      rw [layoutNode, layoutNode, htag]
      cases hs : tag.sensitive with
      | true => rw [hsensitive hs]
      | false => simp [layoutChildren_alike ihchildren depth]

theorem firstRefusal_append (ss ss' : List Snippet) :
    firstRefusal f (ss ++ ss') = (firstRefusal f ss).or (firstRefusal f ss') := by
  induction ss with
  | nil => rfl
  | cons s ss ih => cases hs : f s.raw <;> simp [firstRefusal, hs, ih]

def attributeSnippet (parent : Bytes) (a : Attribute Location) : List Snippet :=
  if isFormatted a.kind then [⟨a.value, a.place, parent, a.name⟩] else []

theorem Tag.snippets_eq_flatMap (tag : Tag) :
    tag.snippets = tag.attributes.flatMap (attributeSnippet tag.name) := by
  unfold Tag.snippets
  generalize tag.attributes = as
  induction as with
  | nil => rfl
  | cons a as ih => cases ha : isFormatted a.kind <;> simp [attributeSnippet, ha, ih]

theorem firstRefusal_bracedAttribute {a a' : Attribute Location} (h : Braced f a a') (parent : Bytes) :
    firstRefusal f (attributeSnippet parent a') = firstRefusal f (attributeSnippet parent a) := by
  cases h with
  | same => rfl
  | @literal k hk hkind hf =>
      cases k <;> simp [attributeSnippet, hkind, kindOfLiteral, isFormatted, firstRefusal, hf]

theorem firstRefusal_bracedTag {tag : Tag} {attributes : List (Attribute Location)}
    (h : List.Forall₂ (Braced f) tag.attributes attributes) :
    firstRefusal f { tag with attributes := attributes }.snippets = firstRefusal f tag.snippets := by
  rw [Tag.snippets_eq_flatMap, Tag.snippets_eq_flatMap]
  generalize tag.attributes = as at h
  induction h with
  | nil => rfl
  | cons ha _ ih =>
      rw [List.flatMap_cons, List.flatMap_cons, firstRefusal_append, firstRefusal_append,
        firstRefusal_bracedAttribute ha, ih]

theorem firstRefusal_braced {ns ns' : List Node} (h : BracedAll f ns ns') :
    ∀ parent, firstRefusal f (snippetsIn parent ns') = firstRefusal f (snippetsIn parent ns) := by
  induction h with
  | nil => exact fun _ => rfl
  | same n _ ih =>
      intro parent
      rw [snippetsIn, snippetsIn, firstRefusal_append, firstRefusal_append, ih]
  | @element tag attributes children children' ns ns' hattributes hsensitive _ _ ihchildren ih =>
      intro parent
      rw [snippetsIn, snippetsIn, firstRefusal_append, firstRefusal_append, ih, nodeSnippets, nodeSnippets,
        firstRefusal_append, firstRefusal_append, firstRefusal_bracedTag hattributes]
      cases tag.sensitive with
      | true => rfl
      | false => simp [ihchildren]

end Braced

end MarkupFormat.Document

namespace MarkupFormat

open Bytes Document Layout Expression

-- Every way to write a literal is rendered alike.
theorem render_braced {f : Formatter} {nodes nodes' : List Node} (h : BracedAll f nodes nodes')
    (opts : Options) : render f opts nodes' = render f opts nodes := by
  have hrefusal : firstRefusal f (snippets nodes') = firstRefusal f (snippets nodes) :=
    firstRefusal_braced h []
  rw [render, render, hrefusal, layout_alike (laidAlike_braced h)]

def menu (title isOpen lang : AttributeKind) : List Node :=
  [.marker .documentStart false,
    .element
      ⟨ascii "List",
        [⟨ascii "title", title, ascii "\"a b\"", .start⟩, ⟨ascii "limit", .integer, ascii "10", .start⟩,
          ⟨ascii "open", isOpen, ascii "true", .start⟩, ⟨ascii "of", .expression, ascii " xs ", .start⟩],
        false, false, .start⟩
      [.marker .beforeFirstChild false,
        .element ⟨ascii "pre", [⟨ascii "lang", lang, ascii "\"c\"", .start⟩], false, true, .start⟩
          [.element ⟨ascii "b", [⟨ascii "n", .integer, ascii "5", .start⟩], false, false, .start⟩ []],
        .marker .beforeClosingTag false]]

def spreading : Formatter :=
  scripted [] [(ascii " xs ", ascii "[x,\n y]")]

theorem bracedAll_menu :
    BracedAll spreading (menu .string .boolean .string) (menu .expression .expression .expression) := by
  refine .same _ (.element ?_ nofun (.same _ (.element ?_ (fun _ => rfl) ?_ (.same _ .nil))) .nil)
  · exact .cons (.literal rfl rfl rfl) (.cons (.same _) (.cons (.literal rfl rfl rfl) (.cons (.same _) .nil)))
  · exact .cons (.literal rfl rfl rfl) .nil
  · exact .same _ .nil

theorem render_menu :
    BracedAll spreading (menu .string .boolean .string) (menu .expression .expression .expression) ∧
      render spreading .default (menu .expression .expression .expression) =
        render spreading .default (menu .string .boolean .string) ∧
      render spreading .default (menu .string .boolean .string) = .ok
        (ascii "<List\n  title=\"a b\"\n  limit=10\n  open\n  of=\x7b\x7b[x,\n   y]\x7d\x7d\n>"
          ++ ascii "\n  <pre lang=\"c\"><b n=5></b></pre>\n</List>\n") :=
  ⟨bracedAll_menu, render_braced bracedAll_menu .default, rfl⟩

end MarkupFormat
