import MarkupFormat.Proofs.Flow
import MarkupFormat.Render

namespace MarkupFormat.Layout

open Bytes Document

inductive Mode where
  | top
  | body (depth : Nat)
  | verbatim

namespace Mode

def lay (ctx : Context) : Mode → Node → Bytes
  | top => layoutTop ctx
  | body depth => fun n => layoutNode ctx (childDepth depth n) n
  | verbatim => Layout.verbatim

def within (tag : Tag) : Mode → Mode
  | top => if tag.sensitive then verbatim else body 0
  | body depth => if tag.sensitive then verbatim else body (depth + 1)
  | verbatim => verbatim

def opening (ctx : Context) (tag : Tag) : Mode → Bytes
  | top => openTag ctx 0 tag
  | body depth => openTag ctx (depth + 1) tag
  | verbatim => verbatimTag tag

theorem within_sensitive {tag : Tag} (h : tag.sensitive = true) (mode : Mode) :
    mode.within tag = verbatim := by
  cases mode <;> simp [within, h]

theorem flatMap_verbatim (ctx : Context) (ns : List Node) :
    ns.flatMap (verbatim.lay ctx) = verbatimAll ns := by
  induction ns with
  | nil => rfl
  | cons n ns ih => rw [List.flatMap_cons, ih, verbatimAll, lay]

theorem layoutNode_element (ctx : Context) (depth : Nat) {tag : Tag} (h : tag.selfClosing = false)
    (children : List Node) :
    layoutNode ctx depth (.element tag children) =
      openTag ctx depth tag
        ++ children.flatMap ((if tag.sensitive then verbatim else body depth).lay ctx)
        ++ closingTag tag.name := by
  cases hs : tag.sensitive with
  | true => simp [layoutNode, h, hs, flatMap_verbatim]
  | false => simp [layoutNode, h, hs, lay, layoutChildren_eq_flatMap]

theorem lay_element (ctx : Context) (mode : Mode) {tag : Tag} (h : tag.selfClosing = false)
    (children : List Node) :
    mode.lay ctx (.element tag children) =
      mode.opening ctx tag ++ children.flatMap ((mode.within tag).lay ctx) ++ closingTag tag.name := by
  cases mode with
  | top => exact layoutNode_element ctx 0 h children
  | body depth => exact layoutNode_element ctx (depth + 1) h children
  | verbatim => simp [lay, opening, within, Layout.verbatim, h, ← flatMap_verbatim ctx]

end Mode

end MarkupFormat.Layout

namespace MarkupFormat.Document

open Bytes Layout

inductive Site where
  | here (after : List Node)
  | later (n : Node) (site : Site)
  | inside (tag : Tag) (paired : tag.selfClosing = false) (site : Site) (after : List Node)

def Site.fill (m : Node) : Site → List Node
  | .here after => m :: after
  | .later n site => n :: site.fill m
  | .inside tag _ site after => .element tag (site.fill m) :: after

section Fill

variable {tag : Tag} (hsensitive : tag.sensitive = true)
include hsensitive

theorem snippetsIn_fill (site : Site) (body body' : List Node) (parent : Bytes) :
    snippetsIn parent (site.fill (.element tag body)) =
      snippetsIn parent (site.fill (.element tag body')) := by
  induction site generalizing parent with
  | here after => simp [Site.fill, snippetsIn, nodeSnippets, hsensitive]
  | later n site ih => rw [Site.fill, Site.fill, snippetsIn, snippetsIn, ih]
  | inside t paired site after ih =>
      rw [Site.fill, Site.fill, snippetsIn, snippetsIn, nodeSnippets, nodeSnippets, ih]

theorem lay_fill (hpaired : tag.selfClosing = false) (ctx : Context) (site : Site) (mode : Mode) :
    ∃ p s, ∀ body, (site.fill (.element tag body)).flatMap (mode.lay ctx) =
      p ++ verbatimAll body ++ s := by
  induction site generalizing mode with
  | here after =>
      refine ⟨mode.opening ctx tag, closingTag tag.name ++ after.flatMap (mode.lay ctx), fun body => ?_⟩
      rw [Site.fill, List.flatMap_cons, Mode.lay_element ctx mode hpaired,
        Mode.within_sensitive hsensitive, Mode.flatMap_verbatim]
      simp only [List.append_assoc]
  | later n site ih =>
      obtain ⟨p, s, h⟩ := ih mode
      refine ⟨mode.lay ctx n ++ p, s, fun body => ?_⟩
      rw [Site.fill, List.flatMap_cons, h]
      simp only [List.append_assoc]
  | inside t paired site after ih =>
      obtain ⟨p, s, h⟩ := ih (mode.within t)
      refine ⟨mode.opening ctx t ++ p, s ++ closingTag t.name ++ after.flatMap (mode.lay ctx),
        fun body => ?_⟩
      rw [Site.fill, List.flatMap_cons, Mode.lay_element ctx mode paired, h]
      simp only [List.append_assoc]

end Fill

theorem all_isMarker_fill (site : Site) (tag : Tag) (body : List Node) :
    (site.fill (.element tag body)).all Node.isMarker = false := by
  induction site with
  | here after => rfl
  | later n site ih => rw [Site.fill, List.all_cons, ih, Bool.and_false]
  | inside t paired site after ih => rfl

theorem layout_fill {tag : Tag} (hsensitive : tag.sensitive = true) (hpaired : tag.selfClosing = false)
    (ctx : Context) (site : Site) :
    ∃ p s, ∀ body, layout ctx (site.fill (.element tag body)) = p ++ verbatimAll body ++ s := by
  obtain ⟨p, s, h⟩ := lay_fill hsensitive hpaired ctx site .top
  refine ⟨p, s ++ ctx.newline, fun body => ?_⟩
  have htop := h body
  rw [Mode.lay] at htop
  rw [layout, all_isMarker_fill, if_neg Bool.false_ne_true, htop, List.append_assoc]

end MarkupFormat.Document

namespace MarkupFormat

open Bytes Document Layout Expression

theorem render_fill {tag : Tag} (hsensitive : tag.sensitive = true) (hpaired : tag.selfClosing = false)
    (f : Formatter) (opts : Options) (site : Site) :
    (∃ p s called, ∀ body,
        render f opts (site.fill (.element tag body)) = .ok (p ++ verbatimAll body ++ s) ∧
          calls f (snippets (site.fill (.element tag body))) = called) ∨
      ∃ r called, ∀ body,
        render f opts (site.fill (.element tag body)) = .error r ∧
          calls f (snippets (site.fill (.element tag body))) = called := by
  have hsnippets : ∀ body, snippets (site.fill (.element tag body)) =
      snippets (site.fill (.element tag [])) :=
    fun body => snippetsIn_fill hsensitive site body [] []
  simp only [render, hsnippets]
  cases firstRefusal f (snippets (site.fill (.element tag []))) with
  | some refused => exact .inr ⟨_, _, fun _ => ⟨rfl, rfl⟩⟩
  | none =>
      obtain ⟨p, s, h⟩ := layout_fill hsensitive hpaired ⟨opts, shown f⟩ site
      exact .inl ⟨p, s, _, fun body => ⟨by rw [h], rfl⟩⟩

-- The bytes of the body of a sensitive element are seen by nothing but the output, where they stand as
-- they are.
theorem render_sealed {tag : Tag} (hsensitive : tag.sensitive = true)
    (hpaired : tag.selfClosing = false) (f : Formatter) (opts : Options) (site : Site) :
    (∃ p s called, ∀ b : Bytes,
        render f opts (site.fill (.element tag [.text b])) = .ok (p ++ b ++ s) ∧
          calls f (snippets (site.fill (.element tag [.text b]))) = called) ∨
      ∃ r called, ∀ b : Bytes,
        render f opts (site.fill (.element tag [.text b])) = .error r ∧
          calls f (snippets (site.fill (.element tag [.text b]))) = called := by
  have htext : ∀ b : Bytes, verbatimAll [.text b] = b := fun b => List.append_nil b
  rcases render_fill hsensitive hpaired f opts site with ⟨p, s, called, h⟩ | ⟨r, called, h⟩
  · refine .inl ⟨p, s, called, fun b => ?_⟩
    have hb := h [.text b]
    rwa [htext] at hb
  · exact .inr ⟨r, called, fun b => h [.text b]⟩

def plainTag (name : Bytes) : Tag :=
  ⟨name, [], false, ElementName.isSensitive name, .start⟩

def codeSite : Site :=
  .later (.marker .documentStart false)
    (.inside (plainTag (ascii "p")) rfl
      (.later (.expression (ascii "x") .start) (.here [.expression (ascii "y") .start])) [])

theorem render_code :
    ∃ p s called, ∀ b : Bytes,
      render .ok .default (codeSite.fill (.element (plainTag (ascii "code")) [.text b])) =
          .ok (p ++ b ++ s) ∧
        calls .ok (snippets (codeSite.fill (.element (plainTag (ascii "code")) [.text b]))) =
          called := by
  refine (render_sealed (by decide) rfl .ok .default codeSite).resolve_right ?_
  rintro ⟨r, called, h⟩
  cases (h []).1

end MarkupFormat
