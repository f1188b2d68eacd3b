import MarkupFormat.Proofs.Sound

namespace MarkupFormat.Layout

open Bytes Document
open Written hiding Node

structure TagLay where
  gap : Bytes
  values : Option Nat
  last : Bytes

def tagLay (ctx : Context) (depth : Nat) (tag : Tag) : TagLay :=
  match tagShape ctx depth tag with
  | .oneLine => ⟨[Byte.space], none, if tag.selfClosing then [Byte.space] else []⟩
  | .hugging => ⟨[Byte.space], some depth, if tag.selfClosing then [Byte.space] else []⟩
  | .wrapped _ =>
      ⟨ctx.newline ++ indent (depth + 1), some (depth + 1), ctx.newline ++ indent depth⟩

def laidAttribute (ctx : Context) (lay : TagLay) (a : Attribute Location) : WrittenAttribute :=
  ⟨lay.gap, a.name, valueOf ctx lay.values a⟩

def laidTag (ctx : Context) (depth : Nat) (tag : Tag) : OpenTag where
  name := tag.name
  attributes := tag.attributes.map (laidAttribute ctx (tagLay ctx depth tag))
  space := (tagLay ctx depth tag).last

theorem tagLay_blank (ctx : Context) (depth : Nat) (tag : Tag) :
    (tagLay ctx depth tag).gap ≠ [] ∧ allBlank (tagLay ctx depth tag).gap = true ∧
      allBlank (tagLay ctx depth tag).last = true := by
  have hspace : allBlank [Byte.space] = true := by decide
  have hlast : allBlank (if tag.selfClosing then [Byte.space] else []) = true := by
    split
    · exact hspace
    · rfl
  have hline : ∀ d, allBlank (ctx.newline ++ indent d) = true := by
    intro d
    rw [allBlank_append, allBlank_newline, allBlank_indent]
    rfl
  unfold tagLay
  cases tagShape ctx depth tag with
  | oneLine => exact ⟨by simp, hspace, hlast⟩
  | hugging => exact ⟨by simp, hspace, hlast⟩
  | wrapped reason => exact ⟨by simp [newline_ne_nil], hline _, hline _⟩

section Tags

variable {ctx : Context} {S R : Bytes → Prop} (hctx : Supports ctx S R) {tag : Tag}
  (h : SoundTag S R tag)
include hctx h

theorem sound_laidTag (depth : Nat) : (laidTag ctx depth tag).Sound where
  name := h.name
  noComment := h.noComment
  attributes := by
    intro a ha
    obtain ⟨b, hb, rfl⟩ := List.mem_map.1 ha
    obtain ⟨hne, hgap, -⟩ := tagLay_blank ctx depth tag
    exact ⟨hne, hgap, (h.attributes b hb).name, sound_valueOf ctx _ hctx (h.attributes b hb)⟩
  space := (tagLay_blank ctx depth tag).2.2

theorem write_laidAttributes (lay : TagLay) :
    (tag.attributes.map (laidAttribute ctx lay)).flatMap WrittenAttribute.write =
      (attributeTexts ctx tag).flatMap fun a => lay.gap ++ ctx.lay lay.values a.text := by
  rw [attributeTexts, List.flatMap_map, List.flatMap_map]
  refine List.flatMap_congr fun a ha => ?_
  rw [lay_attributeText ctx _ hctx (h.attributes a ha)]
  simp [WrittenAttribute.write, laidAttribute]

theorem write_laidTag (depth : Nat) :
    (laidTag ctx depth tag).write ++ tagEnd tag = openTag ctx depth tag := by
  have hw := write_laidAttributes hctx h (tagLay ctx depth tag)
  have hend : (if tag.selfClosing then [Byte.space] else []) ++ tagEnd tag = inlineEnd tag := by
    unfold inlineEnd
    split <;> rfl
  have hwrite : (laidTag ctx depth tag).write ++ tagEnd tag =
      tagHead tag ++ (attributeTexts ctx tag).flatMap (fun a =>
        (tagLay ctx depth tag).gap ++ ctx.lay (tagLay ctx depth tag).values a.text) ++
          ((tagLay ctx depth tag).last ++ tagEnd tag) := by
    rw [← hw]
    simp [OpenTag.write, laidTag, tagHead]
  rw [hwrite]
  unfold openTag tagLay
  cases tagShape ctx depth tag with
  | oneLine =>
      simp only [hend]
      rfl
  | hugging =>
      simp only [hend]
      rfl
  | wrapped reason => simp [Context.lay]

end Tags

def consText (t : Bytes) : List Written.Node → List Written.Node
  | .text u :: ws => .text (t ++ u) :: ws
  | ws => .text t :: ws

theorem consText_cases (t : Bytes) (ws : List Written.Node) :
    (∃ u vs, ws = .text u :: vs ∧ consText t ws = .text (t ++ u) :: vs) ∨
      ((∀ u vs, ws ≠ .text u :: vs) ∧ consText t ws = .text t :: ws) := by
  cases ws with
  | nil => exact .inr ⟨by simp, rfl⟩
  | cons w ws =>
      cases w with
      | text u => exact .inl ⟨u, ws, rfl, rfl⟩
      | comment t => exact .inr ⟨by simp, rfl⟩
      | interpolation inner => exact .inr ⟨by simp, rfl⟩
      | selfClosed tag => exact .inr ⟨by simp, rfl⟩
      | verbatim tag body => exact .inr ⟨by simp, rfl⟩
      | element tag children => exact .inr ⟨by simp, rfl⟩

theorem writeAll_consText (t : Bytes) (ws : List Written.Node) :
    writeAll (consText t ws) = t ++ writeAll ws := by
  rcases consText_cases t ws with ⟨u, vs, rfl, h⟩ | ⟨-, h⟩
  · rw [h]
    simp [writeAll, Written.Node.write]
  · rw [h]
    rfl

theorem coveredAll_consText {t : Bytes} {ws : List Written.Node} :
    CoveredAll (consText t ws) ↔ CoveredAll ws := by
  rcases consText_cases t ws with ⟨u, vs, rfl, hc⟩ | ⟨-, hc⟩
  · rw [hc]
    exact Iff.rfl
  · rw [hc]
    exact iff_of_eq (true_and _)

def Ends (after : Bytes) : Prop :=
  after = [] ∨ after.head? = some Byte.less

theorem startsMarkup_writeAll {ws : List Written.Node} {after : Bytes} (hafter : Ends after)
    (h : LegalAll after ws) (hws : ∀ u vs, ws ≠ .text u :: vs) :
    writeAll ws ++ after = [] ∨ startsMarkup (writeAll ws ++ after) = true := by
  cases ws with
  | nil =>
      rcases hafter with rfl | ha
      · exact .inl rfl
      · right
        cases after with
        | nil => cases ha
        | cons c s =>
            have hc : c = Byte.less := by simpa using ha
            exact startsMarkup_cons.2 (.inl hc)
  | cons w ws =>
      right
      have hitem : ∀ {i : Item}, i.Legal → ∀ {v}, w.write = i.write ++ v →
          startsMarkup (writeAll (w :: ws) ++ after) = true := by
        intro i hi v hw
        have := hi.startsMarkup (v ++ (writeAll ws ++ after))
        simpa [writeAll, hw] using this
      cases w with
      | text u => exact absurd rfl (hws u ws)
      | comment t => exact hitem h.1 (v := []) (by simp [Item.write])
      | interpolation inner => exact hitem h.1 (v := []) (by simp [Item.write])
      | selfClosed tag => exact hitem h.1 (v := []) (by simp [Item.write])
      | verbatim tag body => exact hitem h.1 (v := []) (by simp [Item.write])
      | element tag children =>
          exact hitem h.1.1 (v := writeAll children ++ closingTag tag.name)
            (by simp [Item.write, Written.Node.write])

theorem braces_append {t u : Bytes} (ht : ¬openDelimiter <:+: t) (hu : ¬openDelimiter <:+: u)
    (h : t.getLast? = some Byte.openBrace → u.head? ≠ some Byte.openBrace) :
    ¬openDelimiter <:+: t ++ u := by
  intro hi
  rcases List.infix_append_iff_ne_nil.1 hi with hi | hi | ⟨a, b, ha, hb, hab, hat, hbu⟩
  · exact ht hi
  · exact hu hi
  · cases a with
    | nil => exact ha rfl
    | cons c a =>
        simp only [openDelimiter, List.cons_append, List.cons.injEq] at hab
        obtain ⟨rfl, hab⟩ := hab
        cases a with
        | cons d a =>
            simp only [List.cons_append, List.cons.injEq, List.nil_eq, List.append_eq_nil_iff] at hab
            exact hb hab.2.2
        | nil =>
            obtain ⟨x, rfl⟩ := hat
            obtain ⟨y, rfl⟩ := hbu
            rw [List.nil_append] at hab
            refine h (by simp) ?_
            rw [← hab]
            rfl

theorem legalAll_consText {t after : Bytes} {ws : List Written.Node} (hafter : Ends after)
    (h : LegalAll after ws) (ht : t ≠ []) (hless : Byte.less ∉ t) (hbraces : ¬openDelimiter <:+: t)
    (hlast : t.getLast? = some Byte.openBrace →
      (writeAll ws ++ after).head? ≠ some Byte.openBrace) :
    LegalAll after (consText t ws) := by
  rcases consText_cases t ws with ⟨u, vs, rfl, hc⟩ | ⟨hno, hc⟩
  · rw [hc]
    obtain ⟨⟨hu, hcut⟩, hvs⟩ := h
    obtain ⟨hl, hb, hlu, hend⟩ := cutAt_startsMarkup_iff.1 hcut
    refine ⟨⟨by simp [ht], cutAt_startsMarkup_iff.2 ⟨?_, ?_, ?_, hend⟩⟩, hvs⟩
    · rw [List.mem_append]
      exact fun h => h.elim hless hl
    · refine braces_append hbraces hb fun h1 h2 => hlast h1 ?_
      cases u with
      | nil => exact absurd rfl hu
      | cons c u => simpa [writeAll, Written.Node.write] using h2
    · intro h1
      cases u with
      | nil => exact absurd rfl hu
      | cons c u =>
          rw [List.getLast?_append, List.getLast?_cons] at h1
          refine hlu ?_
          rw [List.getLast?_cons]
          simpa using h1
  · rw [hc]
    exact ⟨⟨ht, cutAt_startsMarkup_iff.2
      ⟨hless, hbraces, hlast, startsMarkup_writeAll hafter h hno⟩⟩, h⟩

theorem markerText_facts (ctx : Context) (depth : Nat) (blank : Bool) :
    allBlank (markerText ctx depth blank) = true ∧ Byte.lf ∈ markerText ctx depth blank ∧
      hasBlankLine (markerText ctx depth blank) = blank := by
  have hcount : ∀ nl : Newline, nl.text.count Byte.lf = 1 := by
    intro nl
    cases nl <;> decide
  have hindent : (indent depth).count Byte.lf = 0 := by
    refine List.count_eq_zero.2 fun h => ?_
    have := List.eq_of_mem_replicate h
    exact absurd this (by decide)
  have hblank : ∀ b : Bool, allBlank (if b then ctx.newline else []) = true := by
    intro b
    split
    · exact allBlank_newline ctx
    · rfl
  refine ⟨?_, ?_, ?_⟩
  · simp only [markerText, allBlank_append, allBlank_newline, allBlank_indent, hblank]
    rfl
  · have : Byte.lf ∈ ctx.newline := List.count_pos_iff.1 (by rw [Context.newline, hcount]; decide)
    simp [markerText, this]
  · simp only [hasBlankLine, markerText, List.count_append, hindent, Context.newline, hcount]
    cases blank with
    | true => simp [hcount]
    | false => simp

def innerText (ctx : Context) (depth : Nat) (t : Bytes) : Bytes :=
  if t = [] then [] else Byte.space :: ctx.reindent depth t ++ [Byte.space]

def readAgain (t : Bytes) : List Written.Node :=
  (Written.read t).toOption.getD []

def laidElement (ctx : Context) (depth : Nat) (tag : Tag) (children : List Node)
    (body : List Written.Node) : Written.Node :=
  if tag.selfClosing then .selfClosed (laidTag ctx depth tag)
  else if startsWith [Byte.hash] tag.name then
    .verbatim (laidTag ctx depth tag)
      (if tag.sensitive then verbatimAll children else layoutChildren ctx depth children)
  else
    .element (laidTag ctx depth tag) (if tag.sensitive then readAgain (verbatimAll children) else body)

mutual
def flowNode (ctx : Context) (depth : Nat) : Node → List Written.Node → List Written.Node
  | .marker _ blank, ws => consText (markerText ctx depth blank) ws
  | .text t, ws => consText t ws
  | .expression raw _, ws => .interpolation (innerText ctx depth (ctx.shown raw)) :: ws
  | .element tag children, ws =>
      laidElement ctx depth tag children (flowAll ctx (childDepth depth) children) :: ws

def flowAll (ctx : Context) (place : Node → Nat) : List Node → List Written.Node
  | [] => []
  | n :: ns => flowNode ctx (place n) n (flowAll ctx place ns)
end

mutual
def rereadNode (ctx : Context) (depth : Nat) : Node → Node
  | .marker position blank => .marker position blank
  | .text t => .text t
  | .expression raw _ => .expression (innerText ctx depth (ctx.shown raw)) .start
  | .element tag children =>
      .element (Tag.ofWritten (laidTag ctx depth tag) tag.selfClosing)
        (rereadAll ctx (childDepth depth) children)

def rereadAll (ctx : Context) (place : Node → Nat) : List Node → List Node
  | [] => []
  | n :: ns => rereadNode ctx (place n) n :: rereadAll ctx place ns
end

theorem rereadAll_eq_map (ctx : Context) (place : Node → Nat) (ns : List Node) :
    rereadAll ctx place ns = ns.map fun n => rereadNode ctx (place n) n := by
  induction ns with
  | nil => rfl
  | cons n ns ih => simp [rereadAll, ih]

theorem rereadAll_verbatimText (ctx : Context) (place : Node → Nat) (t : Bytes) :
    rereadAll ctx place (verbatimText t) = verbatimText t := by
  unfold verbatimText
  split <;> rfl

theorem isMarker_rereadNode (ctx : Context) (depth : Nat) (n : Node) :
    (rereadNode ctx depth n).isMarker = n.isMarker := by
  cases n <;> rfl

theorem settled_rereadAll (ctx : Context) (place : Node → Nat) {ns : List Node} (h : Settled ns) :
    Settled (rereadAll ctx place ns) := by
  let g : Node → Node := fun n => rereadNode ctx (place n) n
  have hpiece : ∀ n, asPiece (g n) = Piece.map g (asPiece n) := by
    intro n
    cases n <;> rfl
  rw [rereadAll_eq_map]
  change bodyNodes (asPieces (ns.map g)) = ns.map g
  have hmap : asPieces (ns.map g) = (asPieces ns).map (Piece.map g) := by
    simp [asPieces, hpiece]
  rw [hmap, ← map_bodyNodes (g := g) (fun _ _ => rfl)]
  exact congrArg (List.map g) h

def IsItem (n : Node) : Prop :=
  n.isMarker = false ∧ n.isText = false

structure Faithful (ctx : Context) (depth : Nat) (n : Node) (w : Written.Node) : Prop where
  flow : ∀ ws, flowNode ctx depth n ws = w :: ws
  write : w.write = layoutNode ctx depth n
  solid : ∀ t, w ≠ .text t
  legal : ∀ after, w.Legal after
  covered : w.Covered
  pieces : piecesOf w = [.content (rereadNode ctx depth n)]

structure FaithfulAll (ctx : Context) (S R : Bytes → Prop) (ns : List Node) : Prop where
  sound : ∀ n ∈ ns, Sound S R n
  items : ∀ n ∈ ns, IsItem n → ∀ depth, ∃ w, Faithful ctx depth n w

theorem FaithfulAll.tail {ctx : Context} {S R : Bytes → Prop} {n : Node} {ns : List Node}
    (h : FaithfulAll ctx S R (n :: ns)) : FaithfulAll ctx S R ns :=
  ⟨fun m hm => h.sound m (by simp [hm]), fun m hm => h.items m (by simp [hm])⟩

section Flow

variable {ctx : Context} {S R : Bytes → Prop} {place : Node → Nat} {ns : List Node}
  (h : FaithfulAll ctx S R ns)
include h

theorem writeAll_flowAll :
    writeAll (flowAll ctx place ns) = ns.flatMap fun n => layoutNode ctx (place n) n := by
  induction ns with
  | nil => rfl
  | cons n ns ih =>
      have ih := ih h.tail
      rw [flowAll, List.flatMap_cons, ← ih]
      have hitem : IsItem n → writeAll (flowNode ctx (place n) n (flowAll ctx place ns)) =
          layoutNode ctx (place n) n ++ writeAll (flowAll ctx place ns) := by
        intro hn
        obtain ⟨w, hw⟩ := h.items n (by simp) hn (place n)
        rw [hw.flow, writeAll, hw.write]
      cases n with
      | marker p b => exact writeAll_consText _ _
      | text t => exact writeAll_consText _ _
      | expression raw location => exact hitem ⟨rfl, rfl⟩
      | element tag children => exact hitem ⟨rfl, rfl⟩

theorem covered_flowAll : CoveredAll (flowAll ctx place ns) := by
  induction ns with
  | nil => trivial
  | cons n ns ih =>
      have ih := ih h.tail
      rw [flowAll]
      have hitem : IsItem n → CoveredAll (flowNode ctx (place n) n (flowAll ctx place ns)) := by
        intro hn
        obtain ⟨w, hw⟩ := h.items n (by simp) hn (place n)
        rw [hw.flow]
        exact ⟨hw.covered, ih⟩
      cases n with
      | marker p b => exact coveredAll_consText.2 ih
      | text t => exact coveredAll_consText.2 ih
      | expression raw location => exact hitem ⟨rfl, rfl⟩
      | element tag children => exact hitem ⟨rfl, rfl⟩

theorem head_flowAll {after : Bytes} (hafter : Ends after)
    (hb : (writeAll (flowAll ctx place ns) ++ after).head? = some Byte.openBrace) :
    ∃ n ∈ ns.head?, n.isText = true ∨ ∃ raw location, n = .expression raw location := by
  rw [writeAll_flowAll h] at hb
  cases ns with
  | nil =>
      rcases hafter with rfl | ha
      · cases hb
      · have hb' : after.head? = some Byte.openBrace := hb
        rw [ha] at hb'
        cases hb'
  | cons n ns =>
      refine ⟨n, rfl, ?_⟩
      cases n with
      | text t => exact .inl rfl
      | expression raw location => exact .inr ⟨raw, location, rfl⟩
      | marker p b =>
          rw [List.flatMap_cons, layoutNode, markerText, Context.newline] at hb
          cases hn : ctx.options.newline <;> simp [hn, Newline.text] at hb <;> cases hb
      | element tag children =>
          have hopen : ∀ depth, ∃ r, openTag ctx depth tag = Byte.less :: r := by
            intro depth
            unfold openTag
            cases tagShape ctx depth tag <;> exact ⟨_, rfl⟩
          obtain ⟨r, hr⟩ := hopen (place (.element tag children))
          rw [List.flatMap_cons, layoutNode, hr] at hb
          cases hb

theorem legal_flowAll {after : Bytes} (hafter : Ends after) (hclean : CleanAll ns) :
    LegalAll after (flowAll ctx place ns) := by
  induction ns with
  | nil => trivial
  | cons n ns ih =>
      have hs := h.sound n (by simp)
      obtain ⟨hn, hnext, hns⟩ := hclean
      have hlegal := ih h.tail hns
      have hitem : IsItem n → LegalAll after (flowNode ctx (place n) n (flowAll ctx place ns)) := by
        intro hn
        obtain ⟨w, hw⟩ := h.items n (by simp) hn (place n)
        rw [hw.flow]
        exact ⟨hw.legal _, hlegal⟩
      rw [flowAll]
      cases n with
      | expression raw location => exact hitem ⟨rfl, rfl⟩
      | element tag children => exact hitem ⟨rfl, rfl⟩
      | marker p b =>
          obtain ⟨hblank, hlf, -⟩ := markerText_facts ctx (place (.marker p b)) b
          have hno : ∀ c, isBlank c = false → c ∉ markerText ctx (place (.marker p b)) b := by
            intro c hc hm
            have := List.all_eq_true.1 hblank c hm
            rw [hc] at this
            cases this
          refine legalAll_consText hafter hlegal (List.ne_nil_of_mem hlf) (hno _ (by decide)) ?_ ?_
          · intro hi
            exact hno Byte.openBrace (by decide) (hi.subset (by simp [openDelimiter]))
          · intro hl
            exact absurd (List.mem_of_getLast? hl) (hno _ (by decide))
      | text t =>
          obtain ⟨hline, hless⟩ := hs.text_inv
          refine legalAll_consText hafter hlegal hline.ne_nil hless hn ?_
          intro hl hb
          obtain ⟨m, hm, hmt⟩ := head_flowAll h.tail hafter hb
          have hab := hnext m hm
          rcases hmt with hmt | ⟨raw, location, rfl⟩
          · cases m with
            | text u => cases hab
            | marker p b => cases hmt
            | expression raw location => cases hmt
            | element tag children => cases hmt
          · simp [abuts, hl] at hab

def SolidHead (ws : List Written.Node) : Prop :=
  ∀ u vs, ws = .text u :: vs → startsSolid u = true

theorem solidHead_flowAll (hm : ∀ n ∈ ns.head?, n.isMarker = false) :
    SolidHead (flowAll ctx place ns) := by
  intro u vs hu
  cases ns with
  | nil => cases hu
  | cons n ns =>
      have hitem : IsItem n → startsSolid u = true := by
        intro hn
        obtain ⟨w, hw⟩ := h.items n (by simp) hn (place n)
        rw [flowAll, hw.flow] at hu
        simp only [List.cons.injEq] at hu
        exact absurd hu.1 (hw.solid u)
      cases n with
      | marker p b => cases hm _ rfl
      | expression raw location => exact hitem ⟨rfl, rfl⟩
      | element tag children => exact hitem ⟨rfl, rfl⟩
      | text t =>
          have hline := (h.sound (.text t) (by simp)).text_inv.1
          have hsolid : ∀ v, startsSolid (t ++ v) = true := by
            intro v
            rw [startsSolid_append hline.ne_nil]
            exact hline.starts_solid
          rw [flowAll, flowNode] at hu
          rcases consText_cases t (flowAll ctx place ns) with ⟨v, us, -, hc⟩ | ⟨-, hc⟩
          · rw [hc] at hu
            cases hu
            exact hsolid v
          · rw [hc] at hu
            cases hu
            exact hline.starts_solid

end Flow

theorem consText_marker {m : Bytes} {ws : List Written.Node} (hm : m ≠ []) (hb : allBlank m = true)
    (hws : SolidHead ws) :
    (∃ u vs, consText m ws = .text (m ++ u) :: vs ∧ startsSolid u = true) ∧
      piecesAll (consText m ws) = .space (hasBlankLine m) :: piecesAll ws := by
  rcases consText_cases m ws with ⟨u, vs, rfl, hc⟩ | ⟨-, hc⟩
  · have hu := hws u vs rfl
    refine ⟨⟨u, vs, hc, hu⟩, ?_⟩
    rw [hc, piecesAll, piecesAll, piecesOf, piecesOf, linePieces_blank hm hb hu]
    simp [textPieces, spacePieces, hm]
  · refine ⟨⟨[], ws, by rw [hc, List.append_nil], rfl⟩, ?_⟩
    have := linePieces_blank (t := []) hm hb rfl []
    rw [List.append_nil] at this
    rw [hc, piecesAll, piecesOf, this]
    simp [textPieces, spacePieces, hm, runs, linePieces]

theorem piecesAll_line {t : Bytes} {ws : List Written.Node} (ht : IsLine t)
    (hws : ∀ u vs, ws = .text u :: vs →
      ∃ m v, u = m ++ v ∧ Byte.lf ∈ m ∧ allBlank m = true ∧ startsSolid v = true) :
    piecesAll (consText t ws) = .content (.text t) :: piecesAll ws := by
  rcases consText_cases t ws with ⟨u, vs, rfl, hc⟩ | ⟨-, hc⟩
  · obtain ⟨m, v, rfl, hlf, hb, hv⟩ := hws u vs rfl
    have hm : m ≠ [] := List.ne_nil_of_mem hlf
    have hline := linePieces_line ht [] (m ++ v)
    rw [List.nil_append, linePieces_blank hm hb hv] at hline
    rw [hc, piecesAll, piecesAll, piecesOf, piecesOf, hline, linePieces_blank hm hb hv]
    simp [textPieces, hlf, ht.ne_nil]
  · have hline := linePieces_line ht [] []
    rw [List.append_nil] at hline
    rw [hc, piecesAll, piecesOf, hline]
    simp [runs, linePieces, textPieces, ht.ne_nil]

theorem head_after_marker {n : Node} {ns : List Node} (h : MarkersApart (n :: ns))
    (hn : n.isMarker = true) : ∀ m ∈ ns.head?, m.isMarker = false := by
  intro m hm
  cases ns with
  | nil => cases hm
  | cons k ks =>
      have hk : k = m := by simpa using hm
      have := (List.isChain_cons_cons.1 h).1
      simpa [hn, hk] using this

theorem pieces_flowAll {ctx : Context} {S R : Bytes → Prop} {place : Node → Nat} {ns : List Node}
    (h : FaithfulAll ctx S R ns) (hm : MarkersApart ns) (hclean : CleanAll ns) :
    piecesAll (flowAll ctx place ns) = asPieces (rereadAll ctx place ns) := by
  induction ns with
  | nil => rfl
  | cons n ns ih =>
      have ih := ih h.tail (List.IsChain.tail hm) hclean.2.2
      have hitem : IsItem n →
          piecesAll (flowNode ctx (place n) n (flowAll ctx place ns)) =
            asPiece (rereadNode ctx (place n) n) :: asPieces (rereadAll ctx place ns) := by
        intro hn
        obtain ⟨w, hw⟩ := h.items n (by simp) hn (place n)
        rw [hw.flow, piecesAll, hw.pieces, ih, asPiece_solid]
        · rfl
        · rw [isMarker_rereadNode]
          exact hn.1
      rw [flowAll, rereadAll]
      change _ = asPiece (rereadNode ctx (place n) n) :: asPieces (rereadAll ctx place ns)
      cases n with
      | expression raw location => exact hitem ⟨rfl, rfl⟩
      | element tag children => exact hitem ⟨rfl, rfl⟩
      | marker p b =>
          obtain ⟨hblank, hlf, hline⟩ := markerText_facts ctx (place (.marker p b)) b
          have hsolid : SolidHead (flowAll ctx place ns) :=
            solidHead_flowAll h.tail (head_after_marker hm rfl)
          rw [flowNode, (consText_marker (List.ne_nil_of_mem hlf) hblank hsolid).2, hline, ih]
          rfl
      | text t =>
          have ht := (h.sound (.text t) (by simp)).text_inv.1
          rw [flowNode, piecesAll_line ht, ih]
          · rfl
          · -- text is followed by whitespace, or by an item
            intro u vs hu
            cases ns with
            | nil => cases hu
            | cons k ks =>
                have hk := hclean.2.1 k rfl
                have hnot : IsItem k → ∃ m v, u = m ++ v ∧ Byte.lf ∈ m ∧ allBlank m = true ∧
                    startsSolid v = true := by
                  intro hn
                  obtain ⟨w, hw⟩ := h.tail.items k (by simp) hn (place k)
                  rw [flowAll, hw.flow] at hu
                  simp only [List.cons.injEq] at hu
                  exact absurd hu.1 (hw.solid u)
                cases k with
                | text s => cases hk
                | expression raw location => exact hnot ⟨rfl, rfl⟩
                | element tag children => exact hnot ⟨rfl, rfl⟩
                | marker p b =>
                    obtain ⟨hblank, hlf, -⟩ := markerText_facts ctx (place (.marker p b)) b
                    have hsolid : SolidHead (flowAll ctx place ks) :=
                      solidHead_flowAll h.tail.tail (head_after_marker (List.IsChain.tail hm) rfl)
                    obtain ⟨v, us, hc, hv⟩ :=
                      (consText_marker (List.ne_nil_of_mem hlf) hblank hsolid).1
                    rw [flowAll, flowNode, hc] at hu
                    cases hu
                    exact ⟨_, v, rfl, hlf, hblank, hv⟩

theorem layoutChildren_eq_flatMap (ctx : Context) (depth : Nat) (ns : List Node) :
    layoutChildren ctx depth ns = ns.flatMap fun n => layoutNode ctx (childDepth depth n) n := by
  induction ns with
  | nil => rfl
  | cons n ns ih => rw [layoutChildren, ih, List.flatMap_cons]

theorem markersApart_rereadAll {ctx : Context} {place : Node → Nat} {ns : List Node}
    (h : MarkersApart ns) : MarkersApart (rereadAll ctx place ns) := by
  rw [rereadAll_eq_map, MarkersApart, List.isChain_map]
  simp only [isMarker_rereadNode]
  exact h

theorem legal_interpolation {inner : Bytes} (h : Expression.enclosed .start inner = true) :
    Item.Legal (.node (.interpolation inner)) where
  read := by
    have := readItem_interpolation (Expression.scanCode_enclosed [] h)
    rwa [List.append_nil] at this
  opens := rfl
  solid := by simp

theorem enclosed_innerText (ctx : Context) (depth : Nat) {t : Bytes} (h : Presentable t) :
    Expression.enclosed .start (innerText ctx depth t) = true := by
  unfold innerText
  split
  · rfl
  · obtain ⟨ls, hls⟩ := h.literals
    exact enclosed_space ((enclosed_lay ctx (some depth) hls).trans h.enclosed)

theorem cutAt_closing_blank {m name : Bytes} (h : allBlank m = true) :
    cutAt (startsWith (closingTag name)) (m ++ closingTag name) = (m, closingTag name) := by
  refine cutAt_eq_iff.2 ⟨rfl, ?_, .inr (startsWith_iff.2 ⟨[], by simp⟩)⟩
  rintro x y rfl hy
  cases y with
  | nil => exact absurd rfl hy
  | cons c y =>
      have hc : c ≠ Byte.less := by
        rintro rfl
        have := List.all_eq_true.1 h Byte.less (by simp)
        cases this
      simp [startsWith, closingTag, List.isPrefixOf, Ne.symm hc]

theorem ends_closingTag (name after : Bytes) : Ends (closingTag name ++ after) :=
  .inr rfl

section Items

variable {ctx : Context} {S R : Bytes → Prop} (hctx : Supports ctx S R)
include hctx

theorem faithful_expression (depth : Nat) {raw : Bytes} (location : Location) (h : R raw) :
    Faithful ctx depth (.expression raw location)
      (.interpolation (innerText ctx depth (ctx.shown raw))) where
  flow := fun _ => rfl
  write := by
    simp only [Written.Node.write, layoutNode, interpolationText, innerText]
    split
    · rfl
    · simp
  solid := by simp
  legal := fun _ => legal_interpolation (enclosed_innerText ctx depth (hctx.presentable _ h))
  covered := trivial
  pieces := rfl

variable {tag : Tag} (ht : SoundTag S R tag) (depth : Nat)
include ht

theorem faithful_selfClosed (hs : tag.selfClosing = true) :
    Faithful ctx depth (.element tag []) (.selfClosed (laidTag ctx depth tag)) where
  flow := by
    intro ws
    simp [flowNode, laidElement, hs]
  write := by
    have := write_laidTag hctx ht depth
    rw [tagEnd, if_pos hs] at this
    simp [Written.Node.write, layoutNode, this, hs]
  solid := by simp
  legal := fun _ => (sound_laidTag hctx ht depth).legal_selfClosed
  covered := trivial
  pieces := by simp [piecesOf, rereadNode, rereadAll, hs]

theorem write_open (hs : tag.selfClosing = false) :
    (laidTag ctx depth tag).write ++ [Byte.greater] = openTag ctx depth tag := by
  rw [← write_laidTag hctx ht depth, tagEnd, hs, if_neg (by decide)]

theorem faithful_verbatim (hs : tag.selfClosing = false)
    (hh : startsWith [Byte.hash] tag.name = true) {children : List Node} {body : Bytes}
    (hbody : (if tag.sensitive then verbatimAll children else layoutChildren ctx depth children) = body)
    (hcut : cutAt (startsWith (closingTag tag.name)) (body ++ closingTag tag.name) =
      (body, closingTag tag.name))
    (hcov : tag.sensitive = true ∨ allBlank body = true)
    (hp : (if tag.sensitive then verbatimText body else bodyNodes (joinSpaces (spacePieces body))) =
      rereadAll ctx (childDepth depth) children) :
    Faithful ctx depth (.element tag children) (.verbatim (laidTag ctx depth tag) body) where
  flow := by
    intro ws
    simp [flowNode, laidElement, hs, hh, hbody]
  write := by
    have hw := write_open hctx ht depth hs
    have hinner : (if tag.sensitive then verbatimAll children ++ closingTag tag.name
        else layoutChildren ctx depth children ++ closingTag tag.name) =
        body ++ closingTag tag.name := by
      rw [← hbody]
      split <;> rfl
    rw [layoutNode, hinner, hs, if_neg (by decide), ← hw]
    simp [Written.Node.write, laidTag]
  solid := by simp
  legal := fun _ => (sound_laidTag hctx ht depth).legal_verbatim hh hcut
  covered := by
    rw [ht.sensitive] at hcov
    exact hcov
  pieces := by
    rw [ht.sensitive] at hp
    rw [piecesOf, rereadNode, ← hp, hs]
    rfl

theorem faithful_open (hs : tag.selfClosing = false) (hh : startsWith [Byte.hash] tag.name = false)
    {children : List Node} {body : List Written.Node}
    (hbody : (if tag.sensitive then readAgain (verbatimAll children)
      else flowAll ctx (childDepth depth) children) = body)
    (hw : writeAll body =
      if tag.sensitive then verbatimAll children else layoutChildren ctx depth children)
    (hlegal : ∀ after, LegalAll (closingTag tag.name ++ after) body)
    (hcov : tag.sensitive = true ∨ CoveredAll body)
    (hp : (if tag.sensitive then verbatimText (writeAll body)
      else bodyNodes (joinSpaces (piecesAll body))) = rereadAll ctx (childDepth depth) children) :
    Faithful ctx depth (.element tag children) (.element (laidTag ctx depth tag) body) where
  flow := by
    intro ws
    simp [flowNode, laidElement, hs, hh, hbody]
  write := by
    have ho := write_open hctx ht depth hs
    have hinner : (if tag.sensitive then verbatimAll children ++ closingTag tag.name
        else layoutChildren ctx depth children ++ closingTag tag.name) =
        writeAll body ++ closingTag tag.name := by
      rw [hw]
      split <;> rfl
    rw [layoutNode, hinner, hs, if_neg (by decide), ← ho]
    simp [Written.Node.write, laidTag]
  solid := by simp
  legal := fun after => ⟨(sound_laidTag hctx ht depth).legal_opened hh, hlegal after⟩
  covered := by
    rw [ht.sensitive] at hcov
    exact hcov
  pieces := by
    rw [ht.sensitive] at hp
    rw [piecesOf, rereadNode, ← hp, hs]
    rfl

omit ht in
theorem faithful_of_sound {n : Node} (h : Sound S R n) (hclean : n.Clean) (hn : IsItem n)
    (depth : Nat) : ∃ w, Faithful ctx depth n w := by
  induction h generalizing depth with
  | marker p b => cases hn.1
  | text _ _ => cases hn.2
  | expression l h => exact ⟨_, faithful_expression hctx depth l h⟩
  | selfClosed ht hs => exact ⟨_, faithful_selfClosed hctx ht depth hs⟩
  | @verbatim tag body ht hs hh hv hc =>
      have hbody : (if tag.sensitive then verbatimAll (verbatimText body)
          else layoutChildren ctx depth (verbatimText body)) = body := by
        rw [if_pos hv, verbatimAll_verbatimText]
      refine ⟨_, faithful_verbatim hctx ht depth hs hh hbody hc (.inl hv) ?_⟩
      · rw [if_pos hv, rereadAll_verbatimText]
  | @hollow tag children ht hs hh hv hc =>
      have hv' : ¬tag.sensitive = true := by simp [hv]
      have hblank : allBlank (layoutChildren ctx depth children) = true := by
        rcases hc with rfl | ⟨b, rfl⟩
        · rfl
        · have := (markerText_facts ctx depth b).1
          simpa [layoutChildren, layoutNode, childDepth] using this
      refine ⟨_, faithful_verbatim hctx ht depth hs hh (if_neg hv') (cutAt_closing_blank hblank)
        (.inr hblank) ?_⟩
      rw [if_neg hv']
      rcases hc with rfl | ⟨b, rfl⟩
      · rfl
      · obtain ⟨-, hlf, hline⟩ := markerText_facts ctx depth b
        have hne := List.ne_nil_of_mem hlf
        simp [layoutChildren, layoutNode, childDepth, spacePieces, hne, hline, joinSpaces, consPiece,
          bodyNodes, innerNodes, rereadAll, rereadNode]
  | @sensitive tag ns ht hs hh hv hl =>
      have hread : readAgain (writeAll ns) = ns := by
        rw [readAgain, read_iff.2 ⟨rfl, hl⟩]
        rfl
      have hbody : (if tag.sensitive then readAgain (verbatimAll (verbatimText (writeAll ns)))
          else flowAll ctx (childDepth depth) (verbatimText (writeAll ns))) = ns := by
        rw [if_pos hv, verbatimAll_verbatimText, hread]
      refine ⟨_, faithful_open hctx ht depth hs hh hbody ?_ ?_ (.inl hv) ?_⟩
      · rw [if_pos hv, verbatimAll_verbatimText]
      · intro after
        exact hl.alike (alike_of_less (.inl rfl) (ends_closingTag _ _))
      · rw [if_pos hv, rereadAll_verbatimText]
  | @element tag children ht hs hh hv hset hm hsound ih =>
      have hv' : ¬tag.sensitive = true := by simp [hv]
      have hc : CleanAll children := hclean.resolve_left hv'
      have hall : FaithfulAll ctx S R children :=
        ⟨hsound, fun m hm hi depth => ih m hm (hc.clean m hm) hi depth⟩
      refine ⟨_, faithful_open hctx ht depth hs hh (if_neg hv') ?_ ?_
        (.inr (covered_flowAll hall)) ?_⟩
      · rw [if_neg hv', writeAll_flowAll hall, layoutChildren_eq_flatMap]
      · exact fun after => legal_flowAll hall (ends_closingTag _ _) hc
      · rw [if_neg hv', pieces_flowAll hall hm hc,
          joinSpaces_of_apart (apart_asPieces.2 (markersApart_rereadAll hm))]
        exact settled_rereadAll ctx _ hset

end Items

end MarkupFormat.Layout
