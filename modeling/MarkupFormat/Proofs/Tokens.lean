import MarkupFormat.Layout.Tree
import MarkupFormat.Proofs.Fitting
import MarkupFormat.Proofs.Regularity
import MarkupFormat.Proofs.Sources
import MarkupFormat.Proofs.Words

namespace MarkupFormat

open Bytes

inductive Token where
  | word (t : Bytes)
  | expression (t : Bytes)
  | verbatim (t : Bytes)
  | element (name : Bytes) (selfClosing : Bool) (attributes : List (Attribute Unit))
      (content : List Token)

def Attribute.bare {Place : Type} (a : Attribute Place) : Attribute Unit :=
  ⟨a.name, a.kind, a.value, ()⟩

def wordTokens (t : Bytes) : List Token :=
  (words t).map .word

namespace Raw

mutual
def Node.tokens (src : Source) : Node → List Token
  | .text span => wordTokens (src.slice span.start span.stop)
  | .comment _ => []
  | .interpolation _ inner => [.expression (src.slice inner.start inner.stop)]
  | .element _ head children =>
      [.element head.name head.selfClosing (head.attributes.map Attribute.bare)
        (if ElementName.isSensitive head.name then
          [.verbatim (if head.selfClosing then [] else src.slice head.body.start head.body.stop)]
        else tokensIn src children)]

def tokensIn (src : Source) : List Node → List Token
  | [] => []
  | n :: ns => n.tokens src ++ tokensIn src ns
end

end Raw

namespace Document

open Layout (verbatimAll)

mutual
def Node.tokens : Node → List Token
  | .marker _ _ => []
  | .text t => wordTokens t
  | .expression raw _ => [.expression raw]
  | .element tag children =>
      [.element tag.name tag.selfClosing (tag.attributes.map Attribute.bare)
        (if tag.sensitive then [.verbatim (verbatimAll children)] else tokensIn children)]

def tokensIn : List Node → List Token
  | [] => []
  | n :: ns => n.tokens ++ tokensIn ns
end

theorem tokensIn_append (ms ns : List Node) : tokensIn (ms ++ ns) = tokensIn ms ++ tokensIn ns := by
  induction ms with
  | nil => rfl
  | cons m ms ih => rw [List.cons_append, tokensIn, tokensIn, ih, List.append_assoc]

theorem tokensIn_solids (ns : List Node) : tokensIn (solids ns) = tokensIn ns := by
  induction ns with
  | nil => rfl
  | cons n ns ih =>
      rw [tokensIn, ← ih]
      cases n <;> rfl

def pieceTokens (ps : List Piece) : List Token :=
  tokensIn (contents ps)

theorem pieceTokens_append (ps qs : List Piece) :
    pieceTokens (ps ++ qs) = pieceTokens ps ++ pieceTokens qs := by
  rw [pieceTokens, contents_append, tokensIn_append]
  rfl

theorem pieceTokens_space (t : Bytes) : pieceTokens (spacePieces t) = [] := by
  unfold spacePieces
  split <;> rfl

theorem pieceTokens_text (t : Bytes) : pieceTokens (textPieces t) = wordTokens t := by
  unfold textPieces
  split
  · next h => rw [h]; rfl
  · simp [pieceTokens, contents, tokensIn, Node.tokens]

theorem pieceTokens_line (t : Bytes) : ∀ line,
    pieceTokens (linePieces line (runs t)) = wordTokens (line ++ t) := by
  induction t using blank_induction with
  | nil =>
      intro line
      rw [List.append_nil]
      exact pieceTokens_text line
  | solid c t hc ih =>
      intro line
      rw [linePieces_solid hc, ih, List.append_assoc, List.singleton_append]
  | blank m t hm hb ht ih =>
      intro line
      rw [linePieces_blank hm hb ht, wordTokens, words_append_blank hm hb, List.map_append]
      split
      · rw [pieceTokens_append, pieceTokens_append, pieceTokens_text, pieceTokens_space, ih]
        simp [wordTokens]
      · have hspace : allBlank [Byte.space] = true := rfl
        rw [ih, wordTokens, List.append_assoc, words_append_blank (by simp) hspace, List.map_append]

section OfRaw

variable {src : Source}

theorem tokensIn_bodyNodes (cursor stop : Nat) (tree : List Raw.Node) :
    tokensIn (bodyNodes (joinSpaces (childPieces src cursor stop tree))) =
      pieceTokens (childPieces src cursor stop tree) := by
  rw [← tokensIn_solids, solids_bodyNodes (solid_childPieces src _ _ _), contents_joinSpaces]
  rfl

theorem verbatimAll_verbatimNodes (body : Span) :
    verbatimAll (verbatimNodes src body) = src.slice body.start body.stop := by
  simp only [verbatimNodes]
  split
  · next h => rw [h]; rfl
  · simp [verbatimAll, Layout.verbatim]

mutual
theorem pieceTokens_nodePieces (n : Raw.Node) (h : n.Fits src) :
    pieceTokens (nodePieces src n) = n.tokens src := by
  cases n with
  | comment span => rfl
  | text span => exact pieceTokens_line _ []
  | interpolation span inner => rfl
  | element span head children =>
      obtain ⟨hfits, hkids⟩ := h
      have hattrs : (head.attributes.map (locateAttribute src)).map Attribute.bare =
          head.attributes.map Attribute.bare := by
        rw [List.map_map]
        rfl
      simp only [nodePieces, pieceTokens, contents, tokensIn, Node.tokens, Raw.Node.tokens,
        Tag.ofRaw, hattrs, List.append_nil]
      cases hself : head.selfClosing with
      | true =>
          rw [hfits.childless hself]
          rfl
      | false =>
          simp only [Bool.false_eq_true, if_false]
          cases hs : ElementName.isSensitive head.name with
          | true => simp only [if_true, verbatimAll_verbatimNodes]
          | false =>
              simp only [Bool.false_eq_true, if_false]
              rw [tokensIn_bodyNodes,
                pieceTokens_childPieces children (hkids (Raw.Header.isOpen_iff.2 ⟨hself, hs⟩))]

theorem pieceTokens_childPieces (tree : List Raw.Node) {stop cursor : Nat}
    (h : Raw.ChildrenFit src stop cursor tree) :
    pieceTokens (childPieces src cursor stop tree) = Raw.tokensIn src tree := by
  cases tree with
  | nil => exact pieceTokens_space _
  | cons n tree =>
      obtain ⟨-, hn, hrest⟩ := h
      rw [childPieces, pieceTokens_append, pieceTokens_append, pieceTokens_space,
        pieceTokens_nodePieces n hn, pieceTokens_childPieces tree hrest, Raw.tokensIn, List.nil_append]
end

end OfRaw

-- A tree without defects becomes a document with all of its content, and no other, in order.
theorem tokens_of_accepted (src : Source) (tree : List Raw.Node) (h : Raw.defect? src tree = none) :
    ∃ doc, ofRaw? src tree = .ok doc ∧ tokensIn doc = Raw.tokensIn src tree := by
  refine ⟨ofRaw src tree, by rw [ofRaw?, h], ?_⟩
  rw [ofRaw, ← tokensIn_solids, solids_documentNodes (solid_childPieces src _ _ _), contents_joinSpaces]
  exact pieceTokens_childPieces tree (Raw.defect?_none_iff.1 h)

def mixed : Source :=
  ⟨[], ascii "<p id=\"a\">one  two\n<!--c-->three<b/>\x7b\x7b y \x7d\x7d<pre> k\n</pre></p>"⟩

def mixedTree : List Raw.Node :=
  [.element ⟨0, 61⟩ ⟨ascii "p", [⟨ascii "id", .string, ascii "\"a\"", ⟨3, 9⟩⟩], false, ⟨0, 10⟩,
      some ⟨57, 61⟩⟩
    [.text ⟨10, 19⟩, .comment ⟨19, 27⟩, .text ⟨27, 32⟩,
      .element ⟨32, 36⟩ ⟨ascii "b", [], true, ⟨32, 36⟩, none⟩ [],
      .interpolation ⟨36, 43⟩ ⟨38, 41⟩,
      .element ⟨43, 57⟩ ⟨ascii "pre", [], false, ⟨43, 48⟩, some ⟨51, 57⟩⟩ []]]

theorem tokens_mixed :
    Raw.defect? mixed mixedTree = none ∧
      Raw.tokensIn mixed mixedTree =
        [.element (ascii "p") false [⟨ascii "id", .string, ascii "\"a\"", ()⟩]
          [.word (ascii "one"), .word (ascii "two"), .word (ascii "three"),
            .element (ascii "b") true [] [], .expression (ascii " y "),
            .element (ascii "pre") false [] [.verbatim (ascii " k\n")]]] ∧
      ∃ doc, ofRaw? mixed mixedTree = .ok doc ∧ tokensIn doc = Raw.tokensIn mixed mixedTree :=
  ⟨by decide, rfl, tokens_of_accepted mixed mixedTree (by decide)⟩

end Document

end MarkupFormat
