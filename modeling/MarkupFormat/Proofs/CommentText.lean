import MarkupFormat.Proofs.Holes

namespace MarkupFormat.Written

open Bytes

def commentOf (y : Bytes) : Bytes :=
  commentStart ++ y ++ commentEnd

def EndsOnce (y : Bytes) : Prop :=
  ∀ u v, commentOf y = u ++ commentEnd ++ v → v = []

variable {y y' : Bytes}

theorem endsOnce_iff :
    EndsOnce y ↔ cutAt (startsWith commentEnd) (commentOf y) = (commentStart ++ y, commentEnd) := by
  rw [cutAt_eq_iff]
  constructor
  · intro h
    refine ⟨rfl, ?_, .inr rfl⟩
    intro u z hsplit hz
    rw [Bool.eq_false_iff]
    intro hstarts
    obtain ⟨v, hv⟩ := startsWith_iff.1 hstarts
    have hnil : v = [] :=
      h u v (by rw [commentOf, hsplit, List.append_assoc, hv, List.append_assoc])
    rw [hnil, List.append_nil] at hv
    exact hz (List.append_left_eq_self.1 hv)
  · rintro ⟨-, hno, -⟩ u v huv
    -- an end with something after it would begin before the last one
    obtain ⟨z, hz, hv⟩ | ⟨z, hz, hend⟩ :=
      List.append_eq_append_iff.1 ((List.append_assoc _ _ _).symm.trans huv.symm)
    · cases z with
      | nil => exact List.append_right_eq_self.1 hv
      | cons c z =>
          have := hno u (c :: z) hz (by simp)
          rw [← hv, startsWith_iff.2 ⟨v, rfl⟩] at this
          cases this
    · have := congrArg List.length hend
      simp only [List.length_append] at this
      exact List.length_eq_zero_iff.1 (by omega)

instance : Decidable (EndsOnce y) :=
  decidable_of_iff _ endsOnce_iff.symm

theorem EndsOnce.legal (h : EndsOnce y) : Item.Legal (.node (.comment (commentOf y))) where
  read := by
    have hstart : startsWith commentStart (commentOf y) = true :=
      startsWith_iff.2 ⟨y ++ commentEnd, List.append_assoc _ _ _⟩
    change readItem (commentOf y) = _
    rw [readItem_comment hstart, readComment_iff]
    exact ⟨commentStart ++ y, rfl, endsOnce_iff.1 h⟩
  opens := rfl
  solid := by simp

theorem interchangeable_comment (h : EndsOnce y') :
    Interchangeable (.comment (commentOf y)) (.comment (commentOf y')) where
  legal _ _ := h.legal
  alike _ := alike_of_less (.inr rfl) (.inr rfl)
  covered := .rfl
  pieces := rfl

end MarkupFormat.Written

namespace MarkupFormat.Raw

open Bytes Written

theorem eq_comment_of_locate {start : Nat} {n : Written.Node} {span : Span}
    (h : .comment span = locate start n) : ∃ t, n = .comment t ∧ span = Span.ofLength start t.length := by
  cases n with
  | comment t =>
      rw [locate, Node.comment.injEq] at h
      exact ⟨t, rfl, h⟩
  | text t => cases h
  | interpolation inner => cases h
  | selfClosed tag => cases h
  | verbatim tag body => cases h
  | element tag children => cases h

-- The text of a comment outside sensitive bodies has no influence.
theorem comment_replaced {name a y y' c : Bytes} {tree : List Node}
    (hread : read ⟨name, a ++ commentOf y ++ c⟩ = .ok tree)
    (hmem : .comment (Span.ofLength a.length (commentOf y).length) ∈ exposedAll tree)
    (hends : EndsOnce y') :
    ∃ tree', read ⟨name, a ++ commentOf y' ++ c⟩ = .ok tree' ∧
      FormattedAlike ⟨name, a ++ commentOf y ++ c⟩ tree ⟨name, a ++ commentOf y' ++ c⟩ tree' := by
  obtain ⟨n, left, right, hn, hcontent, -, hexchange⟩ := read_interchanged hread hmem
  obtain ⟨t, rfl, hspan⟩ := eq_comment_of_locate hn
  obtain ⟨rfl, rfl, rfl⟩ := split_of_span hcontent hspan
  exact hexchange _ (interchangeable_comment hends)

def remarkTree : List Node :=
  [.element ⟨0, 19⟩ ⟨ascii "p", [], false, ⟨0, 3⟩, some ⟨15, 19⟩⟩
    [.text ⟨3, 4⟩, .comment ⟨4, 14⟩, .text ⟨14, 15⟩]]

theorem remark_replaced :
    read ⟨[], ascii "<p>a" ++ commentOf (ascii " x ") ++ ascii "b</p>"⟩ = .ok remarkTree ∧
      .comment (Span.ofLength (ascii "<p>a").length (commentOf (ascii " x ")).length) ∈
        exposedAll remarkTree ∧
      EndsOnce (ascii " ></p>\x7b\x7b\n->") ∧
      ∃ tree', read ⟨[], ascii "<p>a" ++ commentOf (ascii " ></p>\x7b\x7b\n->") ++ ascii "b</p>"⟩ =
          .ok tree' ∧
        FormattedAlike ⟨[], ascii "<p>a" ++ commentOf (ascii " x ") ++ ascii "b</p>"⟩ remarkTree
          ⟨[], ascii "<p>a" ++ commentOf (ascii " ></p>\x7b\x7b\n->") ++ ascii "b</p>"⟩ tree' ∧
        format Expression.normalizing .default
            ⟨[], ascii "<p>a" ++ commentOf (ascii " ></p>\x7b\x7b\n->") ++ ascii "b</p>"⟩ tree' =
          .ok (ascii "<p>ab</p>\n") := by
  have hwritten : Written.read (ascii "<p>a" ++ commentOf (ascii " x ") ++ ascii "b</p>") =
      .ok [.element ⟨ascii "p", [], []⟩
        [.text (ascii "a"), .comment (commentOf (ascii " x ")), .text (ascii "b")]] := by
    refine read_iff.2 ⟨rfl, ⟨⟨by cbv, rfl, by simp⟩, ?_⟩, trivial⟩
    exact ⟨⟨by decide, by cbv⟩, ⟨by cbv, rfl, by simp⟩, ⟨by decide, by cbv⟩, trivial⟩
  have hread : read ⟨[], ascii "<p>a" ++ commentOf (ascii " x ") ++ ascii "b</p>"⟩ = .ok remarkTree :=
    read_eq_ok.2 ⟨_, hwritten, rfl⟩
  have hmem : .comment (Span.ofLength (ascii "<p>a").length (commentOf (ascii " x ")).length) ∈
      exposedAll remarkTree :=
    .tail _ (.tail _ (.head _))
  have hends : EndsOnce (ascii " ></p>\x7b\x7b\n->") := by decide
  have hformat : format Expression.normalizing .default
      ⟨[], ascii "<p>a" ++ commentOf (ascii " x ") ++ ascii "b</p>"⟩ remarkTree = .ok (ascii "<p>ab</p>\n") := by
    decide +kernel
  obtain ⟨tree', hread', halike⟩ := comment_replaced hread hmem hends
  exact ⟨hread, hmem, hends, tree', hread', halike, FormattedAlike.ok halike hformat⟩

end MarkupFormat.Raw
