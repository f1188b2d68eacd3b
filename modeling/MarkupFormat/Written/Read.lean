import MarkupFormat.Written.Item

namespace MarkupFormat.Written

open Bytes

structure Frame where
  tag : OpenTag
  before : List Node
  deriving Repr

def Frame.close (f : Frame) (done : List Node) : List Node :=
  .element f.tag done.reverse :: f.before

def readNodes (stack : List Frame) (done : List Node) : Bytes → Except Halt (List Node)
  | [] =>
      match stack with
      | [] => .ok done.reverse
      | f :: _ => .error { fault := .expectedClosing f.tag.name, left := 0 }
  | c :: s =>
      if startsWith [Byte.less, Byte.slash] (c :: s) then
        match stack with
        | [] => .error { fault := .unexpectedClosing, left := s.length + 1 }
        | f :: stack =>
            if startsWith (closingTag f.tag.name) (c :: s) then
              readNodes stack (f.close done) (s.drop (f.tag.name.length + 2))
            else .error { fault := .expectedClosing f.tag.name, left := s.length + 1 }
      else
        match h : readItem (c :: s) with
        | .error e => .error e
        | .ok (.node n, rest) =>
            have : rest.length < s.length + 1 := readItem_length h
            readNodes stack (n :: done) rest
        | .ok (.opened tag, rest) =>
            have : rest.length < s.length + 1 := readItem_length h
            readNodes (⟨tag, done⟩ :: stack) [] rest
termination_by s => s.length

def read (s : Bytes) : Except ReadError (List Node) :=
  (readNodes [] [] s).mapError fun h => h.located s.length

def writeStack : List Frame → Bytes
  | [] => []
  | f :: fs => writeStack fs ++ writeAll f.before.reverse ++ f.tag.write ++ [Byte.greater]

theorem writeAll_readNodes {stack : List Frame} {done t : List Node} {s : Bytes}
    (h : readNodes stack done s = .ok t) :
    writeAll t = writeStack stack ++ writeAll done.reverse ++ s := by
  fun_induction readNodes stack done s generalizing t with
  | case1 done => cases h; simp [writeStack]
  | case2 => simp at h
  | case3 => simp at h
  | case4 done c s hs f stack hc ih =>
      obtain ⟨r, hr⟩ := startsWith_iff.1 hc
      rw [ih h, hr]
      have hd : s.drop (f.tag.name.length + 2) = r := by
        simp only [closingTag, List.cons_append, List.nil_append, List.cons.injEq] at hr
        obtain ⟨-, rfl⟩ := hr
        simp
      rw [hd]
      simp [Frame.close, writeStack, writeAll_append, writeAll, Node.write]
  | case5 => simp at h
  | case6 => simp at h
  | case7 stack done c s hs n rest hi hlt ih =>
      rw [ih h, ← readItem_ok hi]
      simp [writeAll_append, writeAll, Item.write]
  | case8 stack done c s hs tag rest hi hlt ih =>
      rw [ih h, ← readItem_ok hi]
      simp [writeStack, writeAll, Item.write]

theorem writeAll_read {s : Bytes} {t : List Node} (h : read s = .ok t) : writeAll t = s := by
  simpa [writeStack, writeAll] using writeAll_readNodes (mapError_ok.1 h)

end MarkupFormat.Written
