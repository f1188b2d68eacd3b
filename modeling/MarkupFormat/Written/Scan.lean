import MarkupFormat.Expression.Mode
import MarkupFormat.Written.Tree

namespace MarkupFormat.Written

open Bytes Expression

-- The depth may fall below zero; the expression then ends only after as many braces have been opened.
structure CodeState where
  depth : Int
  mode : Mode
  deriving DecidableEq, Repr

namespace CodeState

def start : CodeState :=
  ⟨0, .code⟩

def step (st : CodeState) (c : UInt8) : CodeState where
  depth :=
    if st.mode ≠ .code then st.depth
    else if c = Byte.openBrace then st.depth + 1
    else if c = Byte.closeBrace then st.depth - 1
    else st.depth
  mode := st.mode.next c

def closes (st : CodeState) (s : Bytes) : Bool :=
  st.mode = .code && st.depth = 0 && startsWith closeDelimiter s

end CodeState

def scanCode (st : CodeState) : Bytes → Except Mode (Bytes × Bytes)
  | [] => .error st.mode
  | c :: s =>
      if st.closes (c :: s) then .ok ([], s.drop 1)
      else
        match scanCode (st.step c) s with
        | .error m => .error m
        | .ok (inner, rest) => .ok (c :: inner, rest)

theorem scanCode_ok {st : CodeState} {s inner rest : Bytes}
    (h : scanCode st s = .ok (inner, rest)) : s = inner ++ closeDelimiter ++ rest := by
  induction s generalizing st inner rest with
  | nil => simp [scanCode] at h
  | cons c s ih =>
      simp only [scanCode] at h
      split at h
      · next hc =>
          simp only [CodeState.closes, Bool.and_eq_true] at hc
          obtain ⟨r, hr⟩ := startsWith_iff.1 hc.2
          simp only [closeDelimiter, List.cons_append, List.nil_append, List.cons.injEq] at hr
          obtain ⟨rfl, rfl⟩ := hr
          cases h
          rfl
      · cases hs : scanCode (st.step c) s with
        | error m => simp [hs] at h
        | ok p =>
            obtain ⟨i, r⟩ := p
            simp only [hs, Except.ok.injEq, Prod.mk.injEq] at h
            obtain ⟨rfl, rfl⟩ := h
            exact congrArg (c :: ·) (ih hs)

def scanQuoted (escaped : Bool) : Bytes → Except Bool (Bytes × Bytes)
  | [] => .error escaped
  | c :: s =>
      if !escaped && c = Byte.quote then .ok ([], s)
      else
        match scanQuoted (!escaped && c = Byte.backslash) s with
        | .error e => .error e
        | .ok (body, rest) => .ok (c :: body, rest)

theorem scanQuoted_ok {e : Bool} {s body rest : Bytes}
    (h : scanQuoted e s = .ok (body, rest)) : s = body ++ Byte.quote :: rest := by
  induction s generalizing e body rest with
  | nil => simp [scanQuoted] at h
  | cons c s ih =>
      simp only [scanQuoted] at h
      split at h
      · next hc =>
          simp only [Bool.and_eq_true, decide_eq_true_eq] at hc
          cases h
          simp [hc.2]
      · cases hs : scanQuoted (!e && c = Byte.backslash) s with
        | error m => simp [hs] at h
        | ok p =>
            obtain ⟨b, r⟩ := p
            simp only [hs, Except.ok.injEq, Prod.mk.injEq] at h
            obtain ⟨rfl, rfl⟩ := h
            exact congrArg (c :: ·) (ih hs)

end MarkupFormat.Written
