/-! # Positions and spans

A position counts the characters before it and keeps the line and column, both
from one. A span runs from a position up to, and without, an end offset.
-/

namespace Stepwise

/-- A place between two characters of a source text. -/
structure Position where
  offset : Nat
  line : Nat
  column : Nat
  deriving DecidableEq, Repr, Inhabited

namespace Position

/-- The place before the first character. -/
def start : Position := ⟨0, 1, 1⟩

/-- The place after `c`; only a newline opens a line. -/
def next (p : Position) (c : Char) : Position :=
  if c = '\n' then ⟨p.offset + 1, p.line + 1, 1⟩ else ⟨p.offset + 1, p.line, p.column + 1⟩

/-- The place after a run of characters. -/
def after (p : Position) (cs : List Char) : Position := cs.foldl next p

@[simp] theorem next_offset (p : Position) (c : Char) : (p.next c).offset = p.offset + 1 := by
  unfold next; split <;> rfl

@[simp] theorem after_nil (p : Position) : p.after [] = p := rfl

@[simp] theorem after_cons (p : Position) (c : Char) (cs : List Char) :
    p.after (c :: cs) = (p.next c).after cs := rfl

theorem after_append (p : Position) (cs ds : List Char) :
    p.after (cs ++ ds) = (p.after cs).after ds := by
  simp [after]

@[simp] theorem after_offset (p : Position) (cs : List Char) :
    (p.after cs).offset = p.offset + cs.length := by
  induction cs generalizing p with
  | nil => simp
  | cons c cs ih => simp [ih]; omega

end Position

/-- The characters from `start` up to `stop`; `line` and `column` locate `start`. -/
structure Span where
  start : Nat
  stop : Nat
  line : Nat
  column : Nat
  deriving DecidableEq, Repr, Inhabited

namespace Span

/-- The span between two places. -/
def between (p q : Position) : Span := ⟨p.offset, q.offset, p.line, p.column⟩

/-- The span that starts with `s` and reaches at least to the end of `t`. -/
def through (s t : Span) : Span := { s with stop := max s.stop t.stop }

/-- The characters of a span in its text. -/
def slice (s : Span) (cs : List Char) : List Char := (cs.drop s.start).take (s.stop - s.start)

/-- Two spans start on the same line. -/
def sameLine (s t : Span) : Bool := s.line == t.line

end Span

end Stepwise
