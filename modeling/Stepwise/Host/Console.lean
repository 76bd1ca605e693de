/-! # Consoles

Text written by a program, and input that its host feeds. Reading past the input
fed so far waits, unless the host has closed the input.
-/

namespace Stepwise

inductive ConsoleRead
  | ready (c : Char)
  /-- Nothing is buffered yet. -/
  | pending
  | endOfInput
  deriving DecidableEq, Repr

structure Console where
  output : String := ""
  input : List Char := []
  closed : Bool := false

namespace Console

def write (c : Console) (text : String) : Console := { c with output := c.output ++ text }

def feed (c : Console) (text : String) : Console := { c with input := c.input ++ text.toList }

/-- No input comes after what is buffered. -/
def close (c : Console) : Console := { c with closed := true }

/-- The next character of the input, and the console without it. -/
def read (c : Console) : ConsoleRead × Console :=
  match c.input with
  | x :: rest => (.ready x, { c with input := rest })
  | [] => (if c.closed then .endOfInput else .pending, c)

theorem read_pending {c : Console} (h : (c.read).1 = .pending) : (c.read).2 = c := by
  unfold read at h ⊢
  split <;> simp_all

end Console

end Stepwise
