import Stepwise.Source.Position

/-! # Readers

A reader is a place in a source text and the characters that follow it. It moves
only by dropping characters, so its position is always that of its text.
-/

namespace Stepwise

/-- The characters still to be read, and where they start. -/
structure Reader where
  rest : List Char
  position : Position

namespace Reader

def ofText (text : String) : Reader := ⟨text.toList, .start⟩

/-- The reader past its first `n` characters. -/
def drop (r : Reader) (n : Nat) : Reader :=
  ⟨r.rest.drop n, r.position.after (r.rest.take n)⟩

/-- The characters up to the first that fails `p`, and the reader past them. -/
def takeWhile (r : Reader) (p : Char → Bool) : List Char × Reader :=
  let cs := r.rest.takeWhile p
  (cs, r.drop cs.length)

theorem length_drop_le (r : Reader) (n : Nat) : (r.drop n).rest.length ≤ r.rest.length := by
  simp [drop]

theorem length_drop_lt {r : Reader} {n : Nat} (hn : 0 < n) (hr : r.rest ≠ []) :
    (r.drop n).rest.length < r.rest.length := by
  have := List.length_pos_iff.2 hr
  simp only [drop, List.length_drop]
  omega

theorem length_takeWhile_le (r : Reader) (p : Char → Bool) :
    (r.takeWhile p).2.rest.length ≤ r.rest.length :=
  length_drop_le _ _

theorem ne_nil_of_rest {r : Reader} {c : Char} {cs : List Char} (h : r.rest = c :: cs) :
    r.rest ≠ [] := by
  simp [h]

end Reader

/-- What was read from `r`, and the reader after it, which has fewer characters left. -/
structure Reading (r : Reader) (α : Type) where
  value : α
  next : Reader
  shorter : next.rest.length < r.rest.length

end Stepwise
