import Stepwise.Decimal.Reading

/-! # Floats with their signs

A float that is no number has a sign all the same, which formatted output shows and
`Float` does not tell. It is kept beside the float: an operation passes on an operand
that is no number with its sign, and where it has no result of its own the sign is
negative.
-/

namespace Stepwise

structure SignedFloat where
  value : Float
  /-- The value is no number, and its sign is negative. -/
  negativeNaN : Bool

namespace SignedFloat

/-- A float; one that is no number gets a positive sign. -/
def ofFloat (x : Float) : SignedFloat := ⟨x, false⟩

def isNaN (x : SignedFloat) : Bool := x.value.isNaN

/-- The sign is negative; a zero counts as positive. -/
def isNegative (x : SignedFloat) : Bool := x.negativeNaN || x.value < 0

def neg (x : SignedFloat) : SignedFloat := ⟨-x.value, x.isNaN && !x.negativeNaN⟩

/-- The result of an operation on two floats. -/
def combine (op : Float → Float → Float) (a b : SignedFloat) : SignedFloat :=
  let result := op a.value b.value
  if a.isNaN then ⟨result, a.negativeNaN⟩
  else if b.isNaN then ⟨result, b.negativeNaN⟩
  else ⟨result, result.isNaN⟩

/-- The float rounded to single precision. -/
def toSingle (x : SignedFloat) : SignedFloat := ⟨x.value.toFloat32.toFloat, x.negativeNaN⟩

/-- Reads a float with an optional sign. -/
def read? (text : String) : Option SignedFloat :=
  (Decimal.read? text).map fun x => ⟨x, x.isNaN && text.toList.head? == some '-'⟩

end SignedFloat

end Stepwise
