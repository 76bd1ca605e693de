import Stepwise.Decimal.Shortest

/-! # Written floats

Floats as text: the shortest decimal in positional or scientific form, a fixed
number of places, or a fixed number of significant digits. A tie between two
fixed forms goes to the even last digit.
-/

namespace Stepwise.Decimal

/-- How the shortest decimal of a float is laid out. -/
structure Layout where
  /-- A whole number keeps one zero after its point. -/
  wholePoint : Bool
  /-- Very large and very small numbers are written with an exponent. -/
  scientific : Bool

/-- Positional digits only. -/
def plain : Layout := ⟨false, false⟩

/-- Positional between `1e-4` and `1e16`, and always recognisable as a float. -/
def precise : Layout := ⟨true, true⟩

def zeros (n : Nat) : List Char := List.replicate n '0'

/-- The decimal with a point at its place. -/
def positional (layout : Layout) (d : Decimal) : List Char :=
  let cs := digitChars d.digits
  if d.point ≤ 0 then
    '0' :: '.' :: (zeros (-d.point).toNat ++ cs)
  else
    let whole := d.point.toNat
    if cs.length ≤ whole then
      cs ++ zeros (whole - cs.length) ++ if layout.wholePoint then ['.', '0'] else []
    else cs.take whole ++ '.' :: cs.drop whole

/-- The decimal as one digit, the other digits after the point, and an exponent. -/
def scientific (d : Decimal) : List Char :=
  let exponent := (toString (d.point - 1)).toList
  match digitChars d.digits with
  | [] => []
  | [c] => c :: 'e' :: exponent
  | c :: cs => c :: '.' :: cs ++ 'e' :: exponent

/-- The shortest text of a finite float, without its sign. -/
def magnitude (layout : Layout) (b : Binary) : List Char :=
  if b.mantissa = 0 then if layout.wholePoint then ['0', '.', '0'] else ['0']
  else
    let d := shortest b
    if layout.scientific && (d.point ≤ -4 || d.point > 16) then scientific d
    else positional layout d

/-- A float with its sign, or the word for one that is not finite. -/
def withSign (x : Float) (body : Binary → List Char) : String :=
  match Binary.ofFloat? x with
  | some b => String.ofList (if b.negative then '-' :: body b else body b)
  | none => if x.isNaN then "NaN" else if x > 0 then "inf" else "-inf"

/-- The shortest text of a float that reads back, laid out as `layout` says. -/
def write (layout : Layout) (x : Float) : String := withSign x (magnitude layout)

/-- `n` with its last `places` digits after the point. -/
def pointed (n places : Nat) : List Char :=
  let cs := digitChars n
  let cs := zeros (places + 1 - cs.length) ++ cs
  let whole := cs.length - places
  if places = 0 then cs else cs.take whole ++ '.' :: cs.drop whole

/-- A float with `places` digits after the point. -/
def fixed (places : Nat) (x : Float) : String :=
  withSign x fun b =>
    let (num, den) := b.quotient
    pointed (Binary.roundDiv (num * pow10 places) den) places

/-- The `places + 1` leading digits of a value, and the exponent of the first of them. -/
def significant (places : Nat) (b : Binary) : Nat × Int :=
  if b.mantissa = 0 then (0, 0)
  else
    let (num, den) := b.quotient
    let exponent := leading num den
    let (n, d) := scale num den (exponent - places)
    let digits := Binary.roundDiv n d
    if digits = pow10 (places + 1) then (digits / 10, exponent + 1) else (digits, exponent)

end Stepwise.Decimal
