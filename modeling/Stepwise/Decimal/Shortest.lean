import Stepwise.Decimal.Binary

/-! # Shortest decimals

The decimal with the fewest digits that reads back as a given float, the nearest
one among those, and the larger one of two equally near.
-/

namespace Stepwise

/-- The number `0.d₁d₂… * 10 ^ point`, where `d₁d₂…` are the decimal digits of `digits`. -/
structure Decimal where
  digits : Nat
  point : Int
  deriving DecidableEq, Repr

namespace Decimal

/-- The decimal digits of a natural number. -/
def digitChars (n : Nat) : List Char := Nat.toDigits 10 n

/-- Moves trailing zeros out of `digits * 10 ^ exponent`. -/
def trimZeros : Nat → Nat → Int → Nat × Int
  | 0, digits, exponent => (digits, exponent)
  | fuel + 1, digits, exponent =>
    if digits % 10 = 0 then trimZeros fuel (digits / 10) (exponent + 1) else (digits, exponent)

/-- The decimal `digits * 10 ^ exponent`. -/
def ofScaled (digits : Nat) (exponent : Int) : Decimal :=
  let (digits, exponent) := trimZeros (digitChars digits).length digits exponent
  ⟨digits, exponent + (digitChars digits).length⟩

/-- `(num * 10 ^ (-k), den)`, kept in naturals. -/
def scale (num den : Nat) : Int → Nat × Nat
  | .ofNat k => (num, den * pow10 k)
  | .negSucc k => (num * pow10 (k + 1), den)

/-- The exponent of the leading digit of `num / den`. -/
def leading (num den : Nat) : Int :=
  let guess := Int.ofNat (digitChars num).length - Int.ofNat (digitChars den).length
  let (n, d) := scale num den guess
  if n < d then guess - 1 else guess

/-- The grid point nearest to `num / den` within the bounds `low / den` and `high / den`. -/
def onGrid (low num high den : Nat) (closed : Bool) (k : Int) : Option Nat :=
  let inside (c : Nat) : Bool :=
    let (l, d) := scale low den k
    let (h, _) := scale high den k
    if closed then l ≤ c * d && c * d ≤ h else l < c * d && c * d < h
  let (n, d) := scale num den k
  let below := n / d
  match inside below, inside (below + 1) with
  | true, true => some (if 2 * (n % d) < d then below else below + 1)
  | true, false => some below
  | false, true => some (below + 1)
  | false, false => none

/-- Grids with one more digit are tried until a point reads back. -/
def search (low num high den : Nat) (closed : Bool) : Nat → Int → Decimal
  | 0, k => ofScaled (num / den) k
  | tries + 1, k =>
    match onGrid low num high den closed k with
    | some digits => ofScaled digits k
    | none => search low num high den closed tries (k - 1)

/-- The shortest decimal that reads back as the absolute value of `b`, which is not zero. -/
def shortest (b : Binary) : Decimal :=
  let (num, den) := b.quotient
  let (unit, _) := Binary.quotient { b with mantissa := 1 }
  let lowGap := if b.mantissa = pow2 52 && b.exponent > -1074 then unit else 2 * unit
  search (4 * num - lowGap) (4 * num) (4 * num + 2 * unit) (4 * den) (b.mantissa % 2 == 0) 17
    (leading num den)

end Decimal

end Stepwise
