import Stepwise.Power

/-! # Floats as exact binary fractions

A finite float is an integer times a power of two. `Binary.ofFloat?` takes one
apart, and `nearest` gives the float closest to a quotient of naturals, a tie
going to the even mantissa.
-/

namespace Stepwise

/-- The number `mantissa * 2 ^ exponent`, negated if `negative`. -/
structure Binary where
  negative : Bool
  mantissa : Nat
  exponent : Int
  deriving DecidableEq, Repr

namespace Binary

/-- The quotient rounded to the nearest integer, a tie to the even one. -/
def roundDiv (num den : Nat) : Nat :=
  let q := num / den
  let r := num % den
  if 2 * r > den || (2 * r == den && q % 2 == 1) then q + 1 else q

theorem roundDiv_of_dvd {num den : Nat} (h : den ∣ num) (hd : 0 < den) :
    roundDiv num den = num / den := by
  have hr : num % den = 0 := Nat.mod_eq_zero_of_dvd h
  have h0 : ¬ 0 = den := by omega
  simp only [roundDiv, hr]
  simp [h0]

/-- The exact value of a finite float. -/
def ofFloat? (x : Float) : Option Binary :=
  let bits := x.toBits.toNat
  let negative := bits / pow2 63 == 1
  let biased := bits / pow2 52 % pow2 11
  let fraction := bits % pow2 52
  if biased = 2047 then none
  else if biased = 0 then some ⟨negative, fraction, -1074⟩
  else some ⟨negative, pow2 52 + fraction, Int.ofNat biased - 1075⟩

/-- The value without its sign as a quotient of naturals. -/
def quotient (b : Binary) : Nat × Nat :=
  match b.exponent with
  | .ofNat e => (b.mantissa * pow2 e, 1)
  | .negSucc e => (b.mantissa, pow2 (e + 1))

/-- The integer part of the value, rounded toward zero. -/
def truncate (b : Binary) : Int :=
  let (num, den) := b.quotient
  let whole := Int.ofNat (num / den)
  if b.negative then -whole else whole

/-- The nearest float to `num / den`, a tie to the even mantissa; overflow is infinite. -/
def nearest (num den : Nat) : Float :=
  if num = 0 then Float.ofBits 0
  else
    let guess : Int := Int.ofNat num.log2 - Int.ofNat den.log2 - 53
    let scaled (e : Int) : Nat × Nat :=
      match e with
      | .ofNat k => (num, den * pow2 k)
      | .negSucc k => (num * pow2 (k + 1), den)
    let small (e : Int) : Bool := (scaled e).1 < (scaled e).2 * pow2 53
    let exponent := max (-1074) (if small guess then guess else guess + 1)
    let mantissa := roundDiv (scaled exponent).1 (scaled exponent).2
    let (mantissa, exponent) :=
      if mantissa = pow2 53 then (pow2 52, exponent + 1) else (mantissa, exponent)
    if exponent > 971 then Float.ofBits 0x7ff0000000000000
    else if mantissa < pow2 52 then Float.ofBits (UInt64.ofNat mantissa)
    else
      Float.ofBits (UInt64.ofNat ((exponent + 1075).toNat * pow2 52 + (mantissa - pow2 52)))

/-- The nearest float to an integer. -/
def nearestInt (v : Int) : Float :=
  if v < 0 then -(nearest v.natAbs 1) else nearest v.natAbs 1

end Binary

end Stepwise
