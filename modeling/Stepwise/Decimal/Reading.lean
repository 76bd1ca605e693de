import Stepwise.Decimal.Binary

/-! # Reading floats

A decimal text names an exact number; its float is the nearest one. The words
for infinity and for an undefined number are read in either case.
-/

namespace Stepwise.Decimal

/-- The value of a run of decimal digits. -/
def digitsValue (cs : List Char) : Nat :=
  cs.foldl (fun n c => 10 * n + (c.toNat - '0'.toNat)) 0

/-- The float nearest to `digits * 10 ^ exponent`. -/
def nearestScaled (digits : Nat) (exponent : Int) : Float :=
  let magnitude := Int.ofNat digits.log2 * 3 / 10 + exponent
  if digits = 0 then Binary.nearest 0 1
  else if magnitude > 400 then Binary.nearest (pow2 1100) 1
  else if magnitude < -800 then Binary.nearest 0 1
  else
    match exponent with
    | .ofNat e => Binary.nearest (digits * pow10 e) 1
    | .negSucc e => Binary.nearest digits (pow10 (e + 1))

/-- An exponent part: its mark, an optional sign, and at least one digit. -/
def readExponent? : List Char → Option Int
  | [] => some 0
  | mark :: rest =>
    let (negative, digits) :=
      match rest with
      | '-' :: ds => (true, ds)
      | '+' :: ds => (false, ds)
      | ds => (false, ds)
    if (mark = 'e' || mark = 'E') && !digits.isEmpty && digits.all Char.isDigit then
      let value := Int.ofNat (digitsValue digits)
      some (if negative then -value else value)
    else none

/-- Digits with an optional point and an optional exponent part. -/
def readNumber? (cs : List Char) : Option Float := do
  let whole := cs.takeWhile Char.isDigit
  let rest := cs.dropWhile Char.isDigit
  let (places, rest) :=
    match rest with
    | '.' :: ds => (ds.takeWhile Char.isDigit, ds.dropWhile Char.isDigit)
    | ds => ([], ds)
  guard (!(whole.isEmpty && places.isEmpty))
  let exponent ← readExponent? rest
  return nearestScaled (digitsValue (whole ++ places)) (exponent - places.length)

/-- A number or one of the words for infinity and an undefined number. -/
def readMagnitude? (cs : List Char) : Option Float :=
  match cs.map Char.toLower with
  | ['i', 'n', 'f'] => some (1.0 / 0.0)
  | ['i', 'n', 'f', 'i', 'n', 'i', 't', 'y'] => some (1.0 / 0.0)
  | ['n', 'a', 'n'] => some (0.0 / 0.0)
  | _ => readNumber? cs

/-- Reads a float with an optional sign. -/
def read? (text : String) : Option Float :=
  match text.toList with
  | '-' :: cs => (readMagnitude? cs).map (- ·)
  | '+' :: cs => readMagnitude? cs
  | cs => readMagnitude? cs

end Stepwise.Decimal
