import Stepwise.Power

/-! # Code points

Characters of given code points, and the digits of the usual bases.
-/

namespace Stepwise.Text

/-- The character with code point `n`, if there is one. -/
def charOfCode? (n : Nat) : Option Char :=
  if n.isValidChar then some (Char.ofNat n) else none

/-- The character that stands for code points that are no characters. -/
def replacement : Char := Char.ofNat 0xfffd

/-- The value of a digit in bases up to sixteen. -/
def digitValue (c : Char) : Nat :=
  if c.isDigit then c.toNat - 0x30
  else if 'a' ≤ c && c ≤ 'f' then c.toNat - 0x61 + 10
  else if 'A' ≤ c && c ≤ 'F' then c.toNat - 0x41 + 10
  else 16

def isDigitIn (base : Nat) (c : Char) : Bool := digitValue c < base

/-- The value of a non-empty run of digits, if all of them are digits of the base. -/
def readNat? (base : Nat) (cs : List Char) : Option Nat :=
  if !cs.isEmpty && cs.all (isDigitIn base) then
    some (cs.foldl (fun n c => base * n + digitValue c) 0)
  else none

/-- A number of at most `bits` bits in the given base. -/
def readBits? (bits base : Nat) (cs : List Char) : Option Nat :=
  (readNat? base cs).filter (· < pow2 bits)

end Stepwise.Text
