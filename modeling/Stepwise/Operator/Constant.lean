import Stepwise.Fault.Basic
import Stepwise.Operator.Number

/-! # Constant folding

Operators on constants, as array bounds may have them. Constants are integers of
128 bits whatever their types were; a result that needs more is too large.
-/

namespace Stepwise.Constant

/-- A result, which must have 128 bits. -/
def checked (v : Int) : Except FaultCause Int :=
  if Wide.holds v then .ok v else .error (.declaration .tooLarge)

def truth (b : Bool) : Int := if b then 1 else 0

def unary (op : UnaryOp) (v : Int) : Except FaultCause Int :=
  match op with
  | .neg => checked (-v)
  | .plus => .ok v
  | .bitNot => .ok (-v - 1)
  | .not => .ok (truth (v == 0))
  | _ => .error (.declaration .notConstant)

/-- The places of a shift; counts outside the width are moved to its ends. -/
def shiftCount (v : Int) : Nat := min v.toNat 126

def binary (op : BinaryOp) (a b : Int) : Except FaultCause Int :=
  match op with
  | .add => checked (a + b)
  | .sub => checked (a - b)
  | .mul => checked (a * b)
  | .div => if b = 0 then .error (.operator .divisionByZero) else checked (Int.fdiv a b)
  | .rem =>
    if b = 0 then .error (.operator .divisionByZero)
    else if a = Wide.min && b = -1 then .error (.declaration .tooLarge)
    else .ok (Int.tmod a b)
  | .shl => .ok (Int.bmod (a * pow2 (shiftCount b)) (pow2 128))
  | .shr => .ok (a >>> shiftCount b)
  | .bitAnd => .ok (Wide.bitwise (· &&& ·) a b)
  | .bitOr => .ok (Wide.bitwise (· ||| ·) a b)
  | .bitXor => .ok (Wide.bitwise (· ^^^ ·) a b)
  | .eq => .ok (truth (a == b))
  | .ne => .ok (truth (a != b))
  | .lt => .ok (truth (a < b))
  | .le => .ok (truth (a ≤ b))
  | .gt => .ok (truth (a > b))
  | .ge => .ok (truth (a ≥ b))

end Stepwise.Constant
