import Stepwise.Decimal.Written
import Stepwise.Fault.Cause
import Stepwise.Value.Basic

/-! # Arithmetic on numbers

What arithmetic operators do to numbers, apart from where the operands come from
and where the result goes. Operands narrower than `int` take part as `int`, the
result has the kind of higher rank, comparisons give `bool`, shifts keep the kind
of their left operand, and integral division rounds down. Every result is fitted
to its kind: outside the range it is a fault or wraps around, as the policy says.
Integers on the way have 128 bits.
-/

namespace Stepwise

/-- What happens when a result leaves the range of its kind. -/
inductive OverflowPolicy
  | fault
  | wrap
  deriving DecidableEq, Repr

/-- The rules of arithmetic in a run. -/
structure Numerics where
  limits : LimitsTable := {}
  overflow : OverflowPolicy := .fault

/-- The number from `min` to `max` that differs from `v` by a multiple of the width of the range. -/
def wrapInto (v min max : Int) : Int := min + (v - min) % (max - min + 1)

theorem wrapInto_of_mem {v min max : Int} (hmin : min ≤ v) (hmax : v ≤ max) :
    wrapInto v min max = v := by
  rw [wrapInto, Int.emod_eq_of_lt] <;> omega

theorem wrapInto_mem (v : Int) {min max : Int} (h : min ≤ max) :
    min ≤ wrapInto v min max ∧ wrapInto v min max ≤ max := by
  have hpos : 0 < max - min + 1 := by omega
  have := Int.emod_nonneg (v - min) (show max - min + 1 ≠ 0 by omega)
  have := Int.emod_lt_of_pos (v - min) hpos
  unfold wrapInto
  omega

namespace Wide

/-- The bounds of the integers that results pass through. -/
def min : Int := -pow2 127
def max : Int := pow2 127 - 1

def holds (v : Int) : Bool := min ≤ v && v ≤ max

/-- The integer nearest to `v` within the bounds. -/
def clamp (v : Int) : Int := if v < min then min else if v > max then max else v

/-- An operation on the two's-complement bits of its operands. -/
def bitwise (f : BitVec 128 → BitVec 128 → BitVec 128) (a b : Int) : Int :=
  (f (.ofInt 128 a) (.ofInt 128 b)).toInt

/-- The factor of a shift to the left by `n` places; that of 127 places is negative. -/
def shiftFactor (n : Nat) : Int := if n = 127 then min else pow2 n

end Wide

namespace Number

/-- The comparison of two numbers; there is none with a float that is no number. -/
def compare? (a b : Number) : Option Ordering :=
  match a, b with
  | .int x, .int y => some (compare x y)
  | a, b =>
    let x := a.toFloat
    let y := b.toFloat
    if x < y then some .lt else if x == y then some .eq else if x > y then some .gt else none

/-- The comparison that an operator tests for; operators that compare nothing hold of nothing. -/
def test (op : BinaryOp) (o : Option Ordering) : Bool :=
  match op, o with
  | .ne, none => true
  | _, none => false
  | .eq, some o => o == .eq
  | .ne, some o => o != .eq
  | .lt, some o => o == .lt
  | .le, some o => o != .gt
  | .gt, some o => o == .gt
  | .ge, some o => o != .lt
  | _, _ => false

end Number

namespace BinaryOp

/-- The spelling of an operator in messages. -/
def text : BinaryOp → String
  | add => "+"
  | sub => "-"
  | mul => "*"
  | div => "/"
  | rem => "%"
  | eq => "=="
  | ne => "!="
  | lt => "<"
  | le => "<="
  | gt => ">"
  | ge => ">="
  | bitAnd => "&"
  | bitOr => "|"
  | bitXor => "^"
  | shl => "<<"
  | shr => ">>"

def isComparison : BinaryOp → Bool
  | eq | ne | lt | le | gt | ge => true
  | _ => false

def isShift : BinaryOp → Bool
  | shl | shr => true
  | _ => false

end BinaryOp

namespace Numerics

/-- An integer fitted to the range of a kind. -/
def fitInt (n : Numerics) (k : ArithKind) (v : Int) : Except OperatorFault Int :=
  match (n.limits.get k).range with
  | .floating _ => .ok v
  | .integral min max =>
    if min ≤ v && v ≤ max then .ok v
    else
      match n.overflow with
      | .fault => .error (.overflow k (toString v))
      | .wrap => .ok (wrapInto v min max)

/-- A number as the payload of a kind: truth for `bool`, a truncated integer for the other
integral kinds, a float of the right precision for the rest. -/
def fit (n : Numerics) (k : ArithKind) (x : Number) : Except OperatorFault Data :=
  if k = .bool then .ok (.int (if x.isZero then 0 else 1))
  else
    match (n.limits.get k).range, x with
    | .integral .., .int v => return .int (← n.fitInt k v)
    | .integral .., .float f =>
      match Binary.ofFloat? f.value with
      | some b => return .int (← n.fitInt k (Wide.clamp b.truncate))
      | none => .error (.overflow k (Decimal.write Decimal.plain f.value))
    | .floating max, x =>
      let f := x.toFloat
      if f.isFinite && f.abs > max && n.overflow == .fault then
        .error (.overflow k (Decimal.write Decimal.plain f))
      else .ok (.float (if k = .float then x.toSigned.toSingle else x.toSigned))

/-- A number fitted to a kind, as a value. -/
def value (n : Numerics) (k : ArithKind) (x : Number) : Except OperatorFault Value :=
  return .fresh (.arith k) (← n.fit k x)

/-- A shift of `a` by `b` places. -/
def shift (n : Numerics) (op : BinaryOp) (k : ArithKind) (a b : Int) :
    Except OperatorFault Value :=
  let kind := if k = .bool then .int else k
  if b < 0 || 128 ≤ b then .error (.shiftCount b)
  else if op = .shr then n.value kind (.int (a >>> b.toNat))
  else
    let shifted := a * Wide.shiftFactor b.toNat
    if Wide.holds shifted then n.value kind (.int shifted)
    else
      match n.overflow with
      | .wrap => n.value kind (.int (Int.bmod (a * pow2 b.toNat) (pow2 128)))
      | .fault => .error (.overflow kind (toString a ++ " << " ++ toString b))

/-- The result of an operator on two integers before it is fitted; nothing for the operators that
are no arithmetic. -/
def integerResult? (n : Numerics) (k : ArithKind) (op : BinaryOp) (a b : Int) :
    Option (Except OperatorFault Int) :=
  let checked (v : Int) : Except OperatorFault Int :=
    if Wide.holds v then .ok v
    else .error (.overflow k (toString a ++ " " ++ op.text ++ " " ++ toString b))
  match op with
  | .add => some (checked (a + b))
  | .sub => some (checked (a - b))
  | .mul =>
    some <| match n.overflow with
      | .wrap => .ok (Int.bmod (a * b) (pow2 128))
      | .fault => checked (a * b)
  | .div => some (if b = 0 then .error .divisionByZero else .ok (Int.fdiv a b))
  | .rem => some (if b = 0 then .error .divisionByZero else .ok (Int.tmod a b))
  | .bitAnd => some (.ok (Wide.bitwise (· &&& ·) a b))
  | .bitOr => some (.ok (Wide.bitwise (· ||| ·) a b))
  | .bitXor => some (.ok (Wide.bitwise (· ^^^ ·) a b))
  | _ => none

/-- The result of an operator on two floats; the others are for integers only. -/
def floatResult? (op : BinaryOp) (a b : SignedFloat) : Option SignedFloat :=
  match op with
  | .add => some (.combine (· + ·) a b)
  | .sub => some (.combine (· - ·) a b)
  | .mul => some (.combine (· * ·) a b)
  | .div => some (.combine (· / ·) a b)
  | _ => none

/-- An operator on two numbers with their kinds; `unsupported` is the fault of an operator that
does not apply to floats. -/
def binary (n : Numerics) (op : BinaryOp) (unsupported : OperatorFault) (j : ArithKind) (x : Number)
    (k : ArithKind) (y : Number) : Except OperatorFault Value :=
  if op.isComparison then .ok (.bool (Number.test op (x.compare? y)))
  else
    let kind := n.limits.promote (n.limits.widened j) (n.limits.widened k)
    if !op.isShift && kind.isFloat then
      match floatResult? op x.toSigned y.toSigned with
      | some f => n.value kind (.float f)
      | none => .error unsupported
    else
      match x, y with
      | .int a, .int b =>
        if op.isShift then n.shift op j a b
        else
          match n.integerResult? kind op a b with
          | some result => do n.value kind (.int (← result))
          | none => .error unsupported
      | _, _ => .error unsupported

/-- Unary `-`: a positive number of an unsigned kind becomes one of its signed counterpart. -/
def negate (n : Numerics) (k : ArithKind) : Number → Except OperatorFault Value
  | .float f => n.value k (.float f.neg)
  | .int v =>
    let kind := n.limits.widened k
    n.value (if v > 0 && kind.isUnsigned then kind.signedCounterpart else kind) (.int (-v))

/-- `~`: the complement within the range of an unsigned kind, or in two's complement. -/
def complement (n : Numerics) (k : ArithKind) (v : Int) : Except OperatorFault Value :=
  let kind := n.limits.promote (n.limits.widened k) .int
  let result :=
    match (n.limits.get kind).range with
    | .integral 0 max => max - v
    | _ => -v - 1
  n.value kind (.int result)

/-- The payload after `++` or `--`; `overflow` is the fault of an integer that leaves its range. -/
def step (n : Numerics) (k : ArithKind) (x : Number) (increment : Bool)
    (overflow : Unit → OperatorFault) : Except OperatorFault Data :=
  match x with
  | .float f => n.fit k (.float (.combine (· + ·) f (.ofFloat (if increment then 1 else -1))))
  | .int v =>
    let next := if increment then v + 1 else v - 1
    if !n.limits.holds k next && n.overflow == .fault then .error (overflow ())
    else return .int (← n.fitInt k next)

end Numerics

end Stepwise
