import Stepwise.Ty.Kind
import Stepwise.Power

/-! # Limits

A limits table gives every arithmetic kind its range and its width in bytes. The
default table is that of a machine with words of 32 bits, on which plain `char`
holds no negative numbers. Widths rank the kinds for promotion.
-/

namespace Stepwise

/-- The values of a kind: the integers between two bounds, or floats up to a magnitude. -/
inductive Range
  | integral (min max : Int)
  | floating (max : Float)

structure Limits where
  range : Range
  bytes : Nat

namespace Limits

/-- The limits of a kind unless a table says otherwise. -/
def standard : ArithKind → Limits
  | .bool => ⟨.integral 0 1, 1⟩
  | .char => ⟨.integral 0 0x7f, 1⟩
  | .signedChar => ⟨.integral (-0x80) 0x7f, 1⟩
  | .unsignedChar => ⟨.integral 0 0xff, 1⟩
  | .wchar => ⟨.integral (-0x80000000) 0x7fffffff, 4⟩
  | .char16 => ⟨.integral (-0x8000) 0x7fff, 4⟩
  | .char32 => ⟨.integral (-0x80000000) 0x7fffffff, 4⟩
  | .short => ⟨.integral (-0x8000) 0x7fff, 2⟩
  | .unsignedShort => ⟨.integral 0 0xffff, 2⟩
  | .int => ⟨.integral (-0x80000000) 0x7fffffff, 4⟩
  | .unsigned => ⟨.integral 0 0xffffffff, 4⟩
  | .long => ⟨.integral (-0x80000000) 0x7fffffff, 4⟩
  | .unsignedLong => ⟨.integral 0 0xffffffff, 4⟩
  | .longLong => ⟨.integral (-0x8000000000000000) 0x7fffffffffffffff, 8⟩
  | .unsignedLongLong => ⟨.integral 0 0xffffffffffffffff, 8⟩
  | .float => ⟨.floating 3.40282346638529e38, 4⟩
  | .double => ⟨.floating 1.7976931348623157e308, 8⟩

end Limits

/-- Limits of all kinds; those without an entry keep the standard ones. -/
structure LimitsTable where
  entries : List (ArithKind × Limits) := []
  pointerBytes : Nat := 4
  /-- The most scalar cells that one object may hold. -/
  maxCells : Nat := pow2 24

namespace LimitsTable

def get (t : LimitsTable) (k : ArithKind) : Limits :=
  (t.entries.lookup k).getD (.standard k)

/-- The table with one entry replaced. -/
def set (t : LimitsTable) (k : ArithKind) (limits : Limits) : LimitsTable :=
  { t with entries := (k, limits) :: t.entries }

theorem get_set_self (t : LimitsTable) (k : ArithKind) (limits : Limits) :
    (t.set k limits).get k = limits := by
  simp [get, set]

theorem get_default (k : ArithKind) : ({} : LimitsTable).get k = .standard k := rfl

/-- The promotion rank: width first, then unsigned above signed, floats above all. -/
def rank (t : LimitsTable) : ArithKind → Nat
  | .double => 10001
  | .float => 10000
  | k => (t.get k).bytes * 2 + if k.isUnsigned && k != .bool then 1 else 0

/-- The kind of an operation between two kinds: the one of higher rank, or the first. -/
def promote (t : LimitsTable) (a b : ArithKind) : ArithKind :=
  if t.rank b > t.rank a then b else a

/-- The kind in which an operand takes part: narrow integers become `int`. -/
def widened (t : LimitsTable) (k : ArithKind) : ArithKind :=
  if k.isIntegral && t.rank k < t.rank .int then .int else k

/-- An integer lies in the range of a kind; every integer lies in that of a floating kind. -/
def holds (t : LimitsTable) (k : ArithKind) (v : Int) : Bool :=
  match (t.get k).range with
  | .integral min max => min ≤ v && v ≤ max
  | .floating _ => true

end LimitsTable

end Stepwise
