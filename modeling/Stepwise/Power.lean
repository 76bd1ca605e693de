/-! # Powers

The powers that widths of words and places of decimals call for.
-/

namespace Stepwise

/-- Two to the power `n`. -/
def pow2 (n : Nat) : Nat := Nat.pow 2 n

/-- Ten to the power `n`. -/
def pow10 (n : Nat) : Nat := Nat.pow 10 n

end Stepwise
