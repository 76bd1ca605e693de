import Mathlib.Tactic.Linarith
import Mathlib.Tactic.Positivity
import Stepwise.Proofs.Operator.Operands

/-! # Reducing numbers to a range

Under the wrapping policy a number outside the range of a kind is reduced to it: the width of the
range is computed, the lower end is taken off, and it is put back after the division. All of this
happens in 128 bits. The numbers that operators have for operands within the limits of their kinds
leave enough room for it, and so do floats that have 128 bits themselves.
-/

namespace Stepwise

namespace Wide

/-- On the way from a number to its reduction nothing leaves 128 bits. -/
structure Reduces (v min max : Int) : Prop where
  number : holds v = true
  width : holds (max - min + 1) = true
  offset : holds (v - min) = true
  sum : holds (wrapInto v min max) = true

end Wide

namespace Numerics

section Ranges

variable {k : ArithKind} {min max v : Int}
  (hk : k.isIntegral = true) (hr : (Limits.standard k).range = .integral min max)

include hk hr

/-- Zero is a number of every kind. -/
theorem zero_mem : min ≤ 0 ∧ 0 ≤ max := by
  cases k <;> first | (cases hk; done) | (cases hr; decide)

/-- Only the offset from the lower end of the range can be too large. -/
theorem reduces_iff (hv : Wide.holds v = true) :
    Wide.Reduces v min max ↔ v ≤ Wide.max + min := by
  obtain ⟨min', max', hr', hle, hmin, hmax, -⟩ := Limits.exists_width hk
  cases hr.symm.trans hr'
  have hwide : Wide.max = 2 ^ 127 - 1 := rfl
  have hzero := (zero_mem hk hr).1
  have hmem := wrapInto_mem v hle
  rw [Wide.holds_iff] at hv
  constructor
  · intro h
    have hoffset := (Wide.holds_iff _).mp h.offset
    omega
  · intro h
    refine ⟨(Wide.holds_iff v).mpr hv, ?_, ?_, ?_⟩ <;> rw [Wide.holds_iff] <;> omega

/-- There is room below the highest numbers of 128 bits. -/
theorem reduces_of_le (hv : -2 ^ 127 ≤ v) (hle : v ≤ 2 ^ 127 - 2 ^ 64) :
    Wide.Reduces v min max := by
  obtain ⟨min', max', hr', -, hmin, -, -⟩ := Limits.exists_width hk
  cases hr.symm.trans hr'
  have hwide : Wide.max = 2 ^ 127 - 1 := rfl
  exact (reduces_iff hk hr ((Wide.holds_iff v).mpr (by omega))).mpr (by omega)

/-- There is room for every number if the range has no negative ones. -/
theorem reduces_of_nonneg (hv : Wide.holds v = true) (hmin : 0 ≤ min) :
    Wide.Reduces v min max := by
  have hwide : Wide.max = 2 ^ 127 - 1 := rfl
  refine (reduces_iff hk hr hv).mpr ?_
  rw [Wide.holds_iff] at hv
  omega

end Ranges

/-! ## The numbers that are reduced -/

/-- What a shift has before it is fitted. -/
def shifted (op : BinaryOp) (a b : Int) : Int :=
  if op = .shr then a >>> b.toNat
  else if Wide.holds (a * Wide.shiftFactor b.toNat) then a * Wide.shiftFactor b.toNat
  else Int.bmod (a * pow2 b.toNat) (pow2 128)

/-- What a complement has before it is fitted. -/
def complemented (n : Numerics) (k : ArithKind) (v : Int) : Int :=
  match (n.limits.get k).range with
  | .integral 0 max => max - v
  | _ => -v - 1

/-- An integral number, within the limits of its kind or at least those of 64 bits with a sign. -/
structure Operand (n : Numerics) (k : ArithKind) (v : Int) : Prop where
  integral : k.isIntegral = true
  range : n.limits.holds k v = true ∨ -2 ^ 63 ≤ v ∧ v < 2 ^ 63

/-- An answer of a conversion or of an operator on integers, and the number that it fits to a kind
before that. -/
inductive Fits (n : Numerics) : Except OperatorFault Data → ArithKind → Int → Prop
  | convert {j k : ArithKind} {a : Int} (operand : n.Operand j a) (integral : k.isIntegral = true)
      (kind : k ≠ .bool) : Fits n (n.fit k (.int a)) k a
  | float {k : ArithKind} {f : SignedFloat} {b : Binary} (integral : k.isIntegral = true)
      (kind : k ≠ .bool) (finite : Binary.ofFloat? f.value = some b)
      (wide : b.truncate ≤ Wide.max) : Fits n (n.fit k (.float f)) k (Wide.clamp b.truncate)
  | binary {op : BinaryOp} {cause : OperatorFault} {j k : ArithKind} {a b v : Int}
      (left : n.Operand j a) (right : n.Operand k b) (computes : op.isComparison = false)
      (arithmetic : op.isShift = false)
      (result : n.integerResult? (op.resultKind n.limits j k) op a b = some (.ok v)) :
      Fits n ((n.binary op cause j (.int a) k (.int b)).map Value.data)
        (op.resultKind n.limits j k) v
  | shift {op : BinaryOp} {cause : OperatorFault} {j k : ArithKind} {a b : Int}
      (left : n.Operand j a) (right : n.Operand k b) (shift : op.isShift = true)
      (nonneg : 0 ≤ b) (small : b < 128) :
      Fits n ((n.binary op cause j (.int a) k (.int b)).map Value.data)
        (op.resultKind n.limits j k) (shifted op a b)
  | negate {k : ArithKind} {v : Int} (operand : n.Operand k v) :
      Fits n ((n.negate k (.int v)).map Value.data)
        (if v > 0 && (n.limits.widened k).isUnsigned then (n.limits.widened k).signedCounterpart
          else n.limits.widened k) (-v)
  | complement {k : ArithKind} {v : Int} (operand : n.Operand k v) :
      Fits n ((n.complement k v).map Value.data) (n.limits.promote (n.limits.widened k) .int)
        (n.complemented (n.limits.promote (n.limits.widened k) .int) v)
  | step {k : ArithKind} {v : Int} {increment : Bool} {overflow : Unit → OperatorFault}
      (operand : n.Operand k v) : Fits n (n.step k (.int v) increment overflow) k
        (if increment then v + 1 else v - 1)

section Answers

variable {n : Numerics} {k : ArithKind} {v : Int} {answer : Except OperatorFault Data}

theorem fit_int (hn : n.limits.Standard) (hk : k.isIntegral = true) (hb : k ≠ .bool) :
    n.fit k (.int v) = (n.fitInt k v).map .int := by
  obtain ⟨min, max, hr, -⟩ := Limits.exists_integral hk
  simp only [fit, if_neg hb, hn k, hr]
  cases n.fitInt k v <;> rfl

theorem map_data_value (hn : n.limits.Standard) (hk : k.isIntegral = true) (hb : k ≠ .bool) :
    (n.value k (.int v)).map Value.data = (n.fitInt k v).map .int := by
  rw [value_int hn hk hb]
  cases n.fitInt k v <;> rfl

theorem signedCounterpart_spec (hk : k.isIntegral = true) :
    k.signedCounterpart.isIntegral = true ∧ k.signedCounterpart ≠ .bool := by
  cases k <;> first | (cases hk; done) | exact ⟨rfl, nofun⟩

/-- A negated number has an integral kind other than `bool`. -/
theorem negate_spec (hn : n.limits.Standard) (hk : k.isIntegral = true) (v : Int) :
    (if v > 0 && (n.limits.widened k).isUnsigned then (n.limits.widened k).signedCounterpart
      else n.limits.widened k).isIntegral = true ∧
    (if v > 0 && (n.limits.widened k).isUnsigned then (n.limits.widened k).signedCounterpart
      else n.limits.widened k) ≠ .bool := by
  have hw := LimitsTable.widened_spec hn hk
  split
  · exact signedCounterpart_spec hw.1
  · exact hw

theorem complement_spec (hn : n.limits.Standard) (hk : k.isIntegral = true) :
    (n.limits.promote (n.limits.widened k) .int).isIntegral = true ∧
      n.limits.promote (n.limits.widened k) .int ≠ .bool :=
  LimitsTable.promote_spec (fun k => k.isIntegral = true ∧ k ≠ .bool)
    (LimitsTable.widened_spec hn hk) ⟨rfl, nofun⟩

section Operators

variable {op : BinaryOp} {cause : OperatorFault} {j : ArithKind} {a b : Int}
  (hn : n.limits.Standard) (hj : j.isIntegral = true) (hk : k.isIntegral = true)

include hn hj hk

theorem binary_eq (hop : op.isComparison = false) (hshift : op.isShift = false)
    (hresult : n.integerResult? (op.resultKind n.limits j k) op a b = some (.ok v)) :
    n.binary op cause j (.int a) k (.int b) = n.value (op.resultKind n.limits j k) (.int v) := by
  have hkind := BinaryOp.resultKind_arithmetic hop hshift n.limits j k
  have hfloat : (op.resultKind n.limits j k).isFloat = false := by
    simpa [ArithKind.isIntegral] using (BinaryOp.resultKind_spec hn hop hj hk).1
  rw [hkind] at hresult hfloat ⊢
  simp only [binary, hop, hshift, hfloat, hresult, Bool.false_eq_true, if_false, Bool.not_false,
    Bool.and_false]
  rfl

omit hn hj hk in
theorem shift_eq (hw : n.overflow = .wrap) (hshift : op.isShift = true) (hb : 0 ≤ b)
    (hb' : b < 128) : n.binary op cause j (.int a) k (.int b) =
      n.value (op.resultKind n.limits j k) (.int (shifted op a b)) := by
  have hop := BinaryOp.isComparison_of_isShift hshift
  have hcount : (decide (b < 0) || decide (128 ≤ b)) = false := by
    simp only [Bool.or_eq_false_iff, decide_eq_false_iff_not]
    omega
  rw [BinaryOp.resultKind_shift hshift]
  simp only [binary, hop, hshift, Bool.not_true, Bool.false_and, Bool.false_eq_true, if_false,
    if_true, shift, hcount, hw, shifted]
  split
  · rfl
  · split <;> rfl

end Operators

theorem Fits.integral (hn : n.limits.Standard) (h : n.Fits answer k v) : k.isIntegral = true := by
  cases h with
  | convert operand integral kind => exact integral
  | float integral kind finite wide => exact integral
  | binary left right computes arithmetic result =>
    exact (BinaryOp.resultKind_spec hn computes left.integral right.integral).1
  | shift left right shift nonneg small =>
    exact (BinaryOp.resultKind_spec hn (BinaryOp.isComparison_of_isShift shift) left.integral
      right.integral).1
  | negate operand => exact (negate_spec hn operand.integral _).1
  | complement operand => exact (complement_spec hn operand.integral).1
  | step operand => exact operand.integral

/-- The answer is the number fitted to the kind. -/
theorem Fits.answer_eq (hn : n.limits.Standard) (hw : n.overflow = .wrap)
    (h : n.Fits answer k v) : answer = (n.fitInt k v).map .int := by
  cases h with
  | convert operand integral kind => exact fit_int hn integral kind
  | @float k f b integral kind finite wide =>
    obtain ⟨min, max, hr, -⟩ := Limits.exists_integral integral
    simp only [fit, if_neg kind, hn k, hr, finite]
    cases n.fitInt k (Wide.clamp b.truncate) <;> rfl
  | binary left right computes arithmetic result =>
    obtain ⟨hi, hb⟩ := BinaryOp.resultKind_spec hn computes left.integral right.integral
    rw [binary_eq hn left.integral right.integral computes arithmetic result,
      map_data_value hn hi hb]
  | shift left right shift nonneg small =>
    obtain ⟨hi, hb⟩ := BinaryOp.resultKind_spec hn (BinaryOp.isComparison_of_isShift shift)
      left.integral right.integral
    rw [shift_eq hw shift nonneg small, map_data_value hn hi hb]
  | negate operand =>
    obtain ⟨hi, hb⟩ := negate_spec hn operand.integral _
    exact map_data_value hn hi hb
  | complement operand =>
    obtain ⟨hi, hb⟩ := complement_spec hn operand.integral
    exact map_data_value hn hi hb
  | @step k v increment overflow operand =>
    have hpolicy : (n.overflow == OverflowPolicy.fault) = false := by
      rw [hw]
      rfl
    simp only [Numerics.step, hpolicy, Bool.and_false, Bool.false_eq_true, if_false]
    cases n.fitInt k _ <;> rfl

end Answers

/-! ## Bounds -/

section Operands

variable {n : Numerics} {j k : ArithKind} {a b v : Int} (hn : n.limits.Standard)

include hn

/-- What takes part in an operation has at most 64 bits. -/
theorem Operand.bounds (h : n.Operand k v) : -2 ^ 63 ≤ v ∧ v < 2 ^ 64 := by
  obtain ⟨hi, hholds | hsigned⟩ := h
  · refine LimitsTable.bounds_of_holds hi ?_
    simp only [LimitsTable.holds, hn k] at hholds
    simpa only [LimitsTable.holds, LimitsTable.get_default] using hholds
  · omega

/-- Numbers as wide as 64 bits without a sign are those of one kind. -/
theorem Operand.lt_of_ne (h : n.Operand k v) (hk : k ≠ .unsignedLongLong) : v < 2 ^ 63 := by
  obtain ⟨hi, hholds | hsigned⟩ := h
  · simp only [LimitsTable.holds, hn k] at hholds
    cases k <;> first
      | exact absurd rfl hk
      | (cases hi; done)
      | (simp only [Limits.standard, Bool.and_eq_true, decide_eq_true_eq] at hholds; omega)
  · exact hsigned.2

/-- An operation with negative results has no operands as wide as 64 bits without a sign. -/
theorem operands_lt (ha : n.Operand j a) (hb : n.Operand k b) {min max : Int}
    (hr : (Limits.standard (n.limits.promote (n.limits.widened j) (n.limits.widened k))).range =
      .integral min max) (hmin : min < 0) : a < 2 ^ 63 ∧ b < 2 ^ 63 := by
  have hwide {i i' : ArithKind} (hi : i.isIntegral = true) (hi' : i'.isIntegral = true)
      (h : i = .unsignedLongLong ∨ i' = .unsignedLongLong) :
      ({} : LimitsTable).promote (({} : LimitsTable).widened i) (({} : LimitsTable).widened i') =
        .unsignedLongLong := by
    obtain rfl | rfl := h
    · cases i' <;> first | (cases hi'; done) | decide
    · cases i <;> first | (cases hi; done) | decide
  rw [LimitsTable.widened_of_standard hn, LimitsTable.widened_of_standard hn,
    LimitsTable.promote_of_standard hn] at hr
  have hne : ¬(j = .unsignedLongLong ∨ k = .unsignedLongLong) := by
    intro h
    rw [hwide ha.integral hb.integral h] at hr
    cases hr
    exact absurd hmin (by decide)
  rw [not_or] at hne
  exact ⟨ha.lt_of_ne hn hne.1, hb.lt_of_ne hn hne.2⟩

/-- A shift with negative results has no operand as wide as 64 bits without a sign. -/
theorem shifted_lt (ha : n.Operand j a) {min max : Int}
    (hr : (Limits.standard (BinaryOp.shl.resultKind n.limits j k)).range = .integral min max)
    (hmin : min < 0) : a < 2 ^ 63 := by
  refine ha.lt_of_ne hn fun hj => ?_
  subst hj
  cases hr
  exact absurd hmin (by decide)

end Operands

/-! ## Results -/

/-- Multiples of a large power of two keep away from the end of 128 bits. -/
theorem le_of_dvd {v : Int} (hdvd : 2 ^ 64 ∣ v) (hv : v < 2 ^ 127) : v ≤ 2 ^ 127 - 2 ^ 64 := by
  obtain ⟨q, rfl⟩ := hdvd
  omega

end Numerics

namespace Binary

variable {x : Float} {b : Binary}

theorem mantissa_lt (hb : ofFloat? x = some b) : b.mantissa < 2 ^ 53 := by
  have hfraction : x.toBits.toNat % pow2 52 < 2 ^ 52 := Nat.mod_lt _ (by decide)
  have hp : pow2 52 = 2 ^ 52 := rfl
  simp only [ofFloat?] at hb
  split at hb
  · cases hb
  · split at hb <;> cases hb
    · exact hfraction.trans (by decide)
    · show pow2 52 + x.toBits.toNat % pow2 52 < 2 ^ 53
      omega

/-- A float that is larger than 64 bits has zeros at its end. -/
theorem truncate_le (hb : ofFloat? x = some b) (hle : b.truncate ≤ Wide.max) :
    b.truncate ≤ 2 ^ 127 - 2 ^ 64 := by
  have hm := mantissa_lt hb
  have hwide : Wide.max = 2 ^ 127 - 1 := rfl
  rw [hwide] at hle
  obtain ⟨negative, m, exponent⟩ := b
  cases negative with
  | true =>
    have hneg : (⟨true, m, exponent⟩ : Binary).truncate ≤ 0 := by
      simp only [truncate, if_true]
      exact Int.neg_nonpos_of_nonneg (Int.natCast_nonneg _)
    omega
  | false =>
    cases exponent with
    | ofNat e =>
      have hvalue : (⟨false, m, .ofNat e⟩ : Binary).truncate = m * 2 ^ e := by
        simp [truncate, quotient, Numerics.coe_pow2]
      rw [hvalue] at hle ⊢
      obtain he | he := le_or_gt 64 e
      · exact Numerics.le_of_dvd (dvd_mul_of_dvd_right (pow_dvd_pow 2 he) _) (by omega)
      · have hpow : (2 : Int) ^ e ≤ 2 ^ 63 := pow_le_pow_right₀ (by decide) (by omega)
        have hm' : (m : Int) ≤ 2 ^ 53 := by exact_mod_cast hm.le
        calc (m : Int) * 2 ^ e
          _ ≤ 2 ^ 53 * 2 ^ 63 := mul_le_mul hm' hpow (by positivity) (by decide)
          _ ≤ 2 ^ 127 - 2 ^ 64 := by decide
    | negSucc e =>
      have hvalue : (⟨false, m, .negSucc e⟩ : Binary).truncate = ((m / pow2 (e + 1) : Nat) : Int) :=
        rfl
      have hlt : m / pow2 (e + 1) < 2 ^ 53 := (Nat.div_le_self _ _).trans_lt hm
      rw [hvalue]
      omega

end Binary

namespace Numerics

section Results

variable {n : Numerics} {k : ArithKind} {a b v : Int}

theorem holds_bmod (v : Int) : Wide.holds (Int.bmod v (pow2 128)) = true := by
  have hp : (pow2 128 : Int) = 2 ^ 128 := rfl
  have hlt := Int.bmod_lt (x := v) (m := pow2 128) (by decide)
  have hle := Int.le_bmod (x := v) (m := pow2 128) (by decide)
  rw [hp] at hlt hle
  rw [Wide.holds_iff]
  omega

theorem shifted_shl (a : Int) (m : Nat) : shifted .shl a m =
    if Wide.holds (a * Wide.shiftFactor m) then a * Wide.shiftFactor m
    else Int.bmod (a * pow2 m) (pow2 128) := rfl

theorem holds_shifted_shl (a : Int) (m : Nat) : Wide.holds (shifted .shl a m) = true := by
  rw [shifted_shl]
  split
  · assumption
  · exact holds_bmod _

theorem shifted_shl_le {m : Nat} (ha : -2 ^ 63 ≤ a ∧ a < 2 ^ 63) (hm : m ≤ 127) :
    Wide.holds (shifted .shl a m) = true ∧ shifted .shl a m ≤ 2 ^ 127 - 2 ^ 64 := by
  have hholds := holds_shifted_shl a m
  refine ⟨hholds, ?_⟩
  obtain hsmall | hlarge := lt_or_ge m 64
  · -- the bits of the operand all have room
    have hpow : (2 : Int) ^ m ≤ 2 ^ 63 := pow_le_pow_right₀ (by decide) (by omega)
    have hpos : (0 : Int) < 2 ^ m := by positivity
    have hlow : -(2 ^ 63 * 2 ^ 63) ≤ a * 2 ^ m := by nlinarith
    have hhigh : a * 2 ^ m ≤ 2 ^ 63 * 2 ^ 63 := by nlinarith
    have hfits : Wide.holds (a * Wide.shiftFactor m) = true := by
      rw [Numerics.shiftFactor_of_lt (by omega), Wide.holds_iff]
      omega
    rw [shifted_shl, if_pos hfits, Numerics.shiftFactor_of_lt (by omega)]
    omega
  · -- what is shifted in are zeros
    have hpow : (2 : Int) ^ 64 ∣ 2 ^ m := pow_dvd_pow 2 hlarge
    have hdvd : (2 : Int) ^ 64 ∣ shifted .shl a m := by
      rw [shifted_shl]
      split
      · obtain hm | rfl := hm.lt_or_eq
        · rw [Numerics.shiftFactor_of_lt hm]
          exact dvd_mul_of_dvd_right hpow a
        · exact dvd_mul_of_dvd_right (by decide) a
      · have hrest := Int.bdiv_add_bmod (a * pow2 m) (pow2 128)
        have heq : Int.bmod (a * pow2 m) (pow2 128) =
            a * pow2 m - pow2 128 * Int.bdiv (a * pow2 m) (pow2 128) := by omega
        rw [heq, coe_pow2, coe_pow2]
        exact dvd_sub (dvd_mul_of_dvd_right hpow a) (dvd_mul_of_dvd_left (by decide) _)
    exact le_of_dvd hdvd ((Wide.holds_iff _).mp hholds).2

theorem shifted_shr_bounds {m : Nat} (ha : -2 ^ 63 ≤ a ∧ a < 2 ^ 64) :
    -2 ^ 65 ≤ shifted .shr a m ∧ shifted .shr a m ≤ 2 ^ 65 := by
  have hdef : shifted .shr a m = a >>> m := rfl
  have habs := Int.natAbs_ediv_le_natAbs a (2 ^ m : Nat)
  rw [hdef, Int.shiftRight_eq_div_pow]
  omega

theorem integerResult?_bounds {op : BinaryOp} {kind : ArithKind}
    (ha : -2 ^ 63 ≤ a ∧ a < 2 ^ 64) (hb : -2 ^ 63 ≤ b ∧ b < 2 ^ 64) (hop : op ≠ .mul)
    (hv : n.integerResult? kind op a b = some (.ok v)) : -2 ^ 65 ≤ v ∧ v ≤ 2 ^ 65 := by
  have hmagnitude {x : Int} (hx : -2 ^ 63 ≤ x ∧ x < 2 ^ 64) : Wide.magnitude x < 2 ^ 64 := by
    cases x <;> simp only [Wide.magnitude, Int.ofNat_eq_natCast] at hx ⊢ <;> omega
  have hbounds {x : Int} (hx : Wide.magnitude x < 2 ^ 64) : -2 ^ 65 ≤ x ∧ x ≤ 2 ^ 65 := by
    cases x <;> simp only [Wide.magnitude, Int.ofNat_eq_natCast] at hx ⊢ <;> omega
  have hawide : Wide.holds a = true := by rw [Wide.holds_iff]; omega
  have hbwide : Wide.holds b = true := by rw [Wide.holds_iff]; omega
  have hma := hmagnitude ha
  have hmb := hmagnitude hb
  cases op with
  | add | sub =>
    simp only [integerResult?, Option.some.injEq] at hv
    split at hv <;> cases hv
    omega
  | mul => exact absurd rfl hop
  | div =>
    simp only [integerResult?, Option.some.injEq] at hv
    split at hv <;> cases hv
    have habs := Int.natAbs_fdiv_le_natAbs a b
    omega
  | rem =>
    simp only [integerResult?, Option.some.injEq] at hv
    split at hv <;> cases hv
    have habs : (Int.tmod a b).natAbs ≤ a.natAbs := Int.natAbs_tmod a b ▸ Nat.mod_le _ _
    omega
  | bitAnd =>
    cases hv
    rw [Wide.bitwise_and hawide hbwide]
    refine hbounds ?_
    cases a <;> cases b <;>
      first | exact Nat.bitwise_lt_two_pow hma hmb | exact Nat.bitwise_lt_two_pow hmb hma
  | bitOr =>
    cases hv
    rw [Wide.bitwise_or hawide hbwide]
    refine hbounds ?_
    cases a <;> cases b <;>
      first | exact Nat.bitwise_lt_two_pow hma hmb | exact Nat.bitwise_lt_two_pow hmb hma
  | bitXor =>
    cases hv
    rw [Wide.bitwise_xor hawide hbwide]
    refine hbounds ?_
    cases a <;> cases b <;> exact Nat.bitwise_lt_two_pow hma hmb
  | eq | ne | lt | le | gt | ge | shl | shr => cases hv

end Results

/-- Nothing that is fitted leaves 128 bits on the way. -/
theorem Fits.reduces {n : Numerics} {k : ArithKind} {v : Int} {answer : Except OperatorFault Data}
    (hn : n.limits.Standard) (hw : n.overflow = .wrap) (h : n.Fits answer k v) {min max : Int}
    (hr : (Limits.standard k).range = .integral min max) : Wide.Reduces v min max := by
  have hk := h.integral hn
  have hnear (hv : -2 ^ 65 ≤ v ∧ v ≤ 2 ^ 65) : Wide.Reduces v min max :=
    reduces_of_le hk hr (by omega) (by omega)
  cases h with
  | convert operand integral kind =>
    have hbounds := operand.bounds hn
    exact hnear (by omega)
  | @float k f b integral kind finite wide =>
    have hle := Binary.truncate_le finite wide
    have hmin : Wide.min = -2 ^ 127 := rfl
    have hclamp : -2 ^ 127 ≤ Wide.clamp b.truncate ∧ Wide.clamp b.truncate ≤ 2 ^ 127 - 2 ^ 64 := by
      rw [Wide.clamp, if_neg (c := b.truncate > Wide.max) (not_lt.mpr wide)]
      split <;> omega
    exact reduces_of_le hk hr hclamp.1 hclamp.2
  | @binary op cause j k a b v left right computes arithmetic result =>
    have ha := left.bounds hn
    have hb := right.bounds hn
    by_cases hop : op = .mul
    · subst hop
      simp only [integerResult?, hw, Option.some.injEq, Except.ok.injEq] at result
      subst result
      obtain hmin | hmin := lt_or_ge min 0
      · obtain ⟨ha', hb'⟩ := operands_lt hn left right hr hmin
        have hlow : -2 ^ 126 ≤ a * b := by nlinarith
        have hhigh : a * b ≤ 2 ^ 126 := by nlinarith
        rw [bmod_of_holds ((Wide.holds_iff _).mpr (by omega))]
        exact reduces_of_le hk hr (by omega) (by omega)
      · exact reduces_of_nonneg hk hr (holds_bmod _) hmin
    · exact hnear (integerResult?_bounds ha hb hop result)
  | @shift op cause j k a b left right shift nonneg small =>
    obtain ⟨m, rfl⟩ := Int.eq_ofNat_of_zero_le nonneg
    have ha := left.bounds hn
    by_cases hop : op = .shr
    · subst hop
      exact hnear (shifted_shr_bounds ha)
    · obtain rfl : op = .shl := by cases op <;> first | rfl | exact absurd rfl hop | cases shift
      obtain hmin | hmin := lt_or_ge min 0
      · have hle := shifted_shl_le ⟨ha.1, shifted_lt hn left hr hmin⟩ (m := m) (by omega)
        exact reduces_of_le hk hr ((Wide.holds_iff _).mp hle.1).1 hle.2
      · exact reduces_of_nonneg hk hr (holds_shifted_shl a m) hmin
  | @negate k v operand =>
    have hbounds := operand.bounds hn
    exact hnear (by omega)
  | @complement k v operand =>
    have hbounds := operand.bounds hn
    obtain ⟨min', max', hr', -, -, hmax, -⟩ := Limits.exists_width hk
    cases hr.symm.trans hr'
    refine hnear ?_
    simp only [complemented, hn (n.limits.promote (n.limits.widened k) .int), hr]
    split
    · rename_i hrange
      cases hrange
      have hpos := (zero_mem hk hr).2
      omega
    · omega
  | @step k v increment overflow operand =>
    have hbounds := operand.bounds hn
    refine hnear ?_
    split <;> omega

/-- Under the wrapping policy conversions and operators on integers fit a number to the kind of their
answer, for which no step of the reduction leaves 128 bits, and the reduction is in the range of the
kind. A float beyond 128 bits is the highest number that they hold. It is reduced into the range of
its kind, too, but there is no room for its offset from a negative lower end. -/
theorem fits_reduces {n : Numerics} (hn : n.limits.Standard) (hw : n.overflow = .wrap) :
    (∀ answer k v, n.Fits answer k v → answer = (n.fitInt k v).map .int ∧
      ∀ min max, (n.limits.get k).range = .integral min max →
        Wide.Reduces v min max ∧ min ≤ wrapInto v min max ∧ wrapInto v min max ≤ max) ∧
    (∀ k f b, k.isIntegral = true → k ≠ .bool → Binary.ofFloat? f.value = some b →
      Wide.max < b.truncate → n.fit k (.float f) = (n.fitInt k Wide.max).map .int ∧
      ∀ min max, (n.limits.get k).range = .integral min max →
        (Wide.Reduces Wide.max min max ↔ 0 ≤ min) ∧
          min ≤ wrapInto Wide.max min max ∧ wrapInto Wide.max min max ≤ max) := by
  have hmem {k : ArithKind} (hk : k.isIntegral = true) {min max : Int}
      (hr : (Limits.standard k).range = .integral min max) (v : Int) :
      min ≤ wrapInto v min max ∧ wrapInto v min max ≤ max := by
    obtain ⟨hmin, hmax⟩ := zero_mem hk hr
    exact wrapInto_mem v (hmin.trans hmax)
  constructor
  · intro answer k v h
    refine ⟨h.answer_eq hn hw, fun min max hr => ?_⟩
    rw [hn] at hr
    exact ⟨h.reduces hn hw hr, hmem (h.integral hn) hr v⟩
  · intro k f b hk hb hf hlarge
    constructor
    · have hclamp : Wide.clamp b.truncate = Wide.max := by
        have hmin : Wide.min ≤ Wide.max := by decide
        rw [Wide.clamp, if_neg (not_lt.mpr (hmin.trans hlarge.le)), if_pos hlarge]
      obtain ⟨min, max, hr, -⟩ := Limits.exists_integral hk
      simp only [fit, if_neg hb, hn k, hr, hf, hclamp]
      cases n.fitInt k Wide.max <;> rfl
    · intro min max hr
      rw [hn] at hr
      refine ⟨?_, hmem hk hr _⟩
      rw [reduces_iff hk hr (by decide)]
      omega

/-- The square of the highest number of 64 bits wraps around in 128 bits before it is reduced. -/
theorem fits_reduces_square :
    let n : Numerics := { overflow := .wrap }
    let x : Number := .int (2 ^ 64 - 1)
    (n.limits.Standard ∧ n.overflow = .wrap) ∧
    (n.binary .mul .divisionByZero .unsignedLongLong x .unsignedLongLong x).map Value.data =
      (n.fitInt .unsignedLongLong (1 - 2 ^ 65)).map .int ∧
    Wide.Reduces (1 - 2 ^ 65) 0 (2 ^ 64 - 1) := by
  intro n x
  have hn : n.limits.Standard := LimitsTable.standard_empty
  have hx : n.Operand .unsignedLongLong (2 ^ 64 - 1) := ⟨rfl, .inl (by decide)⟩
  have hfits : Fits n ((n.binary .mul .divisionByZero .unsignedLongLong x .unsignedLongLong x).map
      Value.data) .unsignedLongLong (1 - 2 ^ 65) := .binary hx hx rfl rfl rfl
  obtain ⟨hanswer, hreduces⟩ := (fits_reduces hn rfl).1 _ _ _ hfits
  exact ⟨⟨hn, rfl⟩, hanswer, (hreduces 0 (2 ^ 64 - 1) rfl).1⟩

/-- The float 1e39 becomes the highest number of 128 bits, which is not reduced to `int` inside
them. -/
theorem fit_float_leaves_word :
    let n : Numerics := { overflow := .wrap }
    let f := SignedFloat.ofFloat (Binary.nearest (10 ^ 39) 1)
    (∃ b, Binary.ofFloat? f.value = some b ∧ Wide.clamp b.truncate = Wide.max) ∧
    (n.limits.get .int).range = .integral (-2 ^ 31) (2 ^ 31 - 1) ∧
    Wide.holds (Wide.max - -2 ^ 31) = false ∧ n.fit .int (.float f) = .ok (.int (-1)) := by
  exact ⟨⟨_, rfl, by decide⟩, rfl, by decide, rfl⟩

end Numerics

end Stepwise
