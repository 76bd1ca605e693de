import Mathlib.Data.Int.Bitwise
import Mathlib.Data.Int.ModEq
import Stepwise.Operator.Apply
import Stepwise.Proofs.Operator.Layout
import Stepwise.Proofs.Overflow.Numbers

/-! # Exact and modular integers

The result of an operator on two integers is the one of mathematics if the kind of the
result holds it. If not, it is a fault, or the number of the kind that is congruent to it.
The words of 128 bits that results pass through make no difference: what they lose is a
multiple of the width of every kind.
-/

namespace Stepwise

namespace Wide

/-- The size of an integer apart from its sign. -/
def magnitude : Int → Nat
  | .ofNat m => m
  | .negSucc m => m

theorem holds_iff (v : Int) : holds v = true ↔ -2 ^ 127 ≤ v ∧ v < 2 ^ 127 := by
  have hmin : min = -2 ^ 127 := rfl
  have hmax : max = 2 ^ 127 - 1 := rfl
  simp only [holds, hmin, hmax, Bool.and_eq_true, decide_eq_true_eq]
  omega

theorem holds_iff_magnitude (v : Int) : holds v = true ↔ magnitude v < 2 ^ 127 := by
  rw [holds_iff]
  cases v with
  | ofNat m =>
    simp only [magnitude, Int.ofNat_eq_natCast]
    omega
  | negSucc m =>
    simp only [magnitude]
    omega

section Bits

variable {a b : Int}

theorem ofNat_ldiff (m n : Nat) :
    BitVec.ofNat 128 (m.ldiff n) = BitVec.ofNat 128 m &&& ~~~BitVec.ofNat 128 n := by
  refine BitVec.eq_of_getLsbD_eq fun i hi => ?_
  simp only [BitVec.getLsbD_and, BitVec.getLsbD_not, BitVec.getLsbD_ofNat, Nat.testBit_ldiff, hi,
    decide_true, Bool.true_and]

/-- An operation on bits that means the same on words of any length does so on 128 bits. -/
theorem bitwise_eq {f : BitVec 128 → BitVec 128 → BitVec 128} {g : Int → Int → Int}
    (hfg : BitVec.ofInt 128 (g a b) = f (.ofInt 128 a) (.ofInt 128 b))
    (hg : magnitude (g a b) < 2 ^ 127) : bitwise f a b = g a b := by
  rw [bitwise, ← hfg, BitVec.toInt_ofInt]
  exact Numerics.bmod_of_holds ((holds_iff_magnitude _).mpr hg)

variable (ha : holds a = true) (hb : holds b = true)

include ha hb

theorem bitwise_and : bitwise (· &&& ·) a b = a.land b := by
  rw [holds_iff_magnitude] at ha hb
  apply bitwise_eq
  · cases a <;> cases b <;>
      simp only [Int.land, Int.ofNat_eq_natCast, BitVec.ofInt_natCast,
        BitVec.ofInt_negSucc_eq_not_ofNat, ofNat_ldiff, BitVec.ofNat_and, BitVec.ofNat_or,
        BitVec.not_or, BitVec.and_comm]
  · cases a <;> cases b <;>
      first | exact Nat.bitwise_lt_two_pow ha hb | exact Nat.bitwise_lt_two_pow hb ha

theorem bitwise_or : bitwise (· ||| ·) a b = a.lor b := by
  rw [holds_iff_magnitude] at ha hb
  apply bitwise_eq
  · cases a <;> cases b <;>
      simp only [Int.lor, Int.ofNat_eq_natCast, BitVec.ofInt_natCast,
        BitVec.ofInt_negSucc_eq_not_ofNat, ofNat_ldiff, BitVec.ofNat_and, BitVec.ofNat_or,
        BitVec.not_and, BitVec.not_not, BitVec.or_comm]
  · cases a <;> cases b <;>
      first | exact Nat.bitwise_lt_two_pow ha hb | exact Nat.bitwise_lt_two_pow hb ha

theorem bitwise_xor : bitwise (· ^^^ ·) a b = a.xor b := by
  rw [holds_iff_magnitude] at ha hb
  apply bitwise_eq
  · cases a <;> cases b <;>
      simp only [Int.xor, Int.ofNat_eq_natCast, BitVec.ofInt_natCast,
        BitVec.ofInt_negSucc_eq_not_ofNat, BitVec.ofNat_xor, ← BitVec.not_xor_left,
        ← BitVec.not_xor_right, BitVec.not_not]
  · cases a <;> cases b <;> exact Nat.bitwise_lt_two_pow ha hb

end Bits

end Wide

namespace BinaryOp

/-- The integer that an operator stands for in mathematics, on two's complement without end where
it is about bits. -/
def exact (op : BinaryOp) (a b : Int) : Int :=
  match op with
  | add => a + b
  | sub => a - b
  | mul => a * b
  | div => Int.fdiv a b
  | rem => Int.tmod a b
  | bitAnd => a.land b
  | bitOr => a.lor b
  | bitXor => a.xor b
  | shl => a * 2 ^ b.toNat
  | shr => Int.fdiv a (2 ^ b.toNat)
  | eq => if a = b then 1 else 0
  | ne => if a ≠ b then 1 else 0
  | lt => if a < b then 1 else 0
  | le => if a ≤ b then 1 else 0
  | gt => if a > b then 1 else 0
  | ge => if a ≥ b then 1 else 0

theorem exact_truth {op : BinaryOp} (hop : op.isComparison = true) (a b : Int) :
    op.exact a b = 0 ∨ op.exact a b = 1 := by
  cases op <;> first
    | exact absurd hop (by decide)
    | exact (ite_eq_or_eq ..).symm

/-- The fault of right operands that have no result whatever the limits are. -/
def undefined? (op : BinaryOp) (b : Int) : Option OperatorFault :=
  match op with
  | div | rem => if b = 0 then some .divisionByZero else none
  | shl | shr => if 0 ≤ b ∧ b ≤ 127 then none else some (.shiftCount b)
  | _ => none

/-- The kind of the result on integers of two kinds. -/
def resultKind (t : LimitsTable) (op : BinaryOp) (j k : ArithKind) : ArithKind :=
  if op.isComparison then .bool
  else if op.isShift then if j = .bool then .int else j
  else t.promote (t.widened j) (t.widened k)

section ResultKind

variable {op : BinaryOp}

theorem isComparison_of_isShift (h : op.isShift = true) : op.isComparison = false := by
  cases op <;> first | rfl | cases h

theorem resultKind_comparison (h : op.isComparison = true) (t : LimitsTable) (j k : ArithKind) :
    op.resultKind t j k = .bool := if_pos h

theorem resultKind_shift (h : op.isShift = true) (t : LimitsTable) (j k : ArithKind) :
    op.resultKind t j k = if j = .bool then .int else j := by
  simp [resultKind, isComparison_of_isShift h, h]

theorem resultKind_arithmetic (h : op.isComparison = false) (hshift : op.isShift = false)
    (t : LimitsTable) (j k : ArithKind) :
    op.resultKind t j k = t.promote (t.widened j) (t.widened k) := by
  simp [resultKind, h, hshift]

end ResultKind

end BinaryOp

namespace Limits

/-- The numbers of every integral kind have at most 64 bits, and their width is a power of two. -/
theorem exists_width {k : ArithKind} (hk : k.isIntegral = true) :
    ∃ min max, (standard k).range = .integral min max ∧ min ≤ max ∧ -2 ^ 63 ≤ min ∧
      max < 2 ^ 64 ∧ max - min + 1 ∣ 2 ^ 128 := by
  cases k <;> first
    | exact ⟨_, _, rfl, by decide, by decide, by decide, Int.dvd_of_emod_eq_zero rfl⟩
    | cases hk

end Limits

namespace LimitsTable

variable {t : LimitsTable} {j k : ArithKind}

theorem bounds_of_holds (hk : k.isIntegral = true) {v : Int}
    (hv : ({} : LimitsTable).holds k v = true) : -2 ^ 63 ≤ v ∧ v < 2 ^ 64 := by
  obtain ⟨min, max, hr, -, hmin, hmax, -⟩ := Limits.exists_width hk
  obtain ⟨hminv, hvmax⟩ := (holds_iff hr).mp hv
  exact ⟨hmin.trans hminv, hvmax.trans_lt hmax⟩

theorem rank_bool_lt (ht : t.Standard) : t.rank .bool < t.rank .int := by
  simp only [rank, ht .bool, ht .int]
  decide

/-- What takes part in an operation is an integer of a kind other than `bool`. -/
theorem widened_spec (ht : t.Standard) (hk : k.isIntegral = true) :
    (t.widened k).isIntegral = true ∧ t.widened k ≠ .bool := by
  unfold widened
  split
  · exact ⟨rfl, nofun⟩
  · refine ⟨hk, fun hbool => ?_⟩
    subst hbool
    have hlt := rank_bool_lt ht
    simp_all

theorem promote_spec (p : ArithKind → Prop) (hj : p j) (hk : p k) : p (t.promote j k) := by
  unfold promote
  split
  · exact hk
  · exact hj

end LimitsTable

theorem BinaryOp.resultKind_spec {t : LimitsTable} (ht : t.Standard) {op : BinaryOp}
    (hop : op.isComparison = false) {j k : ArithKind} (hj : j.isIntegral = true)
    (hk : k.isIntegral = true) :
    (op.resultKind t j k).isIntegral = true ∧ op.resultKind t j k ≠ .bool := by
  rw [resultKind, if_neg (by simp [hop])]
  split
  · split
    · exact ⟨rfl, nofun⟩
    · exact ⟨hj, ‹_›⟩
  · exact LimitsTable.promote_spec (fun k => k.isIntegral = true ∧ k ≠ .bool)
      (LimitsTable.widened_spec ht hj) (LimitsTable.widened_spec ht hk)

namespace Numerics

/-- What a result `x` of kind `k` has to become: itself between the limits of the kind; outside them
an overflow, or the only number between them that is congruent to it modulo their width. -/
def Settles (policy : OverflowPolicy) (k : ArithKind) (x : Int)
    (answer : Except OperatorFault Value) : Prop :=
  ∃ min max, (Limits.standard k).range = .integral min max ∧
    match policy with
    | .fault =>
      if min ≤ x ∧ x ≤ max then answer = .ok (.int k x)
      else ∃ what, answer = .error (.overflow k what)
    | .wrap => ∃ w, (min ≤ w ∧ w ≤ max ∧ w ≡ x [ZMOD max - min + 1]) ∧
        (∀ u, min ≤ u → u ≤ max → u ≡ x [ZMOD max - min + 1] → u = w) ∧ answer = .ok (.int k w)

/-- Two numbers of one range are the same if they are congruent modulo its width. -/
theorem eq_of_modEq {min max u w : Int} (humin : min ≤ u) (humax : u ≤ max) (hwmin : min ≤ w)
    (hwmax : w ≤ max) (h : u ≡ w [ZMOD max - min + 1]) : u = w := by
  have hmod : (u - min) % (max - min + 1) = (w - min) % (max - min + 1) := h.sub_right min
  rw [Int.emod_eq_of_lt (by omega) (by omega), Int.emod_eq_of_lt (by omega) (by omega)] at hmod
  omega

theorem wrapInto_modEq (v min max : Int) : wrapInto v min max ≡ v [ZMOD max - min + 1] := by
  have h := (Int.mod_modEq (v - min) (max - min + 1)).add_left min
  rwa [add_sub_cancel] at h

variable {n : Numerics} {k : ArithKind} {v x : Int}

theorem value_int (hn : n.limits.Standard) (hk : k.isIntegral = true) (hb : k ≠ .bool) :
    n.value k (.int v) = (n.fitInt k v).map (Value.int k) := by
  obtain ⟨min, max, hr, -⟩ := Limits.exists_integral hk
  simp only [value, fit, if_neg hb, hn k, hr]
  cases n.fitInt k v <;> rfl

/-- A number that the kind holds is its own result. -/
theorem settles_of_mem {policy : OverflowPolicy} {min max : Int}
    (hr : (Limits.standard k).range = .integral min max) (hmin : min ≤ x) (hmax : x ≤ max) :
    Settles policy k x (.ok (.int k x)) := by
  refine ⟨min, max, hr, ?_⟩
  cases policy with
  | fault =>
    dsimp only
    rw [if_pos ⟨hmin, hmax⟩]
  | wrap =>
    exact ⟨x, ⟨hmin, hmax, .refl _⟩, fun u hu hu' h => eq_of_modEq hu hu' hmin hmax h, rfl⟩

section

variable (hn : n.limits.Standard) (hk : k.isIntegral = true) (hb : k ≠ .bool)

include hn hk hb

theorem settles_value_of_wrap (hw : n.overflow = .wrap) (hx : v ≡ x [ZMOD 2 ^ 128]) :
    Settles .wrap k x (n.value k (.int v)) := by
  obtain ⟨min, max, hr, hle, -, -, hdvd⟩ := Limits.exists_width hk
  have hfit : n.fitInt k v = .ok (wrapInto v min max) := by
    simp only [fitInt, hn k, hr, hw]
    split
    · rename_i hv
      simp only [Bool.and_eq_true, decide_eq_true_eq] at hv
      rw [wrapInto_of_mem hv.1 hv.2]
    · rfl
  rw [value_int hn hk hb, hfit]
  obtain ⟨hmin, hmax⟩ := wrapInto_mem v hle
  have hcongr : wrapInto v min max ≡ x [ZMOD max - min + 1] :=
    (wrapInto_modEq v min max).trans (hx.of_dvd hdvd)
  exact ⟨min, max, hr, _, ⟨hmin, hmax, hcongr⟩,
    fun u hu hu' h => eq_of_modEq hu hu' hmin hmax (h.trans hcongr.symm), rfl⟩

/-- A number that reaches the check as it is gets the result that it has to. -/
theorem settles_value : Settles n.overflow k x (n.value k (.int x)) := by
  cases hp : n.overflow with
  | wrap => exact settles_value_of_wrap hn hk hb hp (.refl x)
  | fault =>
    obtain ⟨min, max, hr, -⟩ := Limits.exists_integral hk
    refine ⟨min, max, hr, ?_⟩
    simp only [value_int hn hk hb, fitInt, hn k, hr, hp]
    split
    · rename_i hx
      simp [hx, Except.map]
    · rename_i hx
      simp [hx, Except.map]

/-- Neither what is computed nor what should be is a number of any kind. -/
theorem settles_value_of_far (hf : n.overflow = .fault) (hv : v < -2 ^ 63 ∨ 2 ^ 64 ≤ v)
    (hx : x < -2 ^ 63 ∨ 2 ^ 64 ≤ x) : Settles .fault k x (n.value k (.int v)) := by
  obtain ⟨min, max, hr, -, hmin, hmax, -⟩ := Limits.exists_width hk
  refine ⟨min, max, hr, ?_⟩
  have hv' : (decide (min ≤ v) && decide (v ≤ max)) = false := by
    simp only [Bool.and_eq_false_iff, decide_eq_false_iff_not]
    omega
  simp only [value_int hn hk hb, fitInt, hn k, hr, hf, hv', Bool.false_eq_true, if_false]
  rw [if_neg (by omega)]
  exact ⟨_, rfl⟩

end

/-- A result that 128 bits do not hold overflows every kind. -/
theorem settles_overflow (hk : k.isIntegral = true) (hx : x < -2 ^ 63 ∨ 2 ^ 64 ≤ x)
    (what : String) : Settles .fault k x (.error (.overflow k what)) := by
  obtain ⟨min, max, hr, -, hmin, hmax, -⟩ := Limits.exists_width hk
  refine ⟨min, max, hr, ?_⟩
  dsimp only
  rw [if_neg (by omega)]
  exact ⟨_, rfl⟩

theorem far_of_not_holds (hx : ¬Wide.holds x = true) : x < -2 ^ 63 ∨ 2 ^ 64 ≤ x := by
  rw [Wide.holds_iff] at hx
  omega

theorem bmod_modEq (v : Int) : Int.bmod v (pow2 128) ≡ v [ZMOD 2 ^ 128] := Int.bmod_emod

section

variable {a b : Int}

theorem test_compare {op : BinaryOp} (hop : op.isComparison = true) :
    Value.bool (Number.test op (some (compare a b))) = .int .bool (op.exact a b) := by
  have htest : Number.test op (some (compare a b)) = true ↔ op.exact a b = 1 := by
    rcases lt_trichotomy a b with h | h | h
    · rw [compare_lt_iff_lt.mpr h]
      cases op <;> first
        | exact absurd hop (by decide)
        | simp [Number.test, BinaryOp.exact, h, h.le, h.ne, h.le.not_gt, h.not_ge]
    · rw [compare_eq_iff_eq.mpr h]
      cases op <;> first
        | exact absurd hop (by decide)
        | simp [Number.test, BinaryOp.exact, h]
    · rw [compare_gt_iff_gt.mpr h]
      cases op <;> first
        | exact absurd hop (by decide)
        | simp [Number.test, BinaryOp.exact, h, h.le, h.ne', h.le.not_gt, h.not_ge]
  rcases BinaryOp.exact_truth hop a b with h | h
  · rw [h, Value.bool, if_neg (by simp [htest, h])]
  · rw [h, Value.bool, if_pos (htest.mpr h)]

theorem coe_pow2 (m : Nat) : (pow2 m : Int) = 2 ^ m := Nat.cast_pow 2 m

theorem shiftFactor_of_lt {m : Nat} (hm : m < 127) : Wide.shiftFactor m = 2 ^ m := by
  rw [Wide.shiftFactor, if_neg hm.ne, coe_pow2]

theorem shiftFactor_last : Wide.shiftFactor 127 = -2 ^ 127 := rfl

theorem shiftFactor_modEq {m : Nat} (hm : m ≤ 127) :
    Wide.shiftFactor m ≡ 2 ^ m [ZMOD 2 ^ 128] := by
  rcases hm.lt_or_eq with hm | rfl
  · rw [shiftFactor_of_lt hm]
  · rfl

/-- The factor of 127 places is off by its sign. Only 0 and 1 stay below 128 bits with it, and the
latter overflows either way. -/
theorem settles_shl {m : Nat} (hm : m ≤ 127) (hn : n.limits.Standard) (hk : k.isIntegral = true)
    (hb : k ≠ .bool) (what : String) :
    Settles n.overflow k (a * 2 ^ m)
      (if Wide.holds (a * Wide.shiftFactor m) then n.value k (.int (a * Wide.shiftFactor m))
      else
        match n.overflow with
        | .wrap => n.value k (.int (Int.bmod (a * pow2 m) (pow2 128)))
        | .fault => .error (.overflow k what)) := by
  cases hp : n.overflow with
  | wrap =>
    dsimp only
    split
    · exact settles_value_of_wrap hn hk hb hp ((shiftFactor_modEq hm).mul_left a)
    · refine settles_value_of_wrap hn hk hb hp ?_
      rw [coe_pow2]
      exact bmod_modEq _
  | fault =>
    dsimp only
    rcases hm.lt_or_eq with hm | rfl
    · rw [shiftFactor_of_lt hm]
      split
      · exact hp ▸ settles_value hn hk hb
      · exact settles_overflow hk (far_of_not_holds ‹_›) what
    · rw [shiftFactor_last]
      split
      · rename_i hwide
        rw [Wide.holds_iff] at hwide
        obtain rfl | rfl : a = 0 ∨ a = 1 := by omega
        · exact hp ▸ settles_value hn hk hb
        · exact settles_value_of_far hn hk hb hp (by omega) (by omega)
      · rename_i hwide
        rw [Wide.holds_iff] at hwide
        exact settles_overflow hk (by omega) what

/-- A result before its check, unless it takes part in an overflow of 128 bits. -/
theorem settles_checked (hn : n.limits.Standard) (hk : k.isIntegral = true) (hb : k ≠ .bool)
    (hx : Wide.holds x = true ∨ n.overflow = .fault) (what : String) :
    Settles n.overflow k x ((if Wide.holds x then .ok x else .error (.overflow k what)) >>= fun v =>
      n.value k (.int v)) := by
  by_cases hwide : Wide.holds x = true
  · rw [if_pos hwide]
    exact settles_value hn hk hb
  · rw [if_neg hwide, hx.resolve_left hwide]
    exact settles_overflow hk (far_of_not_holds hwide) what

end

/-- What an operator has to answer for two integers of the kinds `j` and `k`. -/
def Computes (n : Numerics) (op : BinaryOp) (j : ArithKind) (a : Int) (k : ArithKind) (b : Int)
    (answer : Except OperatorFault Value) : Prop :=
  match op.undefined? b with
  | some fault => answer = .error fault
  | none => Settles n.overflow (op.resultKind n.limits j k) (op.exact a b) answer

section

variable {op : BinaryOp} {cause : OperatorFault} {j : ArithKind} {a b : Int}
  (hn : n.limits.Standard) (hj : j.isIntegral = true) (hk : k.isIntegral = true)
  (ha : -2 ^ 63 ≤ a ∧ a < 2 ^ 64) (hb : -2 ^ 63 ≤ b ∧ b < 2 ^ 64)

include hn hj hk

theorem computes_shift (hop : op.isShift = true) : n.Computes op j a k b (n.shift op j a b) := by
  have hkind := BinaryOp.resultKind_shift hop n.limits j k
  have hundefined : op.undefined? b = if 0 ≤ b ∧ b ≤ 127 then none else some (.shiftCount b) := by
    cases op <;> first | rfl | cases hop
  obtain ⟨hi, hbool⟩ :=
    BinaryOp.resultKind_spec hn (BinaryOp.isComparison_of_isShift hop) hj hk
  rw [hkind] at hi hbool
  rw [Computes, hundefined, hkind]
  by_cases hrange : 0 ≤ b ∧ b ≤ 127
  · have hcount : (decide (b < 0) || decide (128 ≤ b)) = false := by simp; omega
    have hm : b.toNat ≤ 127 := by omega
    rw [if_pos hrange]
    simp only [shift, hcount, Bool.false_eq_true, if_false]
    generalize (if j = .bool then .int else j) = kind at hi hbool ⊢
    by_cases hshr : op = .shr
    · subst hshr
      have hdiv : a >>> b.toNat = BinaryOp.exact .shr a b := by
        have hpow : (2 ^ b.toNat : Int) = (2 ^ b.toNat : Nat) := (Nat.cast_pow 2 _).symm
        rw [Int.shiftRight_eq_div_pow, BinaryOp.exact, hpow,
          Int.fdiv_eq_ediv_of_nonneg _ (Int.natCast_nonneg _)]
      rw [if_pos rfl, hdiv]
      exact settles_value hn hi hbool
    · have hshl : op = .shl := by cases op <;> first | rfl | exact absurd rfl hshr | cases hop
      subst hshl
      rw [if_neg hshr]
      exact settles_shl hm hn hi hbool _
  · have hcount : (decide (b < 0) || decide (128 ≤ b)) = true := by simp; omega
    rw [if_neg hrange]
    simp only [shift, hcount, if_true]

include ha hb

/-- Sums and quotients fit 128 bits, and so does every product under the faulting policy that does
not overflow. -/
theorem computes_integer (hop : op.isComparison = false) (hshift : op.isShift = false) :
    ∃ result, n.integerResult? (op.resultKind n.limits j k) op a b = some result ∧
      n.Computes op j a k b (do n.value (op.resultKind n.limits j k) (.int (← result))) := by
  obtain ⟨hi, hbool⟩ := BinaryOp.resultKind_spec hn hop hj hk
  have hawide : Wide.holds a = true := by rw [Wide.holds_iff]; omega
  have hbwide : Wide.holds b = true := by rw [Wide.holds_iff]; omega
  simp only [integerResult?, Computes]
  generalize op.resultKind n.limits j k = kind at hi hbool ⊢
  have hexact {v : Int} (hv : v = op.exact a b) :
      Settles n.overflow kind (op.exact a b) (n.value kind (.int v)) :=
    hv ▸ settles_value hn hi hbool
  cases op with
  | add =>
    refine ⟨_, rfl, settles_checked hn hi hbool (.inl ?_) _⟩
    rw [Wide.holds_iff]
    simp only [BinaryOp.exact]
    omega
  | sub =>
    refine ⟨_, rfl, settles_checked hn hi hbool (.inl ?_) _⟩
    rw [Wide.holds_iff]
    simp only [BinaryOp.exact]
    omega
  | mul =>
    refine ⟨_, rfl, ?_⟩
    simp only [BinaryOp.undefined?]
    cases hp : n.overflow with
    | wrap => exact settles_value_of_wrap hn hi hbool hp (bmod_modEq _)
    | fault =>
      have hchecked := settles_checked hn hi hbool (show Wide.holds (a * b) = true ∨ _ from .inr hp)
      simp only [hp] at hchecked
      exact hchecked _
  | div | rem =>
    refine ⟨_, rfl, ?_⟩
    simp only [BinaryOp.undefined?]
    by_cases hzero : b = 0
    · rw [if_pos hzero, if_pos hzero]
      rfl
    · rw [if_neg hzero, if_neg hzero]
      exact hexact rfl
  | bitAnd => exact ⟨_, rfl, hexact (Wide.bitwise_and hawide hbwide)⟩
  | bitOr => exact ⟨_, rfl, hexact (Wide.bitwise_or hawide hbwide)⟩
  | bitXor => exact ⟨_, rfl, hexact (Wide.bitwise_xor hawide hbwide)⟩
  | shl | shr => cases hshift
  | eq | ne | lt | le | gt | ge => cases hop

theorem computes_binary : n.Computes op j a k b (n.binary op cause j (.int a) k (.int b)) := by
  cases hop : op.isComparison with
  | true =>
    have hundefined : op.undefined? b = none := by
      cases op <;> first | rfl | exact absurd hop (by decide)
    simp only [binary, hop, if_true, Computes, hundefined, BinaryOp.resultKind_comparison hop,
      Number.compare?, test_compare hop]
    rcases BinaryOp.exact_truth hop a b with h | h
    · exact settles_of_mem rfl (by omega) (by omega)
    · exact settles_of_mem rfl (by omega) (by omega)
  | false =>
    cases hshift : op.isShift with
    | true => simpa [binary, hop, hshift] using computes_shift hn hj hk hshift
    | false =>
      have hkind := BinaryOp.resultKind_arithmetic hop hshift n.limits j k
      have hfloat : (n.limits.promote (n.limits.widened j) (n.limits.widened k)).isFloat = false := by
        rw [← hkind]
        simpa [ArithKind.isIntegral] using (BinaryOp.resultKind_spec hn hop hj hk).1
      obtain ⟨result, hresult, hcomputes⟩ := computes_integer hn hj hk ha hb hop hshift
      rw [hkind] at hresult hcomputes
      simpa [binary, hop, hshift, hfloat, hresult] using hcomputes

end

end Numerics

namespace Operator

/-- The outcome of an operator that leaves the heap as it is. -/
def outcome (ctx : OperatorContext) (h : Heap) (answer : Except OperatorFault Value) :
    EStateM.Result Fault Heap Value :=
  match answer with
  | .ok v => .ok v h
  | .error cause => .error ⟨.operator cause, ctx.node⟩ h

/-- On integers between the standard limits of their kinds, every binary operator faults for a right
operand for which it is undefined. Otherwise it has the exact result if the kind of the result
holds it; if not, it overflows, or has the number of that kind that is congruent to the exact
result, as the policy says. -/
theorem apply_binary_exact {ctx : OperatorContext} (hn : ctx.numerics.limits.Standard)
    {j k : ArithKind} (hj : j.isIntegral = true) (hk : k.isIntegral = true) {a b : Int}
    (ha : ctx.numerics.limits.holds j a = true) (hb : ctx.numerics.limits.holds k b = true)
    {l r : Value} (hl : l.ty = .arith j) (hla : l.data = .int a) (hr : r.ty = .arith k)
    (hrb : r.data = .int b) (op : BinaryOp) (h : Heap) :
    ∃ answer, (Operator.binary op).apply l (some r) ctx h = outcome ctx h answer ∧
      ctx.numerics.Computes op j a k b answer := by
  have hholds (k : ArithKind) (v : Int) :
      ctx.numerics.limits.holds k v = ({} : LimitsTable).holds k v := by
    rw [LimitsTable.holds, hn k, LimitsTable.holds, LimitsTable.get_default]
  refine ⟨ctx.numerics.binary op (OperatorM.unsupportedCause (.binary op) l (some r)) j (.int a) k
    (.int b), ?_, Numerics.computes_binary hn hj hk
      (LimitsTable.bounds_of_holds hj (hholds j a ▸ ha))
      (LimitsTable.bounds_of_holds hk (hholds k b ▸ hb))⟩
  have hnumbers : (Operator.binary op).apply l (some r) =
      (do OperatorM.ofExcept ((← read).numerics.binary op
        (OperatorM.unsupportedCause (.binary op) l (some r)) j (.int a) k (.int b))) := by
    simp [apply, ofType?, ofNumber?, hl, OperatorM.arithBinary, hr, Ty.isPointer, Ty.arith?,
      Value.number?, hla, hrb, Data.number?]
  rw [hnumbers]
  change OperatorM.ofExcept (ctx.numerics.binary op _ j (.int a) k (.int b)) ctx h = _
  cases ctx.numerics.binary op _ j (.int a) k (.int b) <;> rfl

/-- A product of 128 bits, which is 1 modulo the width of its kind. -/
theorem apply_binary_exact_mul_max :
    let ctx : OperatorContext := { numerics := { overflow := .wrap }, tables := [], node := none }
    let last : Value := .fresh (.arith .unsignedLongLong) (.int (2 ^ 64 - 1))
    ∃ answer, (Operator.binary .mul).apply last (some last) ctx {} = outcome ctx {} answer ∧
      ctx.numerics.Computes .mul .unsignedLongLong (2 ^ 64 - 1) .unsignedLongLong (2 ^ 64 - 1)
        answer := by
  intro ctx last
  have hstandard : ctx.numerics.limits.Standard := LimitsTable.standard_empty
  exact apply_binary_exact hstandard rfl rfl (by decide) (by decide) rfl rfl rfl rfl .mul {}

end Operator

end Stepwise
