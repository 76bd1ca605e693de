import Stepwise.Proofs.Operator.Integers
import Stepwise.Proofs.Operator.Results

/-! # Integers as operands

What a kind makes of an integer that is to become one of its numbers, be it a result or a
conversion, and operators between two integers of whichever kinds.
-/

namespace Stepwise

/-- The value is an integer of the kind. -/
structure Value.IsInt (v : Value) (k : ArithKind) (x : Int) : Prop where
  ty : v.ty = .arith k
  data : v.data = .int x

theorem Value.isInt_int (k : ArithKind) (x : Int) : (Value.int k x).IsInt k x := ⟨rfl, rfl⟩

namespace LimitsTable

variable {t : LimitsTable} {j k : ArithKind}

theorem range_of_standard (ht : t.Standard) : (t.get k).range = (Limits.standard k).range := by
  rw [ht k]

/-- The numbers of an integral kind lie between two bounds. -/
theorem exists_range (ht : t.Standard) (hk : k.isIntegral = true) :
    ∃ min max, (t.get k).range = .integral min max := by
  obtain ⟨min, max, hr, -⟩ := Limits.exists_integral hk
  exact ⟨min, max, (range_of_standard ht).trans hr⟩

theorem rank_of_standard (ht : t.Standard) : t.rank k = ({} : LimitsTable).rank k := by
  cases k <;> simp only [rank, ht _, get_default]

theorem widened_of_standard (ht : t.Standard) : t.widened k = ({} : LimitsTable).widened k := by
  simp only [widened, rank_of_standard ht]

theorem promote_of_standard (ht : t.Standard) :
    t.promote j k = ({} : LimitsTable).promote j k := by
  simp only [promote, rank_of_standard ht]

end LimitsTable

namespace Numerics

variable {n : Numerics} {j k : ArithKind} {x z : Int} {answer : Except OperatorFault Value}

/-- What an integer of the kind `j` is converted to and compared as among the numbers of the kind
`k`: itself if that kind holds it, and else its number there. There is none if a number out of range
is a fault. -/
def compared? (n : Numerics) (j k : ArithKind) (x : Int) : Option Int :=
  if j = k then some x
  else if k = .bool then some (if x = 0 then 0 else 1)
  else if n.limits.holds k x then some x
  else
    match n.overflow, (n.limits.get k).range with
    | .wrap, .integral min max => some (wrapInto x min max)
    | _, _ => none

/-- The number that a kind has for an integer; there is none if a number out of range is a fault. -/
def fitted? (n : Numerics) (k : ArithKind) (x : Int) : Option Int := (n.fitInt k x).toOption

/-- Between the bounds a number stays what it is; outside them the policy decides. -/
theorem fitted?_eq {min max : Int} (hr : (n.limits.get k).range = .integral min max) :
    n.fitted? k x =
      match n.overflow with
      | .fault => if min ≤ x ∧ x ≤ max then some x else none
      | .wrap => some (wrapInto x min max) := by
  by_cases hx : min ≤ x ∧ x ≤ max
  · cases n.overflow <;> simp [fitted?, fitInt, hr, hx, wrapInto_of_mem hx.1 hx.2, Except.toOption]
  · have hout : (decide (min ≤ x) && decide (x ≤ max)) = false := by simpa using hx
    cases hp : n.overflow <;> simp [fitted?, fitInt, hr, hx, hout, hp, Except.toOption]

/-- What a kind makes of an integer depends on its range alone. -/
theorem fitted?_congr (hr : (n.limits.get j).range = (n.limits.get k).range) :
    n.fitted? j x = n.fitted? k x := by
  cases hk : (n.limits.get k).range with
  | integral min max => rw [fitted?_eq hk, fitted?_eq (hr.trans hk)]
  | floating max => simp [fitted?, fitInt, hr, hk]

/-- A result that settles is the number that its kind has for it. -/
theorem Settles.fitted? (hn : n.limits.Standard) (hs : Settles n.overflow k x answer) :
    match n.fitted? k x with
    | some z => answer = .ok (.int k z)
    | none => ∃ cause, answer = .error cause := by
  obtain ⟨min, max, hr, hs⟩ := hs
  have hget := (LimitsTable.range_of_standard hn).trans hr
  rw [fitted?_eq hget]
  cases hp : n.overflow with
  | fault =>
    simp only [hp] at hs
    by_cases hx : min ≤ x ∧ x ≤ max
    · simpa [hx] using hs
    · rw [if_neg hx] at hs ⊢
      obtain ⟨what, hs⟩ := hs
      exact ⟨_, hs⟩
  | wrap =>
    simp only [hp] at hs
    obtain ⟨w, ⟨hmin, hmax, -⟩, hunique, hs⟩ := hs
    obtain ⟨hmin', hmax'⟩ := wrapInto_mem x (hmin.trans hmax)
    have hw := hunique _ hmin' hmax' (wrapInto_modEq x min max)
    simpa [hw] using hs

/-- A number of another kind is converted to what it is compared as. -/
theorem value_compared? (hjk : j ≠ k) {min max : Int}
    (hr : (n.limits.get k).range = .integral min max) :
    n.value k (.int x) =
      match n.compared? j k x with
      | some z => .ok (.int k z)
      | none => .error (.overflow k (toString x)) := by
  rw [compared?, if_neg hjk]
  by_cases hk : k = .bool
  · subst hk
    by_cases hx : x = 0
    · subst hx
      rfl
    · simp [value, fit, Number.isZero, hx, Value.int, Bind.bind, Except.bind]
      rfl
  · simp only [value, fit, if_neg hk, hr, fitInt, LimitsTable.holds]
    by_cases hin : (decide (min ≤ x) && decide (x ≤ max)) = true
    · simp only [hin, if_true]
      rfl
    · simp only [hin]
      cases n.overflow <;> rfl

/-- An integer is converted to the number that the other kind has for it. -/
theorem compared?_eq_fitted? (hjk : j ≠ k) (hk : k ≠ .bool) {min max : Int}
    (hr : (n.limits.get k).range = .integral min max) :
    n.compared? j k x = n.fitted? k x := by
  rw [compared?, if_neg hjk, if_neg hk, fitted?_eq hr]
  simp only [LimitsTable.holds, hr]
  by_cases hx : min ≤ x ∧ x ≤ max
  · cases n.overflow <;> simp [hx, wrapInto_of_mem hx.1 hx.2]
  · cases n.overflow <;> simp [hx]

end Numerics

namespace OperatorM

variable (ctx : OperatorContext) (h : Heap) {d : Value} {j k : ArithKind} {x : Int}

/-- A number becomes what it is compared as; where there is no such number, the kind overflows. -/
theorem convert_int (hd : d.IsInt j x) {min max : Int}
    (hr : (ctx.numerics.limits.get k).range = .integral min max) (explicit : Bool) :
    match ctx.numerics.compared? j k x with
    | some z => ∃ v : Value, v.IsInt k z ∧ convert d (.arith k) explicit ctx h = .ok v h
    | none => convert d (.arith k) explicit ctx h =
        .error ⟨.operator (.overflow k (toString x)), ctx.node⟩ h := by
  by_cases hjk : j = k
  · subst hjk
    rw [Numerics.compared?, if_pos rfl]
    refine ⟨d.rvalue, ⟨hd.ty, hd.data⟩, ?_⟩
    simp only [convert, hd.ty, Ty.beq_iff_named, if_true]
    rfl
  · have hne : (d.ty == Ty.arith k) = false := by
      rw [Bool.eq_false_iff, Ne, Ty.beq_iff_named, hd.ty]
      simpa [Ty.named] using hjk
    have hconvert : convert d (.arith k) explicit ctx h =
        ofExcept (ctx.numerics.value k (.int x)) ctx h := by
      simp only [convert, hne, convertArith, Value.number?, hd.data, Data.number?]
      rfl
    rw [hconvert, Numerics.value_compared? hjk hr]
    cases ctx.numerics.compared? j k x with
    | some z => exact ⟨.int k z, ⟨rfl, rfl⟩, rfl⟩
    | none => rfl

end OperatorM

namespace Operator

variable (ctx : OperatorContext) {l r : Value} {j k : ArithKind} {a b : Int}

/-- A binary operator between two integers is arithmetic on them. -/
theorem apply_ints (hl : l.IsInt j a) (hr : r.IsInt k b) (op : BinaryOp) (h : Heap) :
    (binary op).apply l (some r) ctx h = outcome ctx h (ctx.numerics.binary op
      (OperatorM.unsupportedCause (.binary op) l (some r)) j (.int a) k (.int b)) := by
  have hnumbers : (binary op).apply l (some r) =
      (do OperatorM.ofExcept ((← read).numerics.binary op
        (OperatorM.unsupportedCause (.binary op) l (some r)) j (.int a) k (.int b))) := by
    simp [apply, ofType?, ofNumber?, hl.ty, OperatorM.arithBinary, hr.ty, Ty.isPointer, Ty.arith?,
      Value.number?, hl.data, hr.data, Data.number?]
  rw [hnumbers]
  change OperatorM.ofExcept (ctx.numerics.binary op _ j (.int a) k (.int b)) ctx h = _
  cases ctx.numerics.binary op _ j (.int a) k (.int b) <;> rfl

end Operator

end Stepwise

/-! ## Symmetric operators

Sums, products, bitwise operations and tests for equality are commutative in mathematics. On
integers of two kinds the order of the operands can still matter, since between kinds of one rank
the first one is the kind of the result. All kinds of a rank have the same range, besides
`char16_t`, which ranks by its four bytes but has the range of two.
-/

namespace Stepwise

namespace BinaryOp

/-- The operators whose operands may be exchanged. -/
def isSymmetric : BinaryOp → Bool
  | add | mul | bitAnd | bitOr | bitXor | eq | ne => true
  | _ => false

variable {op : BinaryOp}

theorem exact_comm (hop : op.isSymmetric = true) (a b : Int) : op.exact a b = op.exact b a := by
  cases op with
  | add => exact Int.add_comm a b
  | mul => exact Int.mul_comm a b
  | bitAnd => cases a <;> cases b <;> simp [exact, Int.land, Nat.land_comm, Nat.lor_comm]
  | bitOr => cases a <;> cases b <;> simp [exact, Int.lor, Nat.land_comm, Nat.lor_comm]
  | bitXor => cases a <;> cases b <;> simp [exact, Int.xor, Nat.xor_comm]
  | eq => simp [exact, eq_comm]
  | ne => simp [exact, eq_comm]
  | sub | div | rem | lt | le | gt | ge | shl | shr => cases hop

theorem undefined?_of_isSymmetric (hop : op.isSymmetric = true) (b : Int) :
    op.undefined? b = none := by
  cases op <;> first | rfl | cases hop

theorem isShift_of_isSymmetric (hop : op.isSymmetric = true) : op.isShift = false := by
  cases op <;> first | rfl | cases hop

end BinaryOp

/-- The integers of the kinds of a rank. -/
def Range.ofRank : Nat → Range
  | 9 => .integral 0 0xffffffff
  | 16 => .integral (-0x8000000000000000) 0x7fffffffffffffff
  | 17 => .integral 0 0xffffffffffffffff
  | _ => .integral (-0x80000000) 0x7fffffff

namespace LimitsTable

variable {t : LimitsTable} {j k : ArithKind}

/-- The kinds take part in operations with one rank, and one of them alone is `char16_t`. -/
def Disputed (t : LimitsTable) (j k : ArithKind) : Prop :=
  t.rank (t.widened j) = t.rank (t.widened k) ∧ Xor (j = .char16) (k = .char16)

theorem widened_char16 (ht : t.Standard) : t.widened .char16 = .char16 :=
  widened_of_standard ht

theorem rank_char16 (ht : t.Standard) : t.rank .char16 = 8 := rank_of_standard ht

/-- The rank that a kind takes part with says what its range is. -/
theorem range_widened (ht : t.Standard) (hk : k.isIntegral = true) (h16 : k ≠ .char16) :
    (Limits.standard (t.widened k)).range = .ofRank (t.rank (t.widened k)) := by
  rw [rank_of_standard ht, widened_of_standard ht]
  cases k <;> first | rfl | exact absurd rfl h16 | cases hk

theorem promote_of_lt (h : t.rank j < t.rank k) : t.promote j k = k ∧ t.promote k j = k :=
  ⟨if_pos h, if_neg h.not_gt⟩

theorem promote_of_eq (h : t.rank j = t.rank k) : t.promote j k = j ∧ t.promote k j = k :=
  ⟨if_neg h.not_lt, if_neg h.not_gt⟩

/-- Unless the kinds are in dispute, the order of the operands does not matter to the range. -/
theorem range_promote_comm (ht : t.Standard) (hj : j.isIntegral = true) (hk : k.isIntegral = true)
    (hd : ¬t.Disputed j k) :
    (Limits.standard (t.promote (t.widened j) (t.widened k))).range =
      (Limits.standard (t.promote (t.widened k) (t.widened j))).range := by
  rcases lt_trichotomy (t.rank (t.widened j)) (t.rank (t.widened k)) with hlt | heq | hlt
  · obtain ⟨hjk, hkj⟩ := promote_of_lt hlt
    rw [hjk, hkj]
  · obtain ⟨hjk, hkj⟩ := promote_of_eq heq
    rw [hjk, hkj]
    by_cases hj16 : j = .char16
    · have hk16 : k = .char16 := by
        by_contra hk16
        exact hd ⟨heq, .inl ⟨hj16, hk16⟩⟩
      rw [hj16, hk16]
    · have hk16 : k ≠ .char16 := fun hk16 => hd ⟨heq, .inr ⟨hk16, hj16⟩⟩
      rw [range_widened ht hj hj16, range_widened ht hk hk16, heq]
  · obtain ⟨hkj, hjk⟩ := promote_of_lt hlt
    rw [hjk, hkj]

/-- In dispute, the first operand decides between the range of `char16_t` and that of `int`. -/
theorem promote_char16 (ht : t.Standard) (hk : k.isIntegral = true) (h16 : k ≠ .char16)
    (hrank : t.rank (t.widened .char16) = t.rank (t.widened k)) :
    t.promote (t.widened .char16) (t.widened k) = .char16 ∧
      (Limits.standard (t.promote (t.widened k) (t.widened .char16))).range =
        (Limits.standard .int).range := by
  obtain ⟨hfirst, hsecond⟩ := promote_of_eq hrank
  rw [widened_char16 ht, rank_char16 ht] at hrank
  rw [hfirst, hsecond, range_widened ht hk h16, ← hrank]
  exact ⟨widened_char16 ht, rfl⟩

end LimitsTable

namespace Numerics

variable {n : Numerics} {x : Int}

/-- `char16_t` and `int` make the same of an integer if `int` makes a number of `char16_t` of it or
nothing. Under the wrapping policy this is so because the width of `int` is a multiple of that of
`char16_t`. -/
theorem fitted?_char16 (hn : n.limits.Standard) :
    n.fitted? .char16 x = n.fitted? .int x ↔
      ∀ z, n.fitted? .int x = some z → ({} : LimitsTable).holds .char16 z = true := by
  have hint : (n.limits.get .int).range = .integral (-0x80000000) 0x7fffffff :=
    LimitsTable.range_of_standard hn
  have hchar : (n.limits.get .char16).range = .integral (-0x8000) 0x7fff :=
    LimitsTable.range_of_standard hn
  rw [fitted?_eq hint, fitted?_eq hchar]
  simp only [LimitsTable.holds_iff (k := .char16) rfl]
  cases n.overflow with
  | fault =>
    dsimp only
    by_cases hx : -0x80000000 ≤ x ∧ x ≤ 0x7fffffff
    · by_cases hx' : -0x8000 ≤ x ∧ x ≤ 0x7fff
      · simp [hx, hx']
      · simp [hx, hx']
    · have hx' : ¬(-0x8000 ≤ x ∧ x ≤ 0x7fff) := by omega
      simp [hx, hx']
  | wrap =>
    have hwide : (0x7fffffff - -0x80000000 + 1 : Int) = 2 ^ 32 := by omega
    have hnarrow : (0x7fff - -0x8000 + 1 : Int) = 2 ^ 16 := by omega
    simp only [Option.some.injEq, forall_eq', wrapInto, hwide, hnarrow]
    omega

end Numerics

namespace Operator

/-- Both orders of the operands fault, or both answer the same integer. -/
def SameInteger (x y : EStateM.Result Fault Heap Value) : Prop :=
  match x, y with
  | .ok v _, .ok w _ => ∃ z, v.data = .int z ∧ w.data = .int z
  | .error .., .error .. => True
  | _, _ => False

section

variable {ctx : OperatorContext} {h : Heap} {j k : ArithKind} {x a b : Int}
  (hn : ctx.numerics.limits.Standard)

include hn

/-- Two answers that settle are the same if their kinds make the same of the exact result. -/
theorem sameInteger_iff {p q : Except OperatorFault Value}
    (hp : Numerics.Settles ctx.numerics.overflow j x p)
    (hq : Numerics.Settles ctx.numerics.overflow k x q) :
    SameInteger (outcome ctx h p) (outcome ctx h q) ↔
      ctx.numerics.fitted? j x = ctx.numerics.fitted? k x := by
  have hp := hp.fitted? hn
  have hq := hq.fitted? hn
  cases hj : ctx.numerics.fitted? j x with
  | some y =>
    simp only [hj] at hp
    cases hk : ctx.numerics.fitted? k x with
    | some z =>
      simp only [hk] at hq
      simp [hp, hq, outcome, SameInteger, Value.int, Value.fresh, eq_comm]
    | none =>
      simp only [hk] at hq
      obtain ⟨cause, hq⟩ := hq
      simp [hp, hq, outcome, SameInteger]
  | none =>
    simp only [hj] at hp
    obtain ⟨cause, hp⟩ := hp
    cases hk : ctx.numerics.fitted? k x with
    | some z =>
      simp only [hk] at hq
      simp [hp, hq, outcome, SameInteger]
    | none =>
      simp only [hk] at hq
      obtain ⟨cause', hq⟩ := hq
      simp [hp, hq, outcome, SameInteger]

/-- What an operator that is defined everywhere computes for two integers settles. -/
theorem settles_apply {op : BinaryOp} (hop : op.isSymmetric = true) (hj : j.isIntegral = true)
    (hk : k.isIntegral = true) (ha : ({} : LimitsTable).holds j a = true)
    (hb : ({} : LimitsTable).holds k b = true) {l r : Value} (hl : l.IsInt j a)
    (hr : r.IsInt k b) (h : Heap) :
    ∃ answer, (binary op).apply l (some r) ctx h = outcome ctx h answer ∧
      Numerics.Settles ctx.numerics.overflow (op.resultKind ctx.numerics.limits j k) (op.exact a b)
        answer := by
  have ha' := LimitsTable.bounds_of_holds hj ha
  have hb' := LimitsTable.bounds_of_holds hk hb
  have hcomputes (cause : OperatorFault) : ctx.numerics.Computes op j a k b
      (ctx.numerics.binary op cause j (.int a) k (.int b)) :=
    Numerics.computes_binary hn hj hk ha' hb'
  simp only [Numerics.Computes, BinaryOp.undefined?_of_isSymmetric hop] at hcomputes
  exact ⟨_, apply_ints ctx hl hr op h, hcomputes _⟩

/-- Whether the two kinds of the result make the same of the exact result. -/
theorem fitted?_resultKind_comm {op : BinaryOp} (hop : op.isSymmetric = true)
    (hj : j.isIntegral = true) (hk : k.isIntegral = true) (x : Int) :
    ctx.numerics.fitted? (op.resultKind ctx.numerics.limits j k) x =
        ctx.numerics.fitted? (op.resultKind ctx.numerics.limits k j) x ↔
      op.isComparison = true ∨ ¬ctx.numerics.limits.Disputed j k ∨
        ∀ z, ctx.numerics.fitted? .int x = some z →
          ({} : LimitsTable).holds .char16 z = true := by
  cases hcomparison : op.isComparison with
  | true => simp [BinaryOp.resultKind_comparison hcomparison]
  | false =>
    simp only [BinaryOp.resultKind_arithmetic hcomparison (BinaryOp.isShift_of_isSymmetric hop),
      Bool.false_eq_true, false_or]
    by_cases hd : ctx.numerics.limits.Disputed j k
    · rw [← Numerics.fitted?_char16 hn]
      simp only [hd, not_true_eq_false, false_or]
      have hint {i : ArithKind} (hr : (Limits.standard i).range = (Limits.standard .int).range) :
          ctx.numerics.fitted? i x = ctx.numerics.fitted? .int x :=
        Numerics.fitted?_congr (by rw [hn i, hn .int, hr])
      obtain ⟨hrank, ⟨rfl, h16⟩ | ⟨rfl, h16⟩⟩ := hd
      · obtain ⟨hfirst, hsecond⟩ := LimitsTable.promote_char16 hn hk h16 hrank
        rw [hfirst, hint hsecond]
      · obtain ⟨hfirst, hsecond⟩ := LimitsTable.promote_char16 hn hj h16 hrank.symm
        rw [hfirst, hint hsecond, eq_comm]
    · simp only [hd, not_false_eq_true, true_or, iff_true]
      refine Numerics.fitted?_congr ?_
      rw [hn, hn]
      exact LimitsTable.range_promote_comm hn hj hk hd

end

/-- Symmetric operators on integers answer the same in both orders, except that an arithmetic
one does not between `char16_t` and another kind of its rank if `int` has a number for the result
that `char16_t` does not hold. -/
theorem apply_comm_iff {ctx : OperatorContext} (hn : ctx.numerics.limits.Standard)
    {j k : ArithKind} (hj : j.isIntegral = true) (hk : k.isIntegral = true) {a b : Int}
    (ha : ctx.numerics.limits.holds j a = true) (hb : ctx.numerics.limits.holds k b = true)
    {l r : Value} (hl : l.IsInt j a) (hr : r.IsInt k b) {op : BinaryOp}
    (hop : op.isSymmetric = true) (h : Heap) :
    SameInteger ((binary op).apply l (some r) ctx h) ((binary op).apply r (some l) ctx h) ↔
      op.isComparison = true ∨ ¬ctx.numerics.limits.Disputed j k ∨
        ∀ z, ctx.numerics.fitted? .int (op.exact a b) = some z →
          ctx.numerics.limits.holds .char16 z = true := by
  have hholds (k : ArithKind) (v : Int) :
      ctx.numerics.limits.holds k v = ({} : LimitsTable).holds k v := by
    rw [LimitsTable.holds, hn k, LimitsTable.holds, LimitsTable.get_default]
  simp only [hholds] at ha hb ⊢
  obtain ⟨p, hp, hsp⟩ := settles_apply hn hop hj hk ha hb hl hr h
  obtain ⟨q, hq, hsq⟩ := settles_apply hn hop hk hj hb ha hr hl h
  rw [BinaryOp.exact_comm hop b a] at hsq
  rw [hp, hq, sameInteger_iff hn hsp hsq]
  exact fitted?_resultKind_comm hn hop hj hk _

/-- `char16_t` and `short` are in dispute, but the sum of small numbers is one of both. -/
theorem apply_comm_iff_short :
    let ctx : OperatorContext := ⟨{}, [], none⟩
    let l : Value := .int .char16 97
    let r : Value := .int .short 200
    SameInteger ((binary .add).apply l (some r) ctx {}) ((binary .add).apply r (some l) ctx {}) := by
  intro ctx l r
  have hn : ctx.numerics.limits.Standard := LimitsTable.standard_empty
  have hl : l.IsInt .char16 97 := Value.isInt_int _ _
  have hr : r.IsInt .short 200 := Value.isInt_int _ _
  refine (apply_comm_iff hn rfl rfl (by decide) (by decide) hl hr rfl {}).mpr (.inr (.inr ?_))
  intro z hz
  cases hz
  decide

/-- The sum of `u'a'` and 40000 overflows `char16_t`, but in the other order it is one of `int`. -/
theorem add_char16_not_comm :
    let ctx : OperatorContext := ⟨{}, [], none⟩
    let l : Value := .int .char16 97
    let r : Value := .int .int 40000
    (binary .add).apply l (some r) ctx {} =
        .error ⟨.operator (.overflow .char16 "40097"), none⟩ {} ∧
      (binary .add).apply r (some l) ctx {} = .ok (.int .int 40097) {} ∧
      ¬SameInteger ((binary .add).apply l (some r) ctx {})
        ((binary .add).apply r (some l) ctx {}) := by
  refine ⟨rfl, rfl, fun hsame => ?_⟩
  exact hsame

end Operator

end Stepwise
