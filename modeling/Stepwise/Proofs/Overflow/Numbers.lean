import Stepwise.Operator.Number

/-! # Arithmetic under both overflow policies

The policy decides only about results that leave the range of their kind, and there the
faulting policy has no result. So arithmetic under wrapping numbers agrees with it
everywhere but where it faults with an overflow.
-/

namespace Stepwise

/-- The fault of a number that leaves its range. -/
def OperatorFault.isOverflow : OperatorFault → Bool
  | overflow .. | stepOverflow .. => true
  | _ => false

/-- `y` is the same as `x`, unless `x` is an overflow. -/
def UpToOverflow {α : Type} (x y : Except OperatorFault α) : Prop :=
  y = x ∨ ∃ e, x = .error e ∧ e.isOverflow = true

namespace UpToOverflow

variable {α β : Type} {x y : Except OperatorFault α} {f g : α → Except OperatorFault β}

theorem refl (x : Except OperatorFault α) : UpToOverflow x x := .inl rfl

theorem overflow {e : OperatorFault} (he : e.isOverflow = true) : UpToOverflow (.error e) y :=
  .inr ⟨e, rfl, he⟩

theorem bind (hx : UpToOverflow x y) (hf : ∀ a, UpToOverflow (f a) (g a)) :
    UpToOverflow (x >>= f) (y >>= g) := by
  rcases hx with rfl | ⟨e, rfl, he⟩
  · cases y with
    | error e => exact .inl rfl
    | ok a => exact hf a
  · exact .inr ⟨e, rfl, he⟩

theorem ite {p : Prop} [Decidable p] {x' y' : Except OperatorFault α} (hx : UpToOverflow x y)
    (hx' : UpToOverflow x' y') : UpToOverflow (if p then x else x') (if p then y else y') := by
  split
  · exact hx
  · exact hx'

end UpToOverflow

namespace Numerics

/-- The same rules, except that numbers wrap around if `wraps` says so. -/
def wrapping (n : Numerics) (wraps : Bool) : Numerics :=
  { n with overflow := if wraps then .wrap else n.overflow }

@[simp] theorem wrapping_false (n : Numerics) : n.wrapping false = n := rfl

theorem wrapping_true (n : Numerics) : n.wrapping true = { n with overflow := .wrap } := rfl

/-- An integer of 128 bits is the one that its bits stand for. -/
theorem bmod_of_holds {v : Int} (h : Wide.holds v = true) : Int.bmod v (pow2 128) = v := by
  have hp : (pow2 128 : Int) = pow2 127 * 2 := rfl
  obtain ⟨hmin, hmax⟩ := Bool.and_eq_true_iff.mp h
  have hmin : -(pow2 127 : Int) ≤ v := of_decide_eq_true hmin
  have hmax : v ≤ (pow2 127 : Int) - 1 := of_decide_eq_true hmax
  exact Int.bmod_eq_of_le_mul_two (by omega) (by omega)

variable (n : Numerics) (k : ArithKind) (x : Number) (v a b : Int) (op : BinaryOp)

theorem fitInt_wrapping : UpToOverflow (n.fitInt k v) ((n.wrapping true).fitInt k v) := by
  simp only [fitInt, wrapping_true]
  split
  · exact .refl _
  · refine .ite (.refl _) ?_
    cases n.overflow with
    | fault => exact .overflow rfl
    | wrap => exact .refl _

theorem fit_wrapping : UpToOverflow (n.fit k x) ((n.wrapping true).fit k x) := by
  have hl : (n.wrapping true).limits = n.limits := rfl
  have hw : ((n.wrapping true).overflow == OverflowPolicy.fault) = false := rfl
  simp only [fit, hl, hw, Bool.and_false, Bool.false_eq_true, if_false]
  refine .ite (.refl _) ?_
  split
  · exact .bind (fitInt_wrapping n k _) fun _ => .refl _
  · split
    · exact .bind (fitInt_wrapping n k _) fun _ => .refl _
    · exact .refl _
  · split
    · exact .overflow rfl
    · exact .refl _

theorem value_wrapping : UpToOverflow (n.value k x) ((n.wrapping true).value k x) :=
  .bind (fit_wrapping n k x) fun _ => .refl _

theorem shift_wrapping : UpToOverflow (n.shift op k a b) ((n.wrapping true).shift op k a b) := by
  simp only [shift, wrapping_true]
  refine .ite (.refl _) (.ite (value_wrapping n _ _) (.ite (value_wrapping n _ _) ?_))
  cases n.overflow with
  | fault => exact .overflow rfl
  | wrap => exact value_wrapping n _ _

/-- Of the operators on integers, only products leave their range in different ways. -/
theorem integerResult?_wrapping :
    Option.Rel UpToOverflow (n.integerResult? k op a b)
      ((n.wrapping true).integerResult? k op a b) := by
  cases op with
  | mul =>
    refine .some ?_
    cases n.overflow with
    | wrap => exact .refl _
    | fault =>
      dsimp only [wrapping_true]
      split
      · rename_i h
        rw [bmod_of_holds h]
        exact .refl _
      · exact .overflow rfl
  | add | sub | div | rem | bitAnd | bitOr | bitXor => exact .some (.refl _)
  | eq | ne | lt | le | gt | ge | shl | shr => exact .none

theorem binary_wrapping (cause : OperatorFault) (j : ArithKind) (y : Number) :
    UpToOverflow (n.binary op cause j x k y) ((n.wrapping true).binary op cause j x k y) := by
  have hl : (n.wrapping true).limits = n.limits := rfl
  simp only [binary, hl]
  refine .ite (.refl _) (.ite ?_ ?_)
  · split
    · exact value_wrapping n _ _
    · exact .refl _
  · split
    · rename_i a b
      refine .ite (shift_wrapping n j a b op) ?_
      generalize n.limits.promote (n.limits.widened j) (n.limits.widened k) = kind
      have hr := integerResult?_wrapping n kind a b op
      generalize n.integerResult? kind op a b = p at hr ⊢
      generalize (n.wrapping true).integerResult? kind op a b = q at hr ⊢
      cases hr with
      | none => exact .refl _
      | some h => exact .bind h fun _ => value_wrapping n _ _
    · exact .refl _

theorem negate_wrapping : UpToOverflow (n.negate k x) ((n.wrapping true).negate k x) := by
  cases x <;> exact value_wrapping n _ _

theorem complement_wrapping :
    UpToOverflow (n.complement k v) ((n.wrapping true).complement k v) := value_wrapping n _ _

theorem step_wrapping (increment : Bool) (trailing : Bool) (text : String) :
    UpToOverflow (n.step k x increment fun _ => .stepOverflow trailing increment text)
      ((n.wrapping true).step k x increment fun _ => .stepOverflow trailing increment text) := by
  have hl : (n.wrapping true).limits = n.limits := rfl
  have hw : ((n.wrapping true).overflow == OverflowPolicy.fault) = false := rfl
  cases x with
  | float f => exact fit_wrapping n k _
  | int v =>
    simp only [step, hl, hw, Bool.and_false, Bool.false_eq_true, if_false]
    generalize (if increment = true then v + 1 else v - 1) = next
    split
    · exact .overflow rfl
    · exact .bind (fitInt_wrapping n k _) fun _ => .refl _

end Numerics

end Stepwise
