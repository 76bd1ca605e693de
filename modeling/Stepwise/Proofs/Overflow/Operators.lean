import Stepwise.Proofs.Closure.Operators

/-! # Operators under both overflow policies

An operator asks for the policy only when it does arithmetic. Unless it faults with an
overflow, it comes to the same result, or to the same fault, and to the same heap if
numbers wrap around.
-/

namespace Stepwise

def Fault.isOverflow (f : Fault) : Bool :=
  match f.cause with
  | .operator cause => cause.isOverflow
  | _ => false

namespace OperatorM

variable {α β : Type} {x : OperatorM α} {f : α → OperatorM β}

/-- The operator does the same under wrapping numbers, unless it faults with an overflow. -/
def Conservative (x : OperatorM α) : Prop :=
  ∀ ctx heap, x ctx.wrapping heap = x ctx heap ∨
    ∃ e heap', x ctx heap = .error e heap' ∧ e.isOverflow = true

namespace Conservative

theorem pure (a : α) : Conservative (pure a) := fun _ _ => .inl rfl

theorem bind (hx : Conservative x) (hf : ∀ a, Conservative (f a)) : Conservative (x >>= f) := by
  intro ctx heap
  simp only [Bind.bind, ReaderT.bind, EStateM.bind]
  rcases hx ctx heap with h | ⟨e, heap', h, he⟩
  · rw [h]
    cases x ctx heap with
    | ok a heap' => exact hf a ctx heap'
    | error e heap' => exact .inl rfl
  · refine .inr ⟨e, heap', ?_, he⟩
    rw [h]

theorem throw (fault : Fault) : Conservative (throw fault : OperatorM α) := fun _ _ => .inl rfl

theorem heap (x : HeapM α) : Conservative (x : OperatorM α) := fun _ _ => .inl rfl

/-- What is read from the context and does not depend on the policy. -/
theorem read_bind {g : OperatorContext → OperatorM α} (hg : ∀ ctx, Conservative (g ctx))
    (hw : ∀ ctx, g ctx.wrapping = g ctx) : Conservative (read >>= g) := by
  intro ctx heap
  have hl : g ctx.wrapping ctx.wrapping heap = g ctx ctx.wrapping heap := by rw [hw]
  exact (hg ctx ctx heap).imp hl.trans id

/-- Arithmetic, whose results depend on the policy only in case of an overflow. -/
theorem numerics {g : Numerics → Except OperatorFault α}
    (hg : ∀ n, UpToOverflow (g n) (g (n.wrapping true))) :
    Conservative (do ofExcept (g (← read).numerics)) := by
  intro ctx heap
  change ofExcept (g (ctx.numerics.wrapping true)) ctx.wrapping heap =
    ofExcept (g ctx.numerics) ctx heap ∨ ∃ e heap', ofExcept (g ctx.numerics) ctx heap = _ ∧ _
  rcases hg ctx.numerics with h | ⟨e, h, he⟩
  · rw [h]
    cases g ctx.numerics <;> exact .inl rfl
  · rw [h]
    exact .inr ⟨_, _, rfl, he⟩

end Conservative

/-- All operators are made of computations that do the same under wrapping numbers. -/
theorem closed_conservative : Closed fun _ x => x.Conservative where
  pure a := .pure a
  bind hx hf := .bind hx hf
  throw fault _ := .throw fault
  get _ _ := .inl rfl
  read_bind hg hw := .read_bind hg hw
  numerics hg := .numerics hg
  store _ _ := .heap _
  init _ _ := .heap _
  deepCopy _ := .heap _

end OperatorM

end Stepwise
