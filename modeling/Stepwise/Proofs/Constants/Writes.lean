import Stepwise.Machine.Expression
import Stepwise.Proofs.Closure.Operators

/-! # Writes to constant operands

An operator that writes asks first whether its left operand may be written. If that is
constant, or a function, the operator faults before it changes anything.
-/

namespace Stepwise

namespace OperatorM

variable {α β : Type}

/-- The computation leaves the heap as it is. -/
def Leaves (x : OperatorM α) : Prop := ∀ ctx h,
  match x ctx h with
  | .ok _ h' => h' = h
  | .error _ h' => h' = h

theorem reading_leaves : Reading fun _ x => x.Leaves where
  pure _ := fun _ _ => rfl
  bind {_ _ x f} hx hf := by
    intro ctx h
    have hx := hx ctx h
    simp only [Bind.bind, ReaderT.bind, EStateM.bind]
    cases ha : x ctx h with
    | error fault h' => rwa [ha] at hx
    | ok a h' =>
      rw [ha] at hx
      cases hx
      exact hf a ctx h
  throw _ _ := fun _ _ => rfl
  get := fun _ _ => rfl
  read_bind hg _ := fun ctx h => hg ctx ctx h
  numerics {_ g} _ := by
    intro ctx h
    have hrun : (do ofExcept (g (← read).numerics) : OperatorM _) ctx h =
        ofExcept (g ctx.numerics) ctx h := rfl
    rw [hrun]
    cases g ctx.numerics <;> rfl

/-- The computation faults and leaves the heap as it is. -/
def Refuses (x : OperatorM α) : Prop := ∀ ctx h, ∃ fault, x ctx h = .error fault h

namespace Refuses

variable {x : OperatorM α} {f : α → OperatorM β}

theorem fail (cause : OperatorFault) : (fail cause : OperatorM α).Refuses := fun _ _ => ⟨_, rfl⟩

theorem unsupported (op : Operator) (l : Value) (r : Option Value) :
    (unsupported op l r : OperatorM α).Refuses := .fail _

theorem bind (hx : x.Refuses) : (x >>= f).Refuses := by
  intro ctx h
  obtain ⟨fault, hfault⟩ := hx ctx h
  exact ⟨fault, by simp only [Bind.bind, ReaderT.bind, EStateM.bind, hfault]⟩

/-- What is done before may fault, too. -/
theorem after (hx : x.Leaves) (hf : ∀ a, (f a).Refuses) : (x >>= f).Refuses := by
  intro ctx h
  have hx := hx ctx h
  simp only [Bind.bind, ReaderT.bind, EStateM.bind]
  cases ha : x ctx h with
  | error fault h' =>
    rw [ha] at hx
    exact ⟨fault, by rw [hx]⟩
  | ok a h' =>
    rw [ha] at hx
    cases hx
    exact hf a ctx h

end Refuses

section Readonly

variable {l : Value} (hl : l.readonly = true) (r : Option Value)

include hl

theorem refuses_checkWritable : (checkWritable l).Refuses := by
  have hT := reading_leaves
  refine .after (hT.bind (hT.place l) fun _ => hT.pure _) fun _ => ?_
  rw [if_pos hl]
  exact .after (hT.text l) fun _ => .fail _

theorem refuses_assignNumber : (assignNumber l r).Refuses :=
  .after (reading_leaves.operand l r _) fun _ => .bind (refuses_checkWritable hl)

theorem refuses_assignPointer : (assignPointer l r).Refuses :=
  .after (reading_leaves.operand l r _) fun _ => .bind (refuses_checkWritable hl)

theorem refuses_assignStruct : (assignStruct l r).Refuses :=
  .after (reading_leaves.operand l r _) fun _ => .bind (refuses_checkWritable hl)

theorem refuses_stepPointer (increment : Bool) : (stepPointer l r increment).Refuses :=
  .bind (refuses_checkWritable hl)

theorem refuses_stepNumber (increment : Bool) : (stepNumber l r increment).Refuses := by
  unfold stepNumber
  split
  · exact .bind (refuses_checkWritable hl)
  · exact .fail _

end Readonly

end OperatorM

namespace Operator

open OperatorM

/-- A binary operator leaves the heap as it is. -/
theorem leaves_applyOwn (op : BinaryOp) (l : Value) (r : Option Value) :
    (applyOwn (.binary op) l r).Leaves := by
  have hT := reading_leaves
  unfold applyOwn
  split
  · rename_i f h
    have hpointer (h : ofPointer? (.binary op) = some f) : (f l r).Leaves := by
      obtain ⟨-, hf⟩ := Option.ite_none_right_eq_some.mp h
      cases hf
      exact hT.pointerBinary l r op
    cases hty : l.ty <;> rw [hty] at h
    case arith => cases h; exact hT.arithBinary l r op
    case pointer | array | functionPointer => exact hpointer h
    all_goals cases h
  · exact hT.unsupported _ l r

variable {op : Operator} {l : Value} (hl : l.readonly = true) (r : Option Value)

include hl

theorem refuses_ofNumber? {f : Value → Option Value → OperatorM Value} (hop : op.writes = true)
    (h : op.ofNumber? = some f) : (f l r).Refuses := by
  cases op with
  | assign => cases h; exact refuses_assignNumber hl r
  | inc | dec => cases h; exact refuses_stepNumber hl r _
  | compound => cases h
  | _ => cases hop

theorem refuses_ofPointer? {f : Value → Option Value → OperatorM Value} (hop : op.writes = true)
    (h : op.ofPointer? = some f) : (f l r).Refuses := by
  cases op with
  | assign => cases h; exact refuses_assignPointer hl r
  | inc | dec => cases h; exact refuses_stepPointer hl r _
  | compound => cases h
  | _ => cases hop

theorem refuses_ofType? {f : Value → Option Value → OperatorM Value} {ty : Ty}
    (hop : op.writes = true) (h : ofType? ty op = some f) : (f l r).Refuses := by
  unfold ofType? at h
  split at h
  · exact refuses_ofNumber? hl r hop h
  · exact refuses_ofPointer? hl r hop h
  · exact refuses_ofPointer? hl r hop h
  · exact refuses_ofPointer? hl r hop h
  · cases h; exact refuses_assignStruct hl r
  · cases hop
  · cases hop
  · cases hop
  · cases hop
  · cases hop
  · cases h

/-- An operator that writes refuses a constant operand, whatever the right one is. -/
theorem refuses_apply (hop : op.writes = true) : (op.apply l r).Refuses := by
  unfold apply
  split
  · exact refuses_ofType? hl r hop ‹_›
  · -- The plain operator changes nothing, and the assignment of its result is refused.
    refine .after (leaves_applyOwn _ l r) fun v => ?_
    unfold applyOwn
    split
    · exact refuses_ofType? hl _ rfl ‹_›
    · exact .unsupported _ l _
  · exact .unsupported _ l r

end Operator

/-- A value that no operator writes to: it is constant, or a function. -/
def Value.Unwritable (v : Value) : Prop := v.readonly = true ∨ ∃ sig, v.ty = .function sig

section Unwritable

open OperatorM

variable {op : Operator} {l : Value} (hl : l.Unwritable) (hop : op.writes = true)
  (r : Option Value)

include hl hop

/-- An operator that writes refuses a value that cannot be written. -/
theorem Operator.refuses_unwritable : (op.apply l r).Refuses := by
  rcases hl with hl | ⟨sig, hty⟩
  · exact op.refuses_apply hl r hop
  · have hnone : ofType? l.ty op = none := by
      rw [hty]
      cases op <;> first | rfl | cases hop
    unfold apply
    rw [hnone]
    cases op with
    | compound binaryOp =>
      have hown : (applyOwn (binary binaryOp) l r).Refuses := by
        unfold applyOwn
        rw [hty]
        exact .unsupported _ l r
      exact .bind hown
    | assign | inc | dec => exact .unsupported _ l r
    | _ => cases hop

/-- The fault leaves the state as it is. -/
theorem RunM.operate_unwritable (c : Config) (s : State) :
    ∃ fault, operate (op.apply l r) c s = .error fault s := by
  obtain ⟨fault, h⟩ := Operator.refuses_unwritable hl hop r ⟨c.numerics, s.tables, s.cursor⟩ s.heap
  refine ⟨fault, ?_⟩
  unfold operate
  dsimp only [ReaderT.run, EStateM.run]
  rw [h]

end Unwritable

end Stepwise
