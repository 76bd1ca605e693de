import Stepwise.Operator.Apply
import Stepwise.Proofs.Closure.Invariants
import Stepwise.Proofs.Operator.Results

/-! # Values that respect constant cells

A value that was read from a cell is constant if the cell is, and flags of cells do not change.
So whoever has a left value of a constant cell has a constant left value. The results of operators
are such values again.
-/

namespace Stepwise

variable {b : BlockId} {i : Nat} {h h' h'' : Heap}

/-- The cell keeps its flag, and it keeps its value if it is constant, unless it is excepted. -/
def Heap.Spares (b : BlockId) (i : Nat) (excepted : Prop) (h h' : Heap) : Prop :=
  ∀ cell, (h.cells b)[i]? = some cell → ∃ cell', (h'.cells b)[i]? = some cell' ∧
    cell'.readonly = cell.readonly ∧ (cell.readonly = true → ¬excepted → cell' = cell)

namespace Heap.Spares

variable {P Q : Prop}

theorem refl (h : Heap) : h.Spares b i P h := fun cell hc => ⟨cell, hc, rfl, fun _ _ => rfl⟩

theorem trans (hs : h.Spares b i P h') (hs' : h'.Spares b i P h'') : h.Spares b i P h'' := by
  intro cell hc
  obtain ⟨cell', hc', hr, hv⟩ := hs cell hc
  obtain ⟨cell'', hc'', hr', hv'⟩ := hs' cell' hc'
  exact ⟨cell'', hc'', hr'.trans hr, fun ht hp => (hv' (hr.trans ht) hp).trans (hv ht hp)⟩

theorem mono (hs : h.Spares b i P h') (hpq : P → Q) : h.Spares b i Q h' := by
  intro cell hc
  obtain ⟨cell', hc', hr, hv⟩ := hs cell hc
  exact ⟨cell', hc', hr, fun ht hq => hv ht fun hp => hq (hpq hp)⟩

theorem of_eq (hc : (h'.cells b)[i]? = (h.cells b)[i]?) : h.Spares b i P h' :=
  fun cell hcell => ⟨cell, hc.trans hcell, rfl, fun _ _ => rfl⟩

theorem alloc (h : Heap) (cells : Array Value) : h.Spares b i P (h.alloc cells).2 := by
  intro cell hc
  have hb := lt_size_of_mem_cells (Array.mem_of_getElem? hc)
  rw [cells_alloc, if_neg (Nat.ne_of_lt hb)]
  exact ⟨cell, hc, rfl, fun _ _ => rfl⟩

theorem grown : Heap.Grown (Spares b i P) := ⟨refl, trans, alloc⟩

/-- A change of a cell that keeps its flag. -/
theorem of_modify? {p : Place} {f : Value → Value} (hm : h.modify? p f = some h')
    (hf : p.block = b → p.index = i → ∀ cell, (h.cells b)[i]? = some cell →
      (f cell).readonly = cell.readonly) : h.Spares b i True h' := by
  intro cell hc
  rw [getElem?_cells_of_modify? hm, hc]
  split
  · rename_i hp
    exact ⟨f cell, rfl, hf hp.1 hp.2 cell hc, fun _ ht => absurd trivial ht⟩
  · exact ⟨cell, rfl, rfl, fun _ _ => rfl⟩

/-- Storing a payload keeps the flags of the cell. -/
theorem stored : Heap.Stored (Spares b i True) where
  toGrown := grown
  store hs := of_modify? hs fun _ _ _ _ => rfl

end Heap.Spares

/-- If the value was read from the cell, the cell is there, and the value is constant if it is. -/
def Value.Respects (v : Value) (h : Heap) (b : BlockId) (i : Nat) : Prop :=
  ∀ role, v.place = some ⟨role, b, i⟩ →
    ∃ cell, (h.cells b)[i]? = some cell ∧ (cell.readonly = true → v.readonly = true)

namespace Value.Respects

variable {v : Value}

theorem of_detached (hv : v.Detached) : v.Respects h b i := fun _ hp => nomatch hv.symm.trans hp

theorem of_load? {p : Place} (hv : h.load? p = some v) : v.Respects h b i := by
  obtain ⟨cell, hc, rfl⟩ := Option.map_eq_some_iff.mp hv
  rintro role ⟨⟩
  exact ⟨cell, hc, id⟩

theorem spared {P : Prop} (hv : v.Respects h b i) (hs : h.Spares b i P h') :
    v.Respects h' b i := by
  intro role hp
  obtain ⟨cell, hc, hr⟩ := hv role hp
  obtain ⟨cell', hc', hr', -⟩ := hs cell hc
  exact ⟨cell', hc', fun ht => hr (hr'.symm.trans ht)⟩

end Value.Respects

section Numbers

variable {n : Numerics} {k j : ArithKind} {x y : Number} {v : Value}

theorem Numerics.detached_value (hv : n.value k x = .ok v) : v.Detached := by
  unfold value at hv
  cases hf : n.fit k x with
  | error cause => rw [hf] at hv; cases hv
  | ok d => rw [hf] at hv; cases hv; rfl

theorem Numerics.detached_shift {op : BinaryOp} {a c : Int} (hv : n.shift op k a c = .ok v) :
    v.Detached := by
  unfold shift at hv
  dsimp only at hv
  split at hv
  · cases hv
  · split at hv
    · exact detached_value hv
    · split at hv
      · exact detached_value hv
      · split at hv
        · exact detached_value hv
        · cases hv

/-- The result of arithmetic is detached from all cells. -/
theorem Numerics.detached_binary {op : BinaryOp} {cause : OperatorFault}
    (hv : n.binary op cause j x k y = .ok v) : v.Detached := by
  unfold binary at hv
  dsimp only at hv
  split at hv
  · cases hv
    rfl
  · split at hv
    · split at hv
      · exact detached_value hv
      · cases hv
    · split at hv
      · split at hv
        · exact detached_shift hv
        · split at hv
          · rename_i result _
            cases result with
            | error cause => cases hv
            | ok r => exact detached_value hv
          · cases hv
      · cases hv

end Numbers

namespace OperatorM

variable {α : Type}

/-- Results are among the operands, or they respect the cell. -/
def Respects (b : BlockId) (i : Nat) (operands : Value → Prop) (x : OperatorM Value) : Prop :=
  ∀ ctx h v h', x ctx h = .ok v h' → operands v ∨ v.Respects h' b i

namespace Respects

variable {operands : Value → Prop} {x y : OperatorM Value}

theorem bind {x : OperatorM α} {f : α → OperatorM Value} (hf : ∀ a, (f a).Respects b i operands) :
    (x >>= f).Respects b i operands := by
  intro ctx h v h' hv
  simp only [Bind.bind, ReaderT.bind, EStateM.bind] at hv
  split at hv
  · exact hf _ ctx _ v h' hv
  · cases hv

theorem operand {v : Value} (hv : operands v) :
    (Pure.pure v : OperatorM Value).Respects b i operands := by
  rintro ctx h v' h' ⟨⟩
  exact .inl hv

theorem pure {v : Value} (hv : v.Detached) : (pure v : OperatorM Value).Respects b i operands := by
  rintro ctx h v' h' ⟨⟩
  exact .inr (.of_detached hv)

theorem fail (cause : OperatorFault) : (fail cause : OperatorM Value).Respects b i operands :=
  fun _ _ _ _ hv => nomatch hv

theorem unsupported (op : Operator) (l : Value) (r : Option Value) :
    (unsupported op l r : OperatorM Value).Respects b i operands := fail _

theorem ite {p : Prop} [Decidable p] (hx : x.Respects b i operands) (hy : y.Respects b i operands) :
    (if p then x else y).Respects b i operands := by
  split
  · exact hx
  · exact hy

theorem check {p : Prop} [Decidable p] {x : OperatorM PUnit} {f : PUnit → OperatorM Value}
    (hf : (f ⟨⟩).Respects b i operands) : (if p then x >>= f else f ⟨⟩).Respects b i operands :=
  ite (bind fun _ => hf) hf

theorem ofExcept {x : Except OperatorFault Value} (hx : ∀ v, x = .ok v → v.Detached) :
    (ofExcept x).Respects b i operands := by
  cases x with
  | ok v => exact pure (hx v rfl)
  | error cause => exact fail cause

/-- What was read from a cell. -/
theorem found (p : Place) {failure : OperatorM Value} (hf : failure.Respects b i operands) :
    (do
      match ← OperatorM.load? p with
      | some v => return v
      | none => failure).Respects b i operands := by
  intro ctx h v h' hv
  change (match h.load? p with
    | some v => return v
    | none => failure : OperatorM Value) ctx h = .ok v h' at hv
  cases hl : h.load? p with
  | some w =>
    rw [hl] at hv
    cases hv
    exact .inr (.of_load? hl)
  | none =>
    rw [hl] at hv
    exact hf ctx h v h' hv

section Pointer

variable (l n : Value) (r : Option Value) (op : BinaryOp)

theorem number (k : ArithKind) (x : Number) : (number k x).Respects b i operands :=
  fun ctx _ v h' hv => .inr (.of_detached (Gives.number k x ctx v h' hv).2.detached)

theorem addressOf : (addressOf l r).Respects b i operands := by
  unfold OperatorM.addressOf
  refine check (bind fun p => ?_)
  dsimp only
  split
  · exact bind fun _ => pure rfl
  · exact pure rfl

theorem element (store : BlockId) (position : Int) : (element store position).Respects b i operands := by
  cases position with
  | ofNat index => exact found _ (bind fun _ => fail _)
  | negSucc index => exact fun _ _ _ _ hv => nomatch hv

theorem deref : (deref l r).Respects b i operands := by
  unfold OperatorM.deref
  refine check ?_
  dsimp only
  split
  · exact found _ (fail _)
  · exact element _ _
  · split
    · exact pure rfl
    · exact unsupported _ l none
  · exact fail _
  · exact fail _
  · exact fail _
  · exact unsupported _ l none

theorem offset (sign : Int) : (offset l n sign).Respects b i operands := by
  unfold OperatorM.offset
  extract_lets rest
  have hrest (delta : Int) : (rest delta).Respects b i operands := by
    dsimp only [rest]
    split
    · exact bind fun _ => pure rfl
    · exact bind fun _ => bind fun _ => pure rfl
    · exact ite (pure rfl) (fail _)
    · exact fail _
  split
  · exact ite (bind hrest) (bind hrest)
  · exact bind hrest

theorem pointerBinary : (pointerBinary op l r).Respects b i operands := by
  refine bind fun n => ?_
  cases op with
  | add => exact offset l n 1
  | sub => exact ite (offset l n (-1)) (bind fun _ => number _ _)
  | eq | ne | lt | le | gt | ge => exact bind fun _ => pure rfl
  | _ => exact unsupported _ l _

end Pointer

section Number

variable (l : Value) (r : Option Value) (op : BinaryOp)

theorem arithBinary : (arithBinary op l r).Respects b i operands := by
  cases r with
  | none => exact fail _
  | some v =>
    refine ite (offset v l 1) (ite (pointerBinary v (some l) op) ?_)
    split
    · exact bind fun _ => ofExcept fun _ => Numerics.detached_binary
    · exact fail _

theorem negate : (negate l r).Respects b i operands := by
  unfold OperatorM.negate
  split
  · refine bind fun _ => ofExcept fun v hv => ?_
    unfold Numerics.negate at hv
    split at hv
    · exact Numerics.detached_value hv
    · exact Numerics.detached_value hv
  · exact unsupported _ l none

theorem not : (OperatorM.not l r).Respects b i operands := by
  unfold OperatorM.not
  split
  · exact pure rfl
  · exact unsupported _ l none

theorem complement : (complement l r).Respects b i operands := by
  unfold OperatorM.complement
  split
  · exact bind fun _ => ofExcept fun _ hv => Numerics.detached_value hv
  · exact unsupported _ l none

theorem addressOfFunction : (addressOfFunction l r).Respects b i operands := by
  unfold OperatorM.addressOfFunction
  refine check ?_
  dsimp only
  split
  · refine bind fun ctx => ?_
    split
    · exact fun _ _ _ _ hv => nomatch hv
    · exact pure rfl
    · exact bind fun _ _ _ _ _ hv => nomatch hv
  · exact unsupported _ l none

end Number

section Writes

variable (l v : Value) (r : Option Value) (increment : Bool)

theorem write : (write l v).Respects b i operands := by
  refine bind fun p => bind fun stored => ?_
  exact ite (found p (fail _)) (fail _)

theorem assignNumber : (assignNumber l r).Respects b i operands :=
  bind fun _ => bind fun _ => bind fun v => write l v

theorem assignPointer : (assignPointer l r).Respects b i operands :=
  bind fun _ => bind fun _ => check (bind fun v => write l v)

/-- The cell that was written to, or the value before. -/
theorem written (trailing : Bool) : (do
    let stored ← OperatorM.write l v
    return if trailing then l.rvalue else stored).Respects b i operands := by
  intro ctx h w h' hw
  simp only [Bind.bind, ReaderT.bind, EStateM.bind] at hw
  split at hw
  · cases hw
    split
    · exact .inr (.of_detached rfl)
    · exact write l v ctx h _ _ ‹_›
  · cases hw

theorem stepNumber : (stepNumber l r increment).Respects b i operands := by
  unfold OperatorM.stepNumber
  split
  · exact bind fun _ => bind fun _ => bind fun _ => bind fun _ => written l _ _
  · exact fail _

theorem stepPointer : (stepPointer l r increment).Respects b i operands := by
  refine bind fun _ => ?_
  split
  · exact check (bind fun _ => written l _ _)
  · exact fail _

theorem assignStruct (hl : operands l) : (assignStruct l r).Respects b i operands := by
  refine bind fun n => bind fun _ => ?_
  split
  · refine ite (unsupported _ l _) (ite (operand hl) ?_)
    exact bind fun _ => operand hl
  · exact unsupported _ l _

end Writes

end Respects

end OperatorM

namespace Operator

open OperatorM

variable {op : Operator} {l : Value} {f : Value → Option Value → OperatorM Value} (r : Option Value)
  {operands : Value → Prop}

theorem respects_comma (hr : ∀ w, r = some w → operands w) :
    (OperatorM.comma l r).Respects b i operands := by
  cases r with
  | none => exact .pure rfl
  | some w => exact .operand (hr w rfl)

section Right

variable (hr : ∀ w, op = .comma → r = some w → operands w)

include hr

theorem respects_ofNumber? (h : op.ofNumber? = some f) : (f l r).Respects b i operands := by
  cases op with
  | binary op => cases h; exact .arithBinary l r op
  | assign => cases h; exact .assignNumber l r
  | comma => cases h; exact respects_comma r fun w => hr w rfl
  | neg => cases h; exact .negate l r
  | plus => cases h; exact .pure rfl
  | addrOf => cases h; exact .addressOf l r
  | not => cases h; exact .not l r
  | bitNot => cases h; exact .complement l r
  | inc | dec => cases h; exact .stepNumber l r _
  | compound _ | deref | index => cases h

theorem respects_ofPointer? (h : op.ofPointer? = some f) : (f l r).Respects b i operands := by
  cases op with
  | binary op =>
    obtain ⟨-, hf⟩ := Option.ite_none_right_eq_some.mp h
    cases hf
    exact .pointerBinary l r op
  | assign => cases h; exact .assignPointer l r
  | comma => cases h; exact respects_comma r fun w => hr w rfl
  | deref => cases h; exact .deref l r
  | addrOf => cases h; exact .addressOf l r
  | not => cases h; exact .pure rfl
  | inc | dec => cases h; exact .stepPointer l r _
  | index => cases h; exact .bind fun _ => .bind fun _ => .deref _ none
  | compound _ | neg | plus | bitNot => cases h

variable (hl : operands l)

include hl

theorem respects_ofType? {ty : Ty} (h : ofType? ty op = some f) :
    (f l r).Respects b i operands := by
  unfold ofType? at h
  split at h
  · exact respects_ofNumber? r hr h
  · exact respects_ofPointer? r hr h
  · exact respects_ofPointer? r hr h
  · exact respects_ofPointer? r hr h
  · cases h; exact .assignStruct l r hl
  · cases h; exact .addressOf l r
  · cases h; exact .addressOfFunction l r
  · cases h; exact respects_comma r fun w => hr w rfl
  · cases h; exact respects_comma r fun w => hr w rfl
  · cases h; exact respects_comma r fun w => hr w rfl
  · cases h

theorem respects_applyOwn : (applyOwn op l r).Respects b i operands := by
  unfold applyOwn
  split
  · exact respects_ofType? r hr hl ‹_›
  · exact .unsupported op l r

/-- The result of an operator is an operand, or it respects the cell. -/
theorem respects_apply : (op.apply l r).Respects b i operands := by
  unfold apply
  split
  · exact respects_ofType? r hr hl ‹_›
  · exact .bind fun v => respects_applyOwn (some v) (fun _ hop _ => nomatch hop) hl
  · exact .unsupported _ l r

end Right

end Operator

end Stepwise
