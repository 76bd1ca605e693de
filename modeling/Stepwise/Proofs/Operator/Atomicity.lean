import Stepwise.Proofs.Closure.Invariants
import Stepwise.Proofs.Constants.Writes
import Stepwise.Proofs.Operator.Layout

/-! # Operators are atomic

An operator that faults has changed nothing, since it writes after everything that can fail.
One that succeeds has changed no cell besides the one that its left operand was read from or,
where a struct is assigned to, the members of that struct.
-/

namespace Stepwise

/-- The cells that an operator may change: the cell of a number or a pointer that is written to,
and the members of a struct that is assigned to. -/
def Operator.Touches (op : Operator) (l : Value) (b : BlockId) (i : Nat) : Prop :=
  op.writes = true ∧
    match l.ty with
    | .arith _ | .pointer .. | .functionPointer _ => ∃ role, l.place = some ⟨role, b, i⟩
    | .struct .. => op = .assign ∧ l.data = .struct b
    | _ => False

namespace Heap

/-- The second heap has the cells of the first one, as they are there unless they are touched. -/
structure SameBut (touched : BlockId → Nat → Prop) (h h' : Heap) : Prop where
  blocks : h.blocks.size ≤ h'.blocks.size
  sizes : ∀ b < h.blocks.size, (h'.cells b).size = (h.cells b).size
  cells : ∀ b < h.blocks.size, ∀ i, ¬touched b i → (h'.cells b)[i]? = (h.cells b)[i]?

namespace SameBut

variable {touched : BlockId → Nat → Prop} {h h' h'' : Heap}

theorem refl (h : Heap) : h.SameBut touched h := ⟨Nat.le_refl _, fun _ _ => rfl, fun _ _ _ _ => rfl⟩

theorem trans (hs : h.SameBut touched h') (hs' : h'.SameBut touched h'') :
    h.SameBut touched h'' where
  blocks := Nat.le_trans hs.blocks hs'.blocks
  sizes b hb := (hs'.sizes b (Nat.lt_of_lt_of_le hb hs.blocks)).trans (hs.sizes b hb)
  cells b hb i ht :=
    (hs'.cells b (Nat.lt_of_lt_of_le hb hs.blocks) i ht).trans (hs.cells b hb i ht)

theorem mono {touched' : BlockId → Nat → Prop} (hs : h.SameBut touched h')
    (ht : ∀ b i, touched b i → touched' b i) : h.SameBut touched' h' :=
  ⟨hs.blocks, hs.sizes, fun b hb i hi => hs.cells b hb i fun hbi => hi (ht b i hbi)⟩

theorem alloc (h : Heap) (cells : Array Value) : h.SameBut touched (h.alloc cells).2 where
  blocks := (keeps_alloc h cells).size
  sizes b hb := by rw [cells_alloc, if_neg (Nat.ne_of_lt hb)]
  cells b hb i _ := by rw [cells_alloc, if_neg (Nat.ne_of_lt hb)]

theorem grown : Heap.Grown (SameBut touched) := ⟨refl, trans, alloc⟩

theorem of_modify? {p : Place} {f : Value → Value} (hm : h.modify? p f = some h')
    (hp : touched p.block p.index) : h.SameBut touched h' where
  blocks := Nat.le_of_eq (size_of_modify? hm).symm
  sizes b _ := size_cells_of_modify? hm b
  cells b _ i ht := by
    rw [getElem?_cells_of_modify? hm, if_neg]
    rintro ⟨rfl, rfl⟩
    exact ht hp

end SameBut

/-- A place that was stored to can be read. -/
theorem load?_of_store? {h h' : Heap} {p : Place} {v : Value} (hs : h.store? p v = some h') :
    ∃ stored, h'.load? p = some stored := by
  have hlt := (Option.ite_none_right_eq_some.mp hs).1
  have hlt' : p.index < (h'.cells p.block).size := by
    rw [size_cells_of_modify? hs]
    exact hlt
  rw [load?, Array.getElem?_eq_getElem hlt']
  exact ⟨_, rfl⟩

end Heap

namespace OperatorM

variable {α β : Type} {touched : BlockId → Nat → Prop}

theorem write_apply {l : Value} {p : Place} (hl : l.place = some p) (v : Value)
    (ctx : OperatorContext) (h : Heap) :
    write l v ctx h = match h.store? p v with
      | some h' =>
        match h'.load? p with
        | some stored => .ok stored h'
        | none => .error ⟨.operator .indexOutOfBounds, ctx.node⟩ h'
      | none => .error ⟨.operator .indexOutOfBounds, ctx.node⟩ h := by
  unfold write place
  rw [hl]
  dsimp only
  rw [pure_bind]
  have hattempt : (HeapM.attempt fun h => h.store? p v : OperatorM Bool) ctx h =
      match h.store? p v with
      | some h' => .ok true h'
      | none => .ok false h := by
    change (match (HeapM.attempt fun h => h.store? p v).run h with
      | (a, h') => EStateM.Result.ok a h') = _
    simp only [HeapM.attempt, StateT.run_modifyGet]
    cases h.store? p v <;> rfl
  simp only [Bind.bind, ReaderT.bind, EStateM.bind, hattempt]
  cases h.store? p v with
  | none => rfl
  | some h' =>
    change (match h'.load? p with
      | some stored => return stored
      | none => fail .indexOutOfBounds : OperatorM Value) ctx h' = match h'.load? p with
        | some stored => .ok stored h'
        | none => .error ⟨.operator .indexOutOfBounds, ctx.node⟩ h'
    cases h'.load? p <;> rfl

/-- A fault leaves the heap as it is, and a result comes with changes to touched cells only. -/
def Atomic (touched : BlockId → Nat → Prop) (x : OperatorM α) : Prop := ∀ ctx h,
  match x ctx h with
  | .ok _ h' => h.SameBut touched h'
  | .error _ h' => h' = h

/-- The computation has a result, with changes to touched cells only. -/
def Succeeds (touched : BlockId → Nat → Prop) (x : OperatorM α) : Prop :=
  ∀ ctx h, ∃ a h', x ctx h = .ok a h' ∧ h.SameBut touched h'

namespace Succeeds

theorem pure (a : α) : (pure a : OperatorM α).Succeeds touched :=
  fun _ h => ⟨a, h, rfl, .refl h⟩

theorem bind {x : OperatorM α} {f : α → OperatorM β} (hx : x.Succeeds touched)
    (hf : ∀ a, (f a).Succeeds touched) : (x >>= f).Succeeds touched := by
  intro ctx h
  obtain ⟨a, h', ha, hs⟩ := hx ctx h
  obtain ⟨b, h'', hb, hs'⟩ := hf a ctx h'
  refine ⟨b, h'', ?_, hs.trans hs'⟩
  simp only [Bind.bind, ReaderT.bind, EStateM.bind, ha, hb]

theorem forIn {γ : Type} {body : γ → β → OperatorM (ForInStep β)}
    (hb : ∀ a b, (body a b).Succeeds touched) (as : Array γ) (init : β) :
    (forIn as init body).Succeeds touched := by
  rw [← Array.forIn_toList]
  induction as.toList generalizing init with
  | nil => exact pure _
  | cons a as ih =>
    rw [List.forIn_cons]
    refine bind (hb a init) fun step => ?_
    cases step with
    | done b => exact pure b
    | yield b => exact ih b

/-- What only changes the heap cannot fail. -/
theorem onHeap {x : HeapM α} (hx : ∀ h : Heap, h.SameBut touched (x.run h).2) :
    (liftM x : OperatorM α).Succeeds touched :=
  fun _ h => ⟨(x.run h).1, (x.run h).2, rfl, hx h⟩

theorem atomic {x : OperatorM α} (hx : x.Succeeds touched) : x.Atomic touched := by
  intro ctx h
  obtain ⟨a, h', ha, hs⟩ := hx ctx h
  rw [ha]
  exact hs

/-- A struct has its members copied, and nothing besides them is written. -/
theorem copyMembers (source : BlockId) {target : BlockId} (ht : ∀ i, touched target i) :
    (copyMembers source target).Succeeds touched := by
  have hcells (b : BlockId) : Succeeds touched (HeapM.cells b : OperatorM _) := onHeap .refl
  have hinit (i : Nat) (v : Value) :
      Succeeds touched (HeapM.attempt fun h => h.init? (.member target i) v : OperatorM _) := by
    refine onHeap fun h => ?_
    simp only [HeapM.attempt, StateT.run_modifyGet]
    cases hh : h.init? (.member target i) v with
    | some h' => exact .of_modify? hh (ht i)
    | none => exact .refl h
  have hcopy (v : Value) : Succeeds touched (HeapM.deepCopy v : OperatorM _) :=
    onHeap fun h => HeapM.grown_deepCopy Heap.SameBut.grown v h
  refine bind (hcells _) fun news => bind (hcells _) fun olds => ?_
  refine bind (forIn (fun pair indices => ?_) _ _) fun _ => pure _
  obtain ⟨new, old⟩ := pair
  dsimp only
  split
  · exact pure _
  · refine bind (hcopy new) fun copied => ?_
    exact bind (bind (hinit _ _) fun _ => pure _) fun _ => pure _

end Succeeds

namespace Atomic

theorem of_leaves {x : OperatorM α} (hx : x.Leaves) : x.Atomic touched := by
  intro ctx h
  have hx := hx ctx h
  cases ha : x ctx h with
  | ok a h' =>
    rw [ha] at hx
    cases hx
    exact .refl h
  | error fault h' => rwa [ha] at hx

/-- Nothing is written before. -/
theorem after {x : OperatorM α} {f : α → OperatorM β} (hx : x.Leaves)
    (hf : ∀ a, (f a).Atomic touched) : (x >>= f).Atomic touched := by
  intro ctx h
  have hx := hx ctx h
  simp only [Bind.bind, ReaderT.bind, EStateM.bind]
  cases ha : x ctx h with
  | error fault h' => rwa [ha] at hx
  | ok a h' =>
    rw [ha] at hx
    cases hx
    exact hf a ctx h

/-- What is answered with afterwards does not matter. -/
theorem answer {x : OperatorM α} (hx : x.Atomic touched) (g : α → β) :
    (x >>= fun a => pure (g a)).Atomic touched := by
  intro ctx h
  have hx := hx ctx h
  simp only [Bind.bind, ReaderT.bind, EStateM.bind]
  cases ha : x ctx h with
  | ok a h' => rwa [ha] at hx
  | error fault h' => rwa [ha] at hx

theorem of_refuses {x : OperatorM α} (hx : x.Refuses) : x.Atomic touched := by
  intro ctx h
  obtain ⟨fault, hfault⟩ := hx ctx h
  rw [hfault]

theorem mono {touched' : BlockId → Nat → Prop} {x : OperatorM α} (hx : x.Atomic touched)
    (ht : ∀ b i, touched b i → touched' b i) : x.Atomic touched' := by
  intro ctx h
  have hx := hx ctx h
  cases ha : x ctx h with
  | ok a h' =>
    rw [ha] at hx
    exact hx.mono ht
  | error fault h' => rwa [ha] at hx

theorem ite {p : Prop} [Decidable p] {x y : OperatorM α} (hx : x.Atomic touched)
    (hy : y.Atomic touched) : (if p then x else y).Atomic touched := by
  split
  · exact hx
  · exact hy

theorem fail (cause : OperatorFault) : (fail cause : OperatorM α).Atomic touched := fun _ _ => rfl

theorem fail_bind (cause : OperatorFault) (f : α → OperatorM β) :
    (OperatorM.fail cause >>= f).Atomic touched := fun _ _ => rfl

section Number

variable {l : Value} (hp : ∀ p, l.place = some p → touched p.block p.index)

include hp

/-- The store is the last thing that can fail. -/
theorem write (v : Value) : (write l v).Atomic touched := by
  intro ctx h
  cases hl : l.place with
  | none =>
    unfold OperatorM.write OperatorM.place
    rw [hl]
    exact rfl
  | some p =>
    rw [write_apply hl]
    cases hs : h.store? p v with
    | none => exact rfl
    | some h' =>
      obtain ⟨stored, hstored⟩ := Heap.load?_of_store? hs
      dsimp only
      rw [hstored]
      exact .of_modify? hs (hp p hl)

theorem assignNumber (r : Option Value) : (assignNumber l r).Atomic touched := by
  have hT := reading_leaves
  refine .after (hT.operand l r _) fun n => .after (hT.checkWritable l) fun _ => ?_
  exact .after (hT.convert n l.ty false) fun v => write hp v

theorem stepNumber (r : Option Value) (increment : Bool) :
    (stepNumber l r increment).Atomic touched := by
  have hT := reading_leaves
  unfold OperatorM.stepNumber
  split
  · refine .after (hT.checkWritable l) fun _ => .after hT.get fun heap => ?_
    rename_i k x _ _ _
    have hdata := hT.numerics (g := fun n => n.step k x increment fun _ =>
      .stepOverflow (r.any Value.isMarker) increment (heap.text l)) fun n => n.step_wrapping ..
    have hstep := after hdata fun data => answer (write hp (.fresh (.arith k) data)) fun stored =>
      if r.any Value.isMarker then l.rvalue else stored
    rwa [bind_assoc] at hstep
  · exact fail _

end Number

section Pointer

/- An array is no cell that can be assigned to. -/
variable {l : Value}
  (hp : l.ty.isArray = false → ∀ p, l.place = some p → touched p.block p.index)

include hp

theorem assignPointer (r : Option Value) : (assignPointer l r).Atomic touched := by
  have hT := reading_leaves
  refine .after (hT.operand l r _) fun n => .after (hT.checkWritable l) fun _ => ?_
  split
  · exact fail_bind _ _
  · have hl : l.ty.isArray = false := Bool.eq_false_iff.mpr ‹_›
    exact .after (hT.convert n l.ty false) fun v => write (hp hl) v

theorem stepPointer (r : Option Value) (increment : Bool) :
    (stepPointer l r increment).Atomic touched := by
  have hT := reading_leaves
  refine .after (hT.checkWritable l) fun _ => ?_
  split
  · dsimp only
    by_cases hl : l.ty.isArray = true
    · rw [if_pos hl]
      exact fail_bind _ _
    · rw [if_neg hl]
      have hwrite := write (hp (Bool.eq_false_iff.mpr hl))
      exact .after (hT.position _) fun moved => answer (hwrite _) _
  · exact fail _

end Pointer

/-- Structs are checked before the first member is copied. -/
theorem assignStruct {l : Value} (r : Option Value)
    (ht : ∀ target, l.data = .struct target → ∀ i, touched target i) :
    (assignStruct l r).Atomic touched := by
  have hT := reading_leaves
  have hno (r : Value) : (unsupported .assign l (some r) : OperatorM Value).Atomic touched :=
    fun _ _ => rfl
  refine .after (hT.operand l r _) fun n => .after (hT.checkWritable l) fun _ => ?_
  split
  · refine .ite (hno n) (.ite (.of_leaves (hT.pure _)) ?_)
    exact answer (Succeeds.copyMembers _ (ht _ ‹_›)).atomic _
  · exact hno n

end Atomic

end OperatorM

namespace Operator

open OperatorM

variable {op : Operator} {l : Value} {f : Value → Option Value → OperatorM Value} (r : Option Value)

theorem atomic_ofNumber? (hl : ∃ k, l.ty = .arith k) (h : op.ofNumber? = some f) :
    (f l r).Atomic (op.Touches l) := by
  have hT := reading_leaves
  have hp (hop : op.writes = true) (p : Place) (hp : l.place = some p) :
      op.Touches l p.block p.index := by
    obtain ⟨k, hl⟩ := hl
    unfold Touches
    rw [hl]
    exact ⟨hop, p.role, hp⟩
  cases op with
  | binary op => cases h; exact .of_leaves (hT.arithBinary l r op)
  | assign => cases h; exact .assignNumber (hp rfl) r
  | comma => cases h; exact .of_leaves (hT.pure _)
  | neg => cases h; exact .of_leaves (hT.negate l r)
  | plus => cases h; exact .of_leaves (hT.pure _)
  | addrOf => cases h; exact .of_leaves (hT.addressOf l r)
  | not => cases h; exact .of_leaves (hT.not l r)
  | bitNot => cases h; exact .of_leaves (hT.complement l r)
  | inc | dec => cases h; exact .stepNumber (hp rfl) r _
  | compound _ | deref | index => cases h

theorem atomic_ofPointer? (hl : l.ty.isPointer = true) (h : op.ofPointer? = some f) :
    (f l r).Atomic (op.Touches l) := by
  have hT := reading_leaves
  have hp (hop : op.writes = true) (ha : l.ty.isArray = false) (p : Place)
      (hp : l.place = some p) : op.Touches l p.block p.index := by
    refine ⟨hop, ?_⟩
    cases hty : l.ty <;> rw [hty] at hl ha
    case pointer | functionPointer => exact ⟨p.role, hp⟩
    case array => cases ha
    all_goals cases hl
  cases op with
  | binary op =>
    obtain ⟨-, hf⟩ := Option.ite_none_right_eq_some.mp h
    cases hf
    exact .of_leaves (hT.pointerBinary l r op)
  | assign => cases h; exact .assignPointer (hp rfl) r
  | comma => cases h; exact .of_leaves (hT.pure _)
  | deref => cases h; exact .of_leaves (hT.deref l r)
  | addrOf => cases h; exact .of_leaves (hT.addressOf l r)
  | not => cases h; exact .of_leaves (hT.pure _)
  | inc | dec => cases h; exact .stepPointer (hp rfl) r _
  | index => cases h; exact .of_leaves (hT.index l r)
  | compound _ | neg | plus | bitNot => cases h

theorem atomic_ofType? (h : ofType? l.ty op = some f) : (f l r).Atomic (op.Touches l) := by
  have hT := reading_leaves
  cases hty : l.ty with
  | arith k => exact atomic_ofNumber? r ⟨k, hty⟩ (by rwa [hty] at h)
  | pointer | array | functionPointer =>
    rw [hty] at h
    exact atomic_ofPointer? r (by rw [hty]; rfl) h
  | struct name ms =>
    rw [hty] at h
    cases op with
    | assign =>
      cases h
      refine .assignStruct r fun target htarget i => ⟨rfl, ?_⟩
      rw [hty]
      exact ⟨rfl, htarget⟩
    | addrOf => cases h; exact .of_leaves (hT.addressOf l r)
    | comma => cases h; exact .of_leaves (hT.pure _)
    | _ => cases h
  | function sig =>
    rw [hty] at h
    cases op with
    | addrOf => cases h; exact .of_leaves (hT.addressOfFunction l r)
    | comma => cases h; exact .of_leaves (hT.pure _)
    | _ => cases h
  | void =>
    rw [hty] at h
    cases op with
    | comma => cases h; exact .of_leaves (hT.pure _)
    | _ => cases h
  | marker =>
    rw [hty] at h
    cases op <;> cases h

theorem atomic_applyOwn : (applyOwn op l r).Atomic (op.Touches l) := by
  unfold applyOwn
  split
  · exact atomic_ofType? r ‹_›
  · exact .fail _

/-- No type has a compound assignment of its own. -/
theorem ofType?_compound (ty : Ty) (op : BinaryOp) : ofType? ty (.compound op) = none := by
  cases ty <;> rfl

theorem apply_eq_applyOwn (hop : ∀ b, op ≠ compound b) : op.apply l r = applyOwn op l r := by
  unfold apply applyOwn
  cases ofType? l.ty op with
  | some f => rfl
  | none =>
    cases op with
    | compound b => exact absurd rfl (hop b)
    | _ => rfl

theorem apply_binary (op : BinaryOp) (l : Value) (r : Option Value) :
    (binary op).apply l r = applyOwn (binary op) l r := apply_eq_applyOwn r nofun

theorem apply_assign (l : Value) (r : Option Value) : assign.apply l r = applyOwn assign l r :=
  apply_eq_applyOwn r nofun

/-- A compound assignment is the operator and then the assignment of its result. -/
theorem apply_compound (op : BinaryOp) (l : Value) (r : Option Value) :
    (compound op).apply l r =
      (binary op).apply l r >>= fun v => assign.apply l (some v) := by
  simp only [apply_binary, apply_assign]
  unfold apply
  rw [ofType?_compound]

/-- Structs have no operators that could be compounded, and for the other types the assignment
touches what the compound operator does. -/
theorem atomic_compound (op : BinaryOp) :
    ((compound op).apply l r).Atomic ((compound op).Touches l) := by
  rw [apply_compound, apply_binary]
  by_cases hl : ∃ name ms, l.ty = .struct name ms
  · obtain ⟨name, ms, hl⟩ := hl
    refine .of_refuses (.bind ?_)
    unfold applyOwn
    rw [hl]
    exact .unsupported _ l r
  · refine .after (leaves_applyOwn op l r) fun v => ?_
    rw [apply_assign]
    refine (atomic_applyOwn (some v)).mono fun b i ht => ⟨rfl, ?_⟩
    have ht := ht.2
    cases hty : l.ty <;> rw [hty] at ht <;> first | exact ht | exact absurd ⟨_, _, hty⟩ hl

theorem atomic_apply : (op.apply l r).Atomic (op.Touches l) := by
  cases op with
  | compound op => exact atomic_compound r op
  | _ =>
    rw [apply_eq_applyOwn r]
    · exact atomic_applyOwn r
    · nofun

/-- Operators are atomic and local. Whatever the operands, the policy and the heap are, an operator
that faults leaves the heap as it is, and one that succeeds keeps all cells besides those that
it touches. A compound assignment does what the plain operator and then an assignment of its
result do, and so has the result of that assignment and stores what it stores. -/
theorem apply_atomic (op : Operator) (l : Value) (r : Option Value) :
    (op.apply l r).Atomic (op.Touches l) ∧
      ∀ b : BinaryOp, (compound b).apply l r =
        (binary b).apply l r >>= fun v => assign.apply l (some v) :=
  ⟨atomic_apply r, fun b => apply_compound b l r⟩

end Operator

end Stepwise
