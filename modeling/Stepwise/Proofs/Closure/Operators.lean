import Stepwise.Operator.Apply
import Stepwise.Proofs.Overflow.Numbers

/-! # Properties of operators

Operators are put together from a few computations, which look at the heap, do arithmetic
or store a value into one cell. A property that these have, and that is kept when they
follow one another, is a property of all operators.
-/

namespace Stepwise

/-- The operator changes the cell of its left operand. -/
def Operator.writes : Operator → Bool
  | assign | compound _ | inc | dec => true
  | _ => false

/-- The fault of an object that would hold itself. -/
def FaultCause.isEndless : FaultCause → Bool
  | .declaration (.containsItself _) => true
  | _ => false

/-- The fault is not that of a name which is taken. -/
def FaultCause.isNew : FaultCause → Bool
  | .name (.alreadyDefined ..) | .name (.redeclared _) => false
  | _ => true

/-- A fault that does not only come from declarations and from the making of objects. -/
def FaultCause.isCommon (cause : FaultCause) : Bool := !cause.isEndless && cause.isNew

theorem FaultCause.isEndless_of_isCommon {cause : FaultCause} (h : cause.isCommon = true) :
    cause.isEndless = false := by
  unfold isCommon at h
  simpa using (Bool.and_eq_true_iff.mp h).1

/-- Whether a function is the only one of its name has nothing to do with declaring another. -/
theorem OverloadTable.isCommon_single? {t : OverloadTable} {name : String} {cause : NameFault}
    (h : t.single? name = .error cause) : (FaultCause.name cause).isCommon = true := by
  unfold single? at h
  cases hs : t.set? name with
  | none =>
    rw [hs] at h
    cases h
  | some set =>
    simp only [hs, OverloadSet.single?] at h
    split at h
    · cases h
    · cases h
    · cases h
      rfl

def OperatorContext.wrapping (ctx : OperatorContext) : OperatorContext :=
  { ctx with numerics := ctx.numerics.wrapping true }

namespace OperatorM

/-- `T` is a property of the computations that read the heap and do arithmetic, and of what is made
of computations with the property. What depends on the overflow policy is arithmetic. -/
structure Reading (T : (α : Type) → OperatorM α → Prop) : Prop where
  pure : ∀ {α : Type} (a : α), T α (pure a)
  bind : ∀ {α β : Type} {x : OperatorM α} {f : α → OperatorM β},
    T α x → (∀ a, T β (f a)) → T β (x >>= f)
  throw : ∀ {α : Type} (fault : Fault), fault.cause.isCommon = true → T α (throw fault)
  get : T Heap get
  read_bind : ∀ {α : Type} {g : OperatorContext → OperatorM α},
    (∀ ctx, T α (g ctx)) → (∀ ctx, g ctx.wrapping = g ctx) → T α (read >>= g)
  numerics : ∀ {α : Type} {g : Numerics → Except OperatorFault α},
    (∀ n, UpToOverflow (g n) (g (n.wrapping true))) → T α (do ofExcept (g (← read).numerics))

/-- `T` is also a property of copies, which add blocks to the heap. -/
structure Copying (T : (α : Type) → OperatorM α → Prop) : Prop extends Reading T where
  deepCopy : ∀ v : Value, T Value (HeapM.deepCopy v)

/-- `T` is also a property of storing a value into a cell. -/
structure Storing (T : (α : Type) → OperatorM α → Prop) : Prop extends Copying T where
  store : ∀ (p : Place) (v : Value), T Bool (HeapM.attempt fun h => h.store? p v)

/-- `T` is a property of all computations of which operators are made. -/
structure Closed (T : (α : Type) → OperatorM α → Prop) : Prop extends Storing T where
  init : ∀ (p : Place) (v : Value), T Bool (HeapM.attempt fun h => h.init? p v)

namespace Reading

variable {T : (α : Type) → OperatorM α → Prop} {α : Type}

theorem ite {c : Prop} [Decidable c] {x y : OperatorM α} (hx : T α x) (hy : T α y) :
    T α (if c then x else y) := by
  split
  · exact hx
  · exact hy

variable (hT : Reading T)

include hT

theorem fail (cause : OperatorFault) : T α (fail cause) :=
  hT.read_bind (fun _ => hT.throw _ rfl) fun _ => rfl

theorem unsupported (op : Operator) (l : Value) (r : Option Value) : T α (unsupported op l r) :=
  hT.fail _

/-- A check that may end the computation. -/
theorem check {c : Prop} [Decidable c] {y : OperatorM PUnit} {rest : PUnit → OperatorM α}
    (hy : T _ y) (hr : T α (rest ⟨⟩)) : T α (if c then y >>= rest else rest ⟨⟩) := by
  split
  · exact hT.bind hy fun _ => hr
  · exact hr

theorem discard {x : OperatorM α} (hx : T α x) : T _ (Functor.discard x) :=
  hT.bind hx fun _ => hT.pure _

/-- Arithmetic, and what is done with its result. -/
theorem numerics_bind {β : Type} {g : Numerics → Except OperatorFault α} {f : α → OperatorM β}
    (hg : ∀ n, UpToOverflow (g n) (g (n.wrapping true))) (hf : ∀ a, T β (f a)) :
    T β (do f (← ofExcept (g (← read).numerics))) := by
  have h := hT.bind (hT.numerics hg) hf
  rwa [bind_assoc] at h

section Basic

variable (v l : Value) (r : Option Value) (op : Operator)

theorem load? (p : Place) : T _ (OperatorM.load? p) := hT.bind hT.get fun _ => hT.pure _

theorem text : T _ (text v) := hT.bind hT.get fun _ => hT.pure _

theorem place : T _ (OperatorM.place l) := by
  unfold OperatorM.place
  split
  · exact hT.pure _
  · exact hT.bind (hT.text l) fun _ => hT.fail _

theorem checkWritable : T _ (checkWritable l) :=
  hT.bind (hT.bind (hT.place l) fun _ => hT.pure _) fun _ =>
    ite (hT.bind (hT.text l) fun _ => hT.fail _) (hT.pure _)

theorem operand : T _ (operand op l r) := by
  cases r with
  | some v => exact hT.pure v
  | none => exact hT.unsupported op l none

end Basic

section Convert

variable (v : Value) (target : Ty) (k : ArithKind) (explicit : Bool)

theorem converts (a b : Ty) : T _ (converts a b) := hT.read_bind (fun _ => hT.pure _) fun _ => rfl

theorem number (x : Number) : T _ (number k x) :=
  hT.numerics (g := fun n => n.value k x) fun n => n.value_wrapping k x

theorem cannotConvert : T _ (OperatorM.cannotConvert v target) :=
  hT.bind (hT.text v) fun _ => hT.fail _

theorem convertPointer : T _ (OperatorM.convertPointer v target explicit) := by
  have hno := hT.cannotConvert v target
  unfold OperatorM.convertPointer
  split
  case h_2 | h_3 =>
    extract_lets rest
    have hrest (compatible : Bool) : T _ (rest compatible) := ite (hT.pure _) hno
    refine ite ?_ ?_
    · exact hT.bind (hT.pure true) hrest
    · exact hT.bind (hT.converts v.ty target) hrest
  case h_4 => exact ite (hT.pure _) hno
  all_goals exact hno

theorem convertFunctionPointer : T _ (OperatorM.convertFunctionPointer v target) := by
  have hno := hT.cannotConvert v target
  unfold OperatorM.convertFunctionPointer
  split
  · exact hT.pure _
  · exact hT.pure _
  · exact ite (hT.pure _) hno
  · exact ite (hT.pure _) hno
  · exact ite (hT.pure _) hno
  · exact hno

theorem convertArith : T _ (OperatorM.convertArith v k explicit) := by
  unfold OperatorM.convertArith
  split
  · exact hT.number k _
  · exact ite (hT.pure _) (ite (hT.number k _) (hT.cannotConvert v _))

theorem convert : T _ (OperatorM.convert v target explicit) := by
  have hno := hT.cannotConvert v target
  refine ite (hT.pure _) ?_
  cases target with
  | void => exact hT.pure _
  | arith k => exact hT.convertArith v k explicit
  | pointer _ _ => exact hT.convertPointer v _ explicit
  | array _ _ => exact hT.convertPointer v _ explicit
  | functionPointer _ => exact hT.convertFunctionPointer v _
  | function _ =>
    dsimp only
    split
    · exact hT.pure _
    · exact hno
  | struct _ _ => exact hno
  | marker => exact hno

theorem condition : T _ (condition v) := hT.bind (hT.convert v .bool false) fun _ => hT.pure _

end Convert

section Pointer

variable (l n : Value) (r : Option Value) (op : BinaryOp)

theorem position (v : Int) : T _ (position v) := ite (hT.pure _) (hT.fail _)

theorem addressOf : T _ (OperatorM.addressOf l r) := by
  unfold OperatorM.addressOf
  refine hT.check (hT.unsupported _ l r) ?_
  refine hT.bind (hT.place l) fun p => ?_
  dsimp only
  split
  · exact hT.bind (hT.position _) fun _ => hT.pure _
  · exact hT.pure _

theorem element (store : BlockId) (i : Int) : T _ (OperatorM.element store i) := by
  unfold OperatorM.element
  extract_lets rest
  have hrest (found : Option Value) : T _ (rest found) := by
    cases found with
    | some v => exact hT.pure v
    | none => exact hT.bind hT.get fun _ => hT.fail _
  split
  · exact hT.bind (hT.load? _) hrest
  · exact hT.bind (hT.pure none) hrest

theorem deref : T _ (OperatorM.deref l r) := by
  have hno := hT.unsupported (α := Value) .deref l none
  unfold OperatorM.deref
  refine hT.check (hT.fail _) ?_
  dsimp only
  split
  · refine hT.bind (hT.load? _) fun found => ?_
    cases found with
    | some v => exact hT.pure v
    | none => exact hT.fail _
  · exact hT.element _ _
  · split
    · exact hT.pure _
    · exact hno
  · exact hT.fail _
  · exact hT.fail _
  · exact hT.fail _
  · exact hno

theorem offset (sign : Int) : T _ (OperatorM.offset l n sign) := by
  unfold OperatorM.offset
  extract_lets rest
  have hrest (delta : Int) : T _ (rest delta) := by
    dsimp only [rest]
    split
    · exact hT.bind (hT.position _) fun _ => hT.pure _
    · refine hT.bind (hT.position _) fun _ => ?_
      exact hT.bind (hT.position _) fun _ => hT.pure _
    · exact ite (hT.pure _) (hT.fail _)
    · exact hT.fail _
  split
  · refine ite ?_ ?_
    · exact hT.bind (hT.position _) hrest
    · exact hT.bind (hT.fail _) hrest
  · exact hT.bind (hT.fail _) hrest

theorem index : T _ (index l r) := by
  refine hT.bind (hT.operand l r _) fun n => ?_
  exact hT.bind (hT.offset l n 1) fun moved => hT.deref moved none

theorem equal : T _ (OperatorM.equal l n) := by
  unfold OperatorM.equal
  refine ite (hT.unsupported _ _ _) (ite (ite (hT.pure _) (hT.unsupported _ _ _)) ?_)
  refine ite (hT.pure _) (ite (hT.pure _) ?_)
  split
  · exact hT.pure _
  · exact hT.pure _
  · split <;> exact hT.pure _

theorem commonPositions (across : OperatorFault) :
    T _ (OperatorM.commonPositions l n across) := by
  unfold OperatorM.commonPositions
  split
  · exact ite (hT.pure _) (hT.fail _)
  · exact hT.fail _

theorem pointerBinary : T _ (pointerBinary op l r) := by
  refine hT.bind (hT.operand l r _) fun n => ?_
  have hcompare : T _ (OperatorM.commonPositions l n .compareAcrossArrays >>= fun p =>
      return Value.bool (Number.test op (some (compare p.1 p.2)))) :=
    hT.bind (hT.commonPositions l n _) fun _ => hT.pure _
  cases op with
  | add => exact hT.offset l n 1
  | sub =>
    refine ite (hT.offset l n (-1)) ?_
    exact hT.bind (hT.commonPositions l n _) fun _ => hT.number _ _
  | eq => exact hT.bind (hT.equal l n) fun _ => hT.pure _
  | ne => exact hT.bind (hT.equal l n) fun _ => hT.pure _
  | lt => exact hcompare
  | le => exact hcompare
  | gt => exact hcompare
  | ge => exact hcompare
  | _ => exact hT.unsupported _ l _

end Pointer

section Apply

variable (l : Value) (r : Option Value) (op : BinaryOp) (increment : Bool)

theorem arithBinary : T _ (arithBinary op l r) := by
  cases r with
  | none => exact hT.fail _
  | some v =>
    refine ite (hT.offset v l 1) (ite (hT.pointerBinary v (some l) op) ?_)
    split
    · exact hT.numerics (g := fun n => n.binary op _ _ _ _ _) fun n => n.binary_wrapping ..
    · exact hT.fail _

theorem negate : T _ (OperatorM.negate l r) := by
  unfold OperatorM.negate
  split
  · exact hT.numerics (g := fun n => n.negate _ _) fun n => n.negate_wrapping ..
  · exact hT.unsupported _ l none

theorem not : T _ (OperatorM.not l r) := by
  unfold OperatorM.not
  split
  · exact hT.pure _
  · exact hT.unsupported _ l none

theorem complement : T _ (OperatorM.complement l r) := by
  unfold OperatorM.complement
  split
  · exact hT.numerics (g := fun n => n.complement _ _) fun n => n.complement_wrapping ..
  · exact hT.unsupported _ l none

theorem addressOfFunction : T _ (OperatorM.addressOfFunction l r) := by
  unfold OperatorM.addressOfFunction
  refine hT.check (hT.fail _) ?_
  dsimp only
  split
  · refine hT.read_bind (fun ctx => ?_) fun _ => rfl
    split
    · exact hT.throw _ (OverloadTable.isCommon_single? ‹_›)
    · exact hT.pure _
    · exact hT.read_bind (fun _ => hT.throw _ rfl) fun _ => rfl
  · exact hT.unsupported _ l none

end Apply

section Operator

open Operator

variable {f : Value → Option Value → OperatorM Value} {op : Operator} (hop : op.writes = false)
  (l : Value) (r : Option Value)

include hop

theorem reads_ofNumber? (h : op.ofNumber? = some f) : T _ (f l r) := by
  cases op with
  | binary op => cases h; exact hT.arithBinary l r op
  | comma => cases h; exact hT.pure _
  | neg => cases h; exact hT.negate l r
  | plus => cases h; exact hT.pure _
  | addrOf => cases h; exact hT.addressOf l r
  | not => cases h; exact hT.not l r
  | bitNot => cases h; exact hT.complement l r
  | deref | index => cases h
  | assign | inc | dec | compound _ => cases hop

theorem reads_ofPointer? (h : op.ofPointer? = some f) : T _ (f l r) := by
  cases op with
  | binary op =>
    obtain ⟨-, hf⟩ := Option.ite_none_right_eq_some.mp h
    cases hf
    exact hT.pointerBinary l r op
  | comma => cases h; exact hT.pure _
  | deref => cases h; exact hT.deref l r
  | addrOf => cases h; exact hT.addressOf l r
  | not => cases h; exact hT.pure _
  | index => cases h; exact hT.index l r
  | neg | plus | bitNot => cases h
  | assign | inc | dec | compound _ => cases hop

theorem reads_ofType? {ty : Ty} (h : ofType? ty op = some f) : T _ (f l r) := by
  unfold Operator.ofType? at h
  split at h
  · exact hT.reads_ofNumber? hop l r h
  · exact hT.reads_ofPointer? hop l r h
  · exact hT.reads_ofPointer? hop l r h
  · exact hT.reads_ofPointer? hop l r h
  · cases hop
  · cases h; exact hT.addressOf l r
  · cases h; exact hT.addressOfFunction l r
  · cases h; exact hT.pure _
  · cases h; exact hT.pure _
  · cases h; exact hT.pure _
  · cases h

/-- An operator that does not write only reads. -/
theorem reads_apply : T _ (op.apply l r) := by
  unfold Operator.apply
  split
  · exact hT.reads_ofType? hop l r ‹_›
  · cases hop
  · exact hT.unsupported _ l r

end Operator

end Reading

namespace Copying

variable {T : (α : Type) → OperatorM α → Prop} (hT : Copying T)

include hT

theorem copy (v : Value) (target : Ty) : T _ (copy v target) := by
  refine hT.bind (hT.convert v target false) fun converted => ?_
  split
  · exact hT.deepCopy _
  · exact hT.pure _

end Copying

namespace Storing

variable {T : (α : Type) → OperatorM α → Prop} (hT : Storing T)

include hT

section Writes

variable (v l : Value) (r : Option Value) (increment : Bool)

theorem write : T _ (write l v) := by
  refine hT.bind (hT.place l) fun p => hT.bind (hT.store p v) fun stored => ?_
  refine Reading.ite ?_ (hT.fail _)
  refine hT.bind (hT.load? p) fun found => ?_
  cases found with
  | some v => exact hT.pure v
  | none => exact hT.fail _

theorem assignPointer : T _ (assignPointer l r) := by
  refine hT.bind (hT.operand l r _) fun n => ?_
  refine hT.bind (hT.checkWritable l) fun _ => hT.check (hT.fail _) ?_
  exact hT.bind (hT.convert n l.ty false) fun v => hT.write v l

theorem stepPointer : T _ (stepPointer l r increment) := by
  refine hT.bind (hT.checkWritable l) fun _ => ?_
  split
  · refine hT.check (hT.fail _) (hT.bind (hT.position _) fun moved => ?_)
    exact hT.bind (hT.write _ l) fun _ => hT.pure _
  · exact hT.fail _

theorem assignNumber : T _ (assignNumber l r) := by
  refine hT.bind (hT.operand l r _) fun n => ?_
  refine hT.bind (hT.checkWritable l) fun _ => ?_
  exact hT.bind (hT.convert n l.ty false) fun v => hT.write v l

theorem stepNumber : T _ (OperatorM.stepNumber l r increment) := by
  unfold OperatorM.stepNumber
  split
  · refine hT.bind (hT.checkWritable l) fun _ => hT.bind hT.get fun heap => ?_
    refine hT.numerics_bind (g := fun n => n.step _ _ _ _) (fun n => n.step_wrapping ..) ?_
    exact fun data => hT.bind (hT.write _ l) fun _ => hT.pure _
  · exact hT.fail _

/-- Members are copied in any way that has the property. -/
theorem assignStruct_of_copyMembers
    (hc : ∀ target source, l.data = .struct target → T _ (copyMembers source target)) :
    T _ (assignStruct l r) := by
  refine hT.bind (hT.operand l r _) fun n => ?_
  refine hT.bind (hT.checkWritable l) fun _ => ?_
  split
  · refine Reading.ite (hT.unsupported _ l _) (Reading.ite (hT.pure _) ?_)
    exact hT.bind (hc _ _ ‹_›) fun _ => hT.pure _
  · exact hT.unsupported _ l _

end Writes

section Operator

open Operator

variable {f : Value → Option Value → OperatorM Value} (op : Operator) (l : Value) (r : Option Value)

theorem ofNumber? (h : op.ofNumber? = some f) : T _ (f l r) := by
  cases hop : op.writes with
  | false => exact hT.reads_ofNumber? hop l r h
  | true =>
    cases op with
    | assign => cases h; exact hT.assignNumber l r
    | inc | dec => cases h; exact hT.stepNumber l r _
    | compound => cases h
    | _ => cases hop

theorem ofPointer? (h : op.ofPointer? = some f) : T _ (f l r) := by
  cases hop : op.writes with
  | false => exact hT.reads_ofPointer? hop l r h
  | true =>
    cases op with
    | assign => cases h; exact hT.assignPointer l r
    | inc | dec => cases h; exact hT.stepPointer l r _
    | compound => cases h
    | _ => cases hop

section Struct

variable (hs : ∀ r, T _ (assignStruct l r))

include hs

theorem ofType?_of_assignStruct {ty : Ty} (h : ofType? ty op = some f) : T _ (f l r) := by
  unfold Operator.ofType? at h
  split at h
  · exact hT.ofNumber? op l r h
  · exact hT.ofPointer? op l r h
  · exact hT.ofPointer? op l r h
  · exact hT.ofPointer? op l r h
  · cases h; exact hs r
  · cases h; exact hT.addressOf l r
  · cases h; exact hT.addressOfFunction l r
  · cases h; exact hT.pure _
  · cases h; exact hT.pure _
  · cases h; exact hT.pure _
  · cases h

theorem applyOwn_of_assignStruct : T _ (applyOwn op l r) := by
  unfold Operator.applyOwn
  split
  · exact hT.ofType?_of_assignStruct op l r hs ‹_›
  · exact hT.unsupported op l r

/-- Only the assignment of a struct may write otherwise than into the cell of its operand. -/
theorem apply_of_assignStruct : T _ (op.apply l r) := by
  unfold Operator.apply
  split
  · exact hT.ofType?_of_assignStruct _ l r hs ‹_›
  · refine hT.bind (hT.applyOwn_of_assignStruct _ l r hs) fun v => ?_
    exact hT.applyOwn_of_assignStruct _ l (some v) hs
  · exact hT.unsupported _ l r

end Struct

end Operator

end Storing

namespace Closed

variable {T : (α : Type) → OperatorM α → Prop} (hT : Closed T)

include hT

theorem forIn {β γ : Type} {body : γ → β → OperatorM (ForInStep β)}
    (hb : ∀ a b, T _ (body a b)) (as : Array γ) (init : β) : T _ (forIn as init body) := by
  rw [← Array.forIn_toList]
  induction as.toList generalizing init with
  | nil => exact hT.pure _
  | cons a as ih =>
    rw [List.forIn_cons]
    refine hT.bind (hb a init) fun step => ?_
    cases step with
    | done b => exact hT.pure b
    | yield b => exact ih b

theorem cells (b : BlockId) : T (Array Value) (HeapM.cells b) := by
  have hget : (HeapM.cells b : OperatorM (Array Value)) =
      MonadState.get >>= fun h : Heap => Pure.pure (h.cells b) := rfl
  rw [hget]
  exact hT.bind hT.get fun _ => hT.pure _

theorem copyMembers (source target : BlockId) : T _ (copyMembers source target) := by
  refine hT.bind (hT.cells _) fun news => hT.bind (hT.cells _) fun olds => ?_
  refine hT.bind (hT.forIn (fun (new, old) indices => ?_) _ _) fun _ => hT.pure _
  dsimp only
  split
  · exact hT.pure _
  · refine hT.bind (hT.deepCopy _) fun copied => ?_
    exact hT.bind (hT.discard (hT.init _ _)) fun _ => hT.pure _

theorem apply (op : Operator) (l : Value) (r : Option Value) : T _ (op.apply l r) :=
  hT.apply_of_assignStruct op l r fun r =>
    hT.assignStruct_of_copyMembers l r fun target source _ => hT.copyMembers source target

end Closed

end OperatorM

end Stepwise
