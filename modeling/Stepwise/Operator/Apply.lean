import Stepwise.Operator.Pointer

/-! # Applying operators

Which operators the values of a type have. The type of the left operand decides; a
compound assignment that it lacks is the binary operator followed by `=`.
-/

namespace Stepwise

namespace OperatorM

/-- Binary operators whose left operand is a number. An integer may also stand before the pointer
that it is added to, and a number may be compared with a pointer. -/
def arithBinary (op : BinaryOp) (l : Value) (r : Option Value) : OperatorM Value := do
  let cause := unsupportedCause (.binary op) l r
  match r with
  | none => fail cause
  | some v =>
    if op = .add && v.ty.isPointer && l.ty.isIntegral then offset v l 1
    else if (op = .eq || op = .ne) && v.ty.isPointer then pointerBinary op v (some l)
    else
      match l.ty.arith?, l.number?, v.ty.arith?, v.number? with
      | some j, some x, some k, some y => ofExcept ((← read).numerics.binary op cause j x k y)
      | _, _, _, _ => fail cause

/-- `l = r` for a number: the cell takes `r` converted to its type. -/
def assignNumber (l : Value) (r : Option Value) : OperatorM Value := do
  let r ← operand .assign l r
  checkWritable l
  write l (← convert r l.ty false)

/-- The value of the right operand. -/
def comma (_ : Value) (r : Option Value) : OperatorM Value := return r.getD .void

def negate (l : Value) (_ : Option Value) : OperatorM Value := do
  match l.ty.arith?, l.number? with
  | some k, some x => ofExcept ((← read).numerics.negate k x)
  | _, _ => unsupported .neg l none

def not (l : Value) (_ : Option Value) : OperatorM Value := do
  match l.number? with
  | some x => return .bool x.isZero
  | none => unsupported .not l none

def complement (l : Value) (_ : Option Value) : OperatorM Value := do
  match l.ty.arith?, l.number? with
  | some k, some (.int v) => ofExcept ((← read).numerics.complement k v)
  | _, _ => unsupported .bitNot l none

/-- `++` and `--` of a number; the postfix forms answer with the value before. -/
def stepNumber (l : Value) (r : Option Value) (increment : Bool) : OperatorM Value := do
  match l.ty.arith?, l.number? with
  | some k, some x =>
    checkWritable l
    let trailing := r.any Value.isMarker
    let heap ← get
    let data ← ofExcept <| (← read).numerics.step k x increment fun _ =>
      .stepOverflow trailing increment (heap.text l)
    let stored ← write l (.fresh (.arith k) data)
    return if trailing then l.rvalue else stored
  | _, _ => fail (.stepUnsupported l.ty increment)

/-- Copies the members of a struct into the cells of another one, which keep their own flags. -/
def copyMembers (source target : BlockId) : OperatorM Unit := do
  let members := (← HeapM.cells source).zip (← HeapM.cells target)
  for (new, old) in members, index in [0:members.size] do
    let copied ← HeapM.deepCopy new
    discard (HeapM.attempt fun h =>
      h.init? (.member target index) (copied.withReadonly old.readonly))

/-- `l = r` for structs of one name: the members are copied into the cells of `l`, so that pointers
to them stay valid. -/
def assignStruct (l : Value) (r : Option Value) : OperatorM Value := do
  let r ← operand .assign l r
  checkWritable l
  match l.ty, l.data, r.ty, r.data with
  | .struct a _, .struct target, .struct b _, .struct source =>
    if a != b then unsupported .assign l (some r)
    else if target = source then return l
    else
      copyMembers source target
      return l
  | _, _, _, _ => unsupported .assign l (some r)

/-- `&f`: a pointer to the only overload of `f`. -/
def addressOfFunction (l : Value) (r : Option Value) : OperatorM Value := do
  if r.isSome then fail .bitAndOnFunction
  match l.data with
  | .function f =>
    match ((← read).tables.table f.owner).single? f.name with
    | .error cause => throw ⟨.name cause, none⟩
    | .ok (some (_, sig)) => return .fresh (.functionPointer sig) (.functionPointer (some f))
    | .ok none => throw ⟨.name (.undefined f.name), (← read).node⟩
  | _ => unsupported .addrOf l none

end OperatorM

namespace Operator

open OperatorM

/-- The operator of a number. -/
def ofNumber? : Operator → Option (Value → Option Value → OperatorM Value)
  | binary op => some (arithBinary op)
  | assign => some assignNumber
  | comma => some OperatorM.comma
  | neg => some negate
  | plus => some fun l _ => return l.rvalue
  | addrOf => some addressOf
  | not => some OperatorM.not
  | bitNot => some complement
  | inc => some fun l r => stepNumber l r true
  | dec => some fun l r => stepNumber l r false
  | compound _ | deref | index => none

/-- The operator of a pointer or an array. -/
def ofPointer? : Operator → Option (Value → Option Value → OperatorM Value)
  | binary op =>
    if op = .add || op = .sub || op.isComparison then some (pointerBinary op) else none
  | assign => some assignPointer
  | comma => some OperatorM.comma
  | deref => some OperatorM.deref
  | addrOf => some addressOf
  | not => some fun l _ => return .bool !l.truthy
  | inc => some fun l r => stepPointer l r true
  | dec => some fun l r => stepPointer l r false
  | index => some OperatorM.index
  | compound _ | neg | plus | bitNot => none

/-- The operator that values of a type have. -/
def ofType? : Ty → Operator → Option (Value → Option Value → OperatorM Value)
  | .arith _, op => op.ofNumber?
  | .pointer .., op | .array .., op | .functionPointer _, op => op.ofPointer?
  | .struct .., assign => some assignStruct
  | .struct .., addrOf => some addressOf
  | .function _, addrOf => some addressOfFunction
  | .struct .., comma | .function _, comma | .void, comma => some OperatorM.comma
  | _, _ => none

/-- Applies an operator of the type of `l`, which must have it. -/
def applyOwn (op : Operator) (l : Value) (r : Option Value) : OperatorM Value :=
  match ofType? l.ty op with
  | some f => f l r
  | none => unsupported op l r

/-- Applies an operator to `l`, and to `r` if it has two operands. -/
def apply (op : Operator) (l : Value) (r : Option Value) : OperatorM Value :=
  match ofType? l.ty op, op with
  | some f, _ => f l r
  | none, compound binaryOp => do
    let v ← applyOwn (binary binaryOp) l r
    applyOwn assign l (some v)
  | none, op => unsupported op l r

end Operator

end Stepwise
