import Stepwise.Operator.Convert

/-! # Operators of pointers

A pointer to one cell, or to a position in an array. Positions have 64 bits and
may lie outside their array until they are dereferenced; arithmetic and order are
defined within one array only.
-/

namespace Stepwise

/-- The positions that a pointer into an array can have. -/
def Position.holds (v : Int) : Bool := -pow2 63 ≤ v && v < pow2 63

/-- The array and the position that a pointer addresses, if it addresses an element. -/
def Data.arrayPosition? : Data → Option (BlockId × Int)
  | .array (some store) position => some (store, position)
  | .pointer (some ⟨.element, store, index⟩) => some (store, index)
  | _ => none

namespace OperatorM

/-- A position, which must have 64 bits. -/
def position (v : Int) : OperatorM Int :=
  if Position.holds v then return v else fail .pointerOverflow

/-- `&l`: a pointer into the array of an element, a pointer to the cell otherwise. -/
def addressOf (l : Value) (r : Option Value) : OperatorM Value := do
  if r.isSome then unsupported .addrOf l r
  let p ← place l
  let ty := if l.readonly then Ty.constPointerTo l.ty else Ty.pointerTo l.ty
  let data ← match p.role with
    | .element => pure (Data.array (some p.block) (← position p.index))
    | _ => pure (Data.pointer (some p))
  return .fresh ty data

/-- The element of `store` at `position`. -/
def element (store : BlockId) (position : Int) : OperatorM Value := do
  let found ← match position with
    | .ofNat index => load? (.element store index)
    | .negSucc _ => pure none
  match found with
  | some v => return v
  | none => fail (.positionOutOfBounds position ((← get).cells store).size)

/-- `*l` -/
def deref (l : Value) (r : Option Value) : OperatorM Value := do
  if r.isSome then fail .multipliedPointer
  match l.data with
  | .pointer (some p) =>
    match ← load? p with
    | some v => return v
    | none => fail .indexOutOfBounds
  | .array (some store) position => element store position
  | .functionPointer (some f) =>
    match l.ty with
    | .functionPointer sig => return .fresh (.function sig) (.function f)
    | _ => unsupported .deref l none
  | .pointer none | .array none _ | .functionPointer none => fail .uninitializedPointer
  | _ => unsupported .deref l none

/-- The type of a pointer that arithmetic moved: that of an array becomes one to its elements. -/
def movedType : Ty → Ty
  | .array element _ => .pointerTo element
  | ty => ty

/-- `l + sign * n` -/
def offset (l n : Value) (sign : Int) : OperatorM Value := do
  let delta ← match n.number? with
    | some (.int v) => if n.ty.isIntegral then position (sign * v) else fail .nonNumericOffset
    | _ => fail .nonNumericOffset
  match l.data with
  | .array store i => return .fresh (movedType l.ty) (.array store (← position (i + delta)))
  | .pointer (some ⟨.element, store, i⟩) =>
    let start ← position i
    return .fresh l.ty (.array (some store) (← position (start + delta)))
  | .pointer _ => if delta = 0 then return l.rvalue else fail (.notArrayPointer l.ty)
  | _ => fail (.notArrayPointer l.ty)

/-- `l[r]` is `*(l + r)`. -/
def index (l : Value) (r : Option Value) : OperatorM Value := do
  deref (← offset l (← operand .index l r) 1) none

def pointsToVoid (ty : Ty) : Bool := ty.pointee?.any Ty.isVoid

/-- Both null, or both addressing the same cell or function. -/
def equal (l r : Value) : OperatorM Bool := do
  if !l.data.isPointer then unsupported (.binary .eq) l (some r)
  else if !r.data.isPointer then
    if r.int? = some 0 then return l.data.isNull else unsupported (.binary .eq) l (some r)
  else if l.data.isNull || r.data.isNull then return l.data.isNull && r.data.isNull
  else if !(l.ty.sameShape r.ty || pointsToVoid l.ty || pointsToVoid r.ty) then return false
  else
    match l.data, r.data with
    | .functionPointer (some f), .functionPointer (some g) =>
      return f.name == g.name && f.owner == g.owner
    | .pointer (some p), .pointer (some q) => return p == q
    | a, b =>
      match a.arrayPosition?, b.arrayPosition? with
      | some p, some q => return p == q
      | _, _ => return false

/-- The positions of two pointers into one array; `across` is the fault of two arrays. -/
def commonPositions (l r : Value) (across : OperatorFault) : OperatorM (Int × Int) := do
  match l.data.arrayPosition?, r.data.arrayPosition? with
  | some (a, i), some (b, j) => if a = b then return (i, j) else fail across
  | _, _ => fail (.notArrayPointer r.ty)

/-- Binary operators whose left operand is a pointer. -/
def pointerBinary (op : BinaryOp) (l : Value) (r : Option Value) : OperatorM Value := do
  let r ← operand (.binary op) l r
  match op with
  | .add => offset l r 1
  | .sub =>
    if r.ty.isArith then offset l r (-1)
    else
      let (i, j) ← commonPositions l r .minusAcrossArrays
      number .int (.int (i - j))
  | .eq => return .bool (← equal l r)
  | .ne => return .bool !(← equal l r)
  | .lt | .le | .gt | .ge =>
    let (i, j) ← commonPositions l r .compareAcrossArrays
    return .bool (Number.test op (some (compare i j)))
  | _ => unsupported (.binary op) l (some r)

/-- `l = r` for a pointer, which arrays do not allow. -/
def assignPointer (l : Value) (r : Option Value) : OperatorM Value := do
  let r ← operand .assign l r
  checkWritable l
  if l.ty.isArray then fail (.arrayAssignment l.ty)
  write l (← convert r l.ty false)

/-- `++` and `--` move a pointer by one element. -/
def stepPointer (l : Value) (r : Option Value) (increment : Bool) : OperatorM Value := do
  checkWritable l
  match l.data with
  | .array store i =>
    if l.ty.isArray then fail (.arrayAssignment l.ty)
    let moved ← position (if increment then i + 1 else i - 1)
    let stored ← write l (.fresh l.ty (.array store moved))
    return if r.any Value.isMarker then l.rvalue else stored
  | _ => fail (.notArrayPointer l.ty)

end OperatorM

end Stepwise
