import Stepwise.Operator.Basic

/-! # Conversions

A value as one of another type. A conversion that is not written out must keep
pointers to data compatible; one that is may read any data pointer as any other.
-/

namespace Stepwise

namespace OperatorM

/-- A value of type `a` converts to `b` wherever one is expected. -/
def converts (a b : Ty) : OperatorM Bool := do
  return (← read).numerics.matcher.converts (.ofType a) (.ofType b)

def number (k : ArithKind) (x : Number) : OperatorM Value := do
  ofExcept ((← read).numerics.value k x)

def cannotConvert (v : Value) (target : Ty) : OperatorM Value := do
  fail (.cannotConvert (← text v) target)

/-- `v` as a value of the data pointer type `target`. -/
def convertPointer (v : Value) (target : Ty) (explicit : Bool) : OperatorM Value := do
  match v.data with
  | .functionPointer _ => cannotConvert v target
  | .pointer _ | .array .. =>
    let compatible ←
      if v.data.isNull || v.ty.sameShape target then pure true else converts v.ty target
    if explicit || compatible then return .fresh target v.data
    else cannotConvert v target
  | .int 0 => if v.ty.isIntegral then return .null target else cannotConvert v target
  | _ => cannotConvert v target

/-- `v` as a value of the function pointer type `target`. -/
def convertFunctionPointer (v : Value) (target : Ty) : OperatorM Value := do
  match v.data with
  | .function f => return .fresh target (.functionPointer (some f))
  | .functionPointer f => return .fresh target (.functionPointer f)
  | .pointer _ | .array .. => if v.data.isNull then return .null target else cannotConvert v target
  | .int 0 => if v.ty.isIntegral then return .null target else cannotConvert v target
  | _ => cannotConvert v target

/-- `v` as a value of the arithmetic kind `k`; pointers are true unless they are null. -/
def convertArith (v : Value) (k : ArithKind) (explicit : Bool) : OperatorM Value := do
  match v.number? with
  | some x => number k x
  | none =>
    if v.data.isPointer && k = .bool then return .bool (!v.data.isNull)
    else if v.data.isNull && explicit then number k (.int 0)
    else cannotConvert v (.arith k)

/-- `v` converted to `target`. -/
def convert (v : Value) (target : Ty) (explicit : Bool) : OperatorM Value := do
  if v.ty == target then return v.rvalue
  else
    match target with
    | .void => return .void
    | .arith k => convertArith v k explicit
    | .pointer .. | .array .. => convertPointer v target explicit
    | .functionPointer _ => convertFunctionPointer v target
    | .function _ =>
      match v.data with
      | .function _ => return .fresh target v.data
      | _ => cannotConvert v target
    | .struct .. | .marker => cannotConvert v target

/-- `v` converted to `target`, with storage of its own. -/
def copy (v : Value) (target : Ty) : OperatorM Value := do
  let converted ← convert v target false
  match converted.ty with
  | .struct .. => HeapM.deepCopy converted
  | _ => return converted

/-- The value as a condition. -/
def condition (v : Value) : OperatorM Bool := return (← convert v .bool false).truthy

end OperatorM

end Stepwise
