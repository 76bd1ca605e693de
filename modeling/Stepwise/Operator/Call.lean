import Stepwise.Operator.Basic

/-! # Resolving calls

The call operator of functions and function pointers. It finds the overload that
the arguments select; running it is up to the caller.
-/

namespace Stepwise

/-- A resolved call: the function, its overload, and how each argument is bound. -/
structure CallTarget where
  function : FunctionRef
  found : FunctionMatch

/-- An argument value as overload resolution sees it. -/
def Value.argument (v : Value) : ArgSig := ⟨v.ty, v.isLvalue, v.readonly⟩

namespace CallTarget

/-- The overload of `f` for the arguments, and the tables that remember it. -/
def ofFunction (ctx : OperatorContext) (f : FunctionRef) (args : List ArgSig)
    (templates : List Ty) : Except Fault (CallTarget × OwnerTables) :=
  match (ctx.tables.table f.owner).resolve ctx.numerics.matcher f.name args templates with
  | .error cause => .error ⟨.name cause, none⟩
  | .ok (none, _) => .error ⟨.name (.noMatch f.name (args.map ArgSig.ty)), ctx.node⟩
  | .ok (some found, table) => .ok (⟨f, found⟩, ctx.tables.put f.owner table)

/-- The target of a call of `callee`. -/
def resolve (ctx : OperatorContext) (heap : Heap) (callee : Value) (args : List ArgSig)
    (templates : List Ty) : Except Fault (CallTarget × OwnerTables) :=
  let fail (cause : OperatorFault) : Except Fault (CallTarget × OwnerTables) :=
    .error ⟨.operator cause, ctx.node⟩
  match callee.ty, callee.data with
  | .function _, .function f => ofFunction ctx f args templates
  | .functionPointer _, .functionPointer (some f) => ofFunction ctx f args templates
  | .functionPointer _, .functionPointer none => fail .nullCall
  | .functionPointer _, _ => fail (.notFunctionPointer (heap.text callee))
  | ty, _ => fail (.callUnsupported ty)

end CallTarget

end Stepwise
