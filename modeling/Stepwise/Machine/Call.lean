import Stepwise.Machine.Make
import Stepwise.Operator.Call
import Stepwise.Stdio.Library

/-! # Calls

A call binds its arguments as overload resolution says and runs the body in a frame of
its own. A method sees the members of its object and `this` in the frame scope, and its
parameters in a scope above. However the body ends, the scopes of the caller come back.
-/

namespace Stepwise

namespace RunM

/-- The arguments as they are bound to parameters: aliased ones keep their cells, the others are
copies, and arguments without a parameter are plain values. -/
def boundArguments : List Value → List ArgAction → List ParamTy → RunM (List Value)
  | [], _, _ => return []
  | v :: vs, actions, params => do
    let bound ←
      match params with
      | [] => pure v.rvalue
      | param :: _ =>
        if actions.head? == some .share && v.isLvalue then pure v
        else do pure ((← operate (OperatorM.copy v param.ty)).withReadonly param.readonly)
    return bound :: (← boundArguments vs actions.tail params.tail)

/-- Declares `this` and the members of the object that a method is called on. -/
def bindReceiver (r : Receiver) : RunM Unit := do
  match r.ty with
  | .struct name fields =>
    let d ← inspect fun s => s.currentStruct name fields
    let object ← match r.place with
      | some p => pure p
      | none => onHeap (HeapM.newSlot (.fresh r.ty (.struct r.store)))
    let this := Value.fresh (.pointerTo d.type) (.pointer (some object))
    defineVariable "this" (this.withReadonly true)
    match (← inspect fun s => (s.load? object).bind Value.structStore?) with
    | none => fail (.name (.structNoStorage d.name))
    | some store =>
      for (m, i) in d.members.zipIdx do
        declare m.name (.member store i)
  | ty => fail (.name (.methodOn ty))

/-- Declares a parameter as its argument: an alias of a cell, or a variable of its own. -/
def bindParameter (name : Option String) (v : Value) : RunM Unit := do
  match name, v.place with
  | none, _ => return
  | some name, some p => declare name p
  | some name, none => defineVariable name v

/-- Visits the default arguments of the parameters that are left, and then the body. -/
def runDefaults (entry : FunctionEntry) (body : Stmt) :
    List (ParamInfo × ParamTy) → RunM (Progress .flow)
  | [] => visitStmt body false .nil
  | (⟨some name, some default⟩, param) :: rest =>
    visit default none (.one (.defaultArgument entry body name param rest))
  | _ :: _ => fail (.name (.tooFewArguments entry.name))

/-- Declares a parameter as its default argument, and goes on with the others. -/
def takeDefault (entry : FunctionEntry) (body : Stmt) (name : String) (param : ParamTy)
    (rest : List (ParamInfo × ParamTy)) (v : Value) : RunM (Progress .flow) := do
  let copied ← operate (OperatorM.copy v param.ty)
  defineVariable name (copied.withReadonly param.readonly)
  runDefaults entry body rest

/-- Declares what the body sees and begins it. -/
def beginBody (entry : FunctionEntry) (receiver : Option Receiver) (body : Stmt)
    (args : List Value) : RunM (Progress .flow) := do
  if let some r := receiver then
    bindReceiver r
    pushScope ("function " ++ entry.name)
  for (v, info) in args.zip entry.params do
    bindParameter info.name v
  runDefaults entry body ((entry.params.zip entry.type.params).drop args.length)

/-- Leaves the scopes of a call. -/
def leaveScopes (depth : Nat) : RunM Unit := onScopes fun s => s.truncate depth

/-- The value of a call whose body has ended. -/
def returned (entry : FunctionEntry) (flow : Flow) : RunM Value := do
  if entry.type.ret.isVoid then return .void
  match flow with
  | .returns (some v) => operate (OperatorM.copy v entry.type.ret)
  | _ =>
    if entry.name = "main" then return .int .int 0
    else fail (.name (.noReturn entry.name))

/-- Ends a call. -/
def endCall (entry : FunctionEntry) (depth : Nat) (flow : Flow) : RunM (Progress .value) := do
  leaveScopes depth
  return .done (← returned entry flow)

/-- Begins a body in a frame of its own. -/
def enterBody (entry : FunctionEntry) (receiver : Option Receiver) (body : Stmt)
    (args : List Value) : RunM (Progress .value) := do
  let depth := (← get).scopes.depth
  onScopes fun s => s.pushFrame ("function " ++ entry.name)
  match ← outcome (beginBody entry receiver body args) with
  | .ok progress => progress.andThen (.endCall entry depth) (endCall entry depth)
  | .error fault =>
    leaveScopes depth
    throw fault

/-- Calls the function of a resolved call. -/
def invoke (target : CallTarget) (args : List Value) : RunM (Progress .value) := do
  let entry ← function target.found.id
  let bound ← boundArguments args target.found.actions entry.type.params
  match entry.body with
  | .library f => callLibrary f bound
  | .prototype => fail (.name (.noBody entry.name))
  | .defined body => enterBody entry target.function.receiver body bound

/-- Calls a value. -/
def call (f : Value) (args : List Value) : RunM (Progress .value) := do
  let config ← read
  let s ← get
  let ctx : OperatorContext := ⟨config.numerics, s.tables, s.cursor⟩
  match CallTarget.resolve ctx s.heap f (args.map Value.argument) [] with
  | .error fault => throw fault
  | .ok (target, tables) =>
    modify fun s => { s with tables }
    invoke target args

end RunM

end Stepwise
