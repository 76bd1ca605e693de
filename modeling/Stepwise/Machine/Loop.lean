import Stepwise.Machine.Declare
import Stepwise.Machine.Switch

/-! # Loops

A loop has a scope of its own, which is left when a condition fails, when the body
breaks out of it or returns. A loop over elements binds its variable in one more scope
for each of them, and goes over the cells that the array has when the loop begins.
-/

namespace Stepwise

namespace RunM

/-- Goes on with a loop as its condition says. -/
def whileHolds (v : Value) (next : RunM (Progress .flow)) : RunM (Progress .flow) := do
  if ← holds v then next else leaveScope .normal

/-- Goes on with a loop as its body ended. -/
def afterBody (flow : Flow) (next : RunM (Progress .flow)) : RunM (Progress .flow) :=
  match flow with
  | .normal | .continues => next
  | .breaks => leaveScope .normal
  | .returns v => leaveScope (.returns v)

def whileNext (condition : Expr) (body : Stmt) (inSwitch : Bool) : RunM (Progress .flow) :=
  visit condition none (.one (.whileCondition condition body inSwitch))

def doNext (condition : Expr) (body : Stmt) (inSwitch : Bool) : RunM (Progress .flow) :=
  visitStmt body inSwitch (.one (.doBody condition body inSwitch))

def forRun (l : ForLoop) : RunM (Progress .flow) := visitStmt l.body l.inSwitch (.one (.forBody l))

/-- Begins a round. -/
def forNext (l : ForLoop) : RunM (Progress .flow) :=
  match l.condition with
  | some e => visit e none (.one (.forCondition l))
  | none => forRun l

/-- Ends a round. -/
def forAdvance (l : ForLoop) : RunM (Progress .flow) :=
  match l.step with
  | some e => visit e none (.one (.forStep l))
  | none => forNext l

/-- The method that gives what a loop over an object goes over. -/
def iteratorMethod : String := "__iterator"

def notIterable {α : Type} (range : Expr) (v : Value) : RunM α := do
  match range with
  | .identifier _ name => fail (.statement (.notIterableVariable name))
  | _ => fail (.statement (.notIterable (← text v)))

/-- Declares the variable of a loop as an element: an alias of it, or a copy. -/
def bindElement (spec : TypeSpec) (d : Declarator) (element : Value) : RunM Unit := do
  let base ← if spec.isAuto then pure element.ty else ask (ReadM.baseType spec)
  let declared ← ask (ReadM.declarator base spec.isConst d)
  let name ← nameOf declared "loop variable"
  if declared.reference then bindReference name declared element
  else
    defineVariable name
      ((← operate (OperatorM.copy element declared.type)).withReadonly declared.readonly)

/-- Goes over the elements that are left. -/
def eachNext (l : EachLoop) : RunM (Progress .flow) := do
  match l.places with
  | [] => leaveScope .normal
  | p :: rest =>
    match ← inspect fun s => s.load? p with
    | none => leaveScope .normal
    | some element =>
      if l.text && element.int? == some 0 then leaveScope .normal
      else
        pushScope "IterationStatement_foreach_item"
        bindElement l.spec l.d element
        visitStmt l.body l.inSwitch (.one (.eachBody { l with places := rest }))

/-- Goes over the elements of an array from its position on. -/
def eachElement (spec : TypeSpec) (d : Declarator) (range : Expr) (body : Stmt) (inSwitch : Bool)
    (v : Value) : RunM (Progress .flow) := do
  match v.array? with
  | none => notIterable range v
  | some (store, position) =>
    let size ← inspect fun s => (s.heap.cells store).size
    let start := position.toNat
    let places := (List.range' start (size - start)).map (Place.element store ·)
    let text := (v.ty.pointee?.bind Ty.arith?).any ArithKind.isChar
    eachNext ⟨spec, d, body, inSwitch, places, text⟩

/-- Goes over an array, or over what an object gives to go over. -/
def eachBegin (spec : TypeSpec) (d : Declarator) (range : Expr) (body : Stmt) (inSwitch : Bool)
    (v : Value) : RunM (Progress .flow) := do
  match v.ty with
  | .struct name _ =>
    if ((← get).tables.table (.struct name)).contains iteratorMethod then
      let method ← member v iteratorMethod
      (← call method []).andThen (.eachIterable spec d range body inSwitch)
        (eachElement spec d range body inSwitch)
    else notIterable range v
  | _ => eachElement spec d range body inSwitch v

end RunM

end Stepwise
