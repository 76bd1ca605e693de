import Stepwise.Host.Config
import Stepwise.Host.Console
import Stepwise.Host.Files
import Stepwise.Operator.Basic
import Stepwise.Scope.Namespaces
import Stepwise.Scope.Stack
import Stepwise.Stdio.Function

/-! # The state of a run

Everything that a run reads and changes: cells, names, functions, types, console and
files, and the cursor, which is the node entered last. What a run does is a
computation on this state that may fail with a fault.
-/

namespace Stepwise

/-- The name and the default argument of a parameter, as its declaration gives them. -/
structure ParamInfo where
  name : Option String
  default : Option Expr

inductive FunctionBody
  /-- Declared, and not yet defined. -/
  | prototype
  | defined (body : Stmt)
  | library (f : StdioFunction)

/-- An overload: where it is filed, its type, and what a call of it runs. -/
structure FunctionEntry where
  name : String
  owner : Owner
  type : FunctionTy
  params : List ParamInfo
  body : FunctionBody

structure State where
  heap : Heap := {}
  scopes : Scopes Place := {}
  namespaces : Namespaces Place := {}
  tables : OwnerTables := []
  /-- The overloads by their numbers in the overload tables. -/
  functions : Array FunctionEntry := #[]
  structs : List (String × StructTy) := []
  typedefs : List (String × Ty) := []
  console : Console := {}
  files : FileSystem := {}
  openFiles : OpenFiles := {}
  loaded : List Library := []
  cursor : Option Node := none

namespace State

/-- The cell that a bare name stands for: in the scopes in view, then in the namespaces in use. -/
def lookup (s : State) (name : String) : Option Place :=
  s.scopes.lookup name <|> s.namespaces.lookupImported name

def load? (s : State) (p : Place) : Option Value := s.heap.load? p

/-- The value that a bare name stands for. -/
def value? (s : State) (name : String) : Option Value := (s.lookup name).bind s.load?

def struct? (s : State) (name : String) : Option StructTy := s.structs.lookup name

/-- The members that a struct has by now, if it is defined. -/
def currentStruct (s : State) (name : String) (members : List MemberTy) : StructTy :=
  (s.struct? name).getD ⟨name, members⟩

/-- The current definition of a struct type; other types have none. -/
def structOf? (s : State) : Ty → Option StructTy
  | .struct name members => some (s.currentStruct name members)
  | _ => none

end State

/-- What a run does: it reads the configuration, changes the state and may fail. -/
abbrev RunM := ReaderT Config (EStateM Fault State)

namespace RunM

/-- The fault of a cause at the cursor. -/
def fail {α : Type} (cause : FaultCause) : RunM α := do
  throw ⟨cause, (← get).cursor⟩

/-- Runs an operator at the cursor. -/
def operate {α : Type} (x : OperatorM α) : RunM α := fun config s =>
  let ctx : OperatorContext := ⟨config.numerics, s.tables, s.cursor⟩
  let heap := s.heap
  let s := { s with heap := {} }
  match (x.run ctx).run heap with
  | .ok a heap => .ok a { s with heap }
  | .error f heap => .error f { s with heap }

/-- Changes the heap. -/
def onHeap {α : Type} (x : HeapM α) : RunM α := operate x

def alloc (cells : Array Value) : RunM BlockId := onHeap (HeapM.alloc cells)

/-- Computes from the state without changing it. -/
def inspect {α : Type} (f : State → α) : RunM α := return f (← get)

def text (v : Value) : RunM String := inspect fun s => s.heap.text v

/-- The outcome of a computation, as a value. -/
def outcome {α : Type} (x : RunM α) : RunM (Except Fault α) := fun config s =>
  match x config s with
  | .ok a s => .ok (.ok a) s
  | .error f s => .ok (.error f) s

def setCursor (node : Option Node) : RunM Unit := modify fun s => { s with cursor := node }

def onScopes (f : Scopes Place → Scopes Place) : RunM Unit :=
  modify fun s => { s with scopes := f s.scopes }

def pushScope (name : String) : RunM Unit := onScopes fun s => s.push name

def popScope : RunM Unit := onScopes Scopes.pop

/-- Binds a name to a cell in the innermost scope. -/
def declare (name : String) (p : Place) : RunM Unit := do
  let s ← get
  match s.scopes.define? name p with
  | some scopes => set { s with scopes }
  | none => fail (.name (.alreadyDefined name s.scopes.current.name))

/-- Binds a name to a new cell in the innermost scope. -/
def defineVariable (name : String) (v : Value) : RunM Unit := do
  declare name (← onHeap (HeapM.newSlot v))

/-- Makes `d` the definition of its struct. -/
def defineStruct (d : StructTy) : RunM Unit := modify fun s =>
  { s with structs := (d.name, d) :: s.structs.filter fun (name, _) => name != d.name }

def defineTypedef (name : String) (ty : Ty) : RunM Unit := modify fun s =>
  { s with typedefs := (name, ty) :: s.typedefs.filter fun (n, _) => n != name }

end RunM

end Stepwise
