import Stepwise.Machine.Resolve

/-! # Suspended computations

A run is suspended at a node boundary or while it waits for input. What is left of it
is the pause itself and a path of frames, the innermost first: each frame takes the
result of the computation inside it. Results are values of expressions or the ways
in which statements end, and frames are typed by which they take and give.
-/

namespace Stepwise

/-- What a computation ends with. -/
inductive Completion
  | value
  | flow
  deriving DecidableEq, Repr

/-- How a statement ends. -/
inductive Flow
  | normal
  | breaks
  | continues
  | returns (v : Option Value)

def Flow.isNormal : Flow → Bool
  | normal => true
  | _ => false

abbrev Completion.Result : Completion → Type
  | value => Value
  | flow => Flow

/-- An object to be created, or a part of one. -/
inductive Making
  /-- The value of a variable without an initializer. -/
  | default (ty : Ty) (readonly : Bool)
  | initial (ty : Ty) (init : Initializer) (readonly : Bool) (hint : Option StructTy)
  /-- An array inside another one, from a list of its own. -/
  | row (ty : Ty) (items : List Initializer) (readonly : Bool) (hint : Option StructTy)
  | struct (d : StructTy) (items : List Initializer) (readonly : Bool) (hint : Option StructTy)
  /-- A value converted to the type. -/
  | copy (ty : Ty) (v : Value) (readonly : Bool)
  /-- An array with the elements of another one. -/
  | arrayOf (ty : Ty) (v : Value) (readonly : Bool)
  /-- A list where a single value is wanted. -/
  | nested

/-- An array or a struct that is being filled: the parts made so far, those to be made next, and
the number of further parts that get the default of a type. -/
structure Filling where
  target : Ty
  readonly : Bool
  made : Array Value
  next : List Making
  defaults : Nat
  element : Ty

/-- What becomes of the value of an initializer. -/
inductive Binding
  | name (name : String)
  | auto (spec : TypeSpec) (d : Declarator)
  | reference (name : String) (d : Declared)

/-- What is left of a switch: the labels and statements of its body that were not reached, the
value they are compared with, and whether a label has matched. -/
structure SwitchBody where
  rest : List Stmt
  discriminant : Value
  running : Bool

/-- A loop over the elements of an array. -/
structure EachLoop where
  spec : TypeSpec
  d : Declarator
  body : Stmt
  inSwitch : Bool
  places : List Place
  /-- The elements are characters, and a zero ends them. -/
  text : Bool

structure ForLoop where
  condition : Option Expr
  step : Option Expr
  body : Stmt
  inSwitch : Bool

/-- The part of a computation that waits for a result `j` and goes on to a result `k`. -/
inductive Frame : Completion → Completion → Type
  /-- The end of a visit: the cursor goes back, and faults get the node. -/
  | leave {k : Completion} (node : Node) (previous : Option Node) : Frame k k
  -- Expressions.
  | rightOperand (op : Operator) (right : Expr) (hint : Option StructTy) : Frame .value .value
  | operate (op : Operator) (left : Value) : Frame .value .value
  | logical (op : LogicalOp) (right : Expr) (hint : Option StructTy) : Frame .value .value
  | truth : Frame .value .value
  | assign (op : Operator) (value : Expr) : Frame .value .value
  | unary (op : UnaryOp) : Frame .value .value
  | choose (thenExpr elseExpr : Expr) (hint : Option StructTy) : Frame .value .value
  | callee (args : List Expr) (hint : Option StructTy) : Frame .value .value
  /-- The arguments evaluated so far, the last one first. -/
  | argument (f : Value) (values : List Value) (rest : List Expr) (hint : Option StructTy) :
    Frame .value .value
  | member (name : String) (throughPointer : Bool) : Frame .value .value
  | cast (ty : Ty) : Frame .value .value
  | size : Frame .value .value
  -- Calls.
  | defaultArgument (entry : FunctionEntry) (body : Stmt) (name : String) (param : ParamTy)
    (rest : List (ParamInfo × ParamTy)) : Frame .value .flow
  /-- The end of a call: the scopes of the caller come back. -/
  | endCall (entry : FunctionEntry) (depth : Nat) : Frame .flow .value
  /-- The status of a finished program. -/
  | exitStatus : Frame .value .value
  -- Objects.
  | fill (f : Filling) : Frame .value .value
  | convert (ty : Ty) (readonly : Bool) : Frame .value .value
  | arrayFrom (ty : Ty) (readonly : Bool) : Frame .value .value
  /-- A single value in the list of an array of arrays. -/
  | single (ty : Ty) (readonly : Bool) : Frame .value .value
  | storeFirst (v : Value) (readonly : Bool) : Frame .value .value
  /-- An array whose bound is the number of elements of the value. -/
  | openBound (element : Ty) (readonly : Bool) : Frame .value .value
  -- Statements.
  | bind (binding : Binding) (spec : TypeSpec) (rest : List InitDeclarator) : Frame .value .flow
  | discard : Frame .value .flow
  | block (rest : List Stmt) (inSwitch : Bool) : Frame .flow .flow
  | popScope : Frame .flow .flow
  | ifThen (thenBranch : Stmt) (elseBranch : Option Stmt) (inSwitch : Bool) : Frame .value .flow
  | switch (body : Stmt) : Frame .value .flow
  | caseLabel (s : SwitchBody) : Frame .value .flow
  | switchStatement (s : SwitchBody) : Frame .flow .flow
  | endSwitch : Frame .flow .flow
  | whileCondition (condition : Expr) (body : Stmt) (inSwitch : Bool) : Frame .value .flow
  | whileBody (condition : Expr) (body : Stmt) (inSwitch : Bool) : Frame .flow .flow
  | doBody (condition : Expr) (body : Stmt) (inSwitch : Bool) : Frame .flow .flow
  | doCondition (condition : Expr) (body : Stmt) (inSwitch : Bool) : Frame .value .flow
  | forInit (l : ForLoop) : Frame .flow .flow
  | forCondition (l : ForLoop) : Frame .value .flow
  | forBody (l : ForLoop) : Frame .flow .flow
  | forStep (l : ForLoop) : Frame .value .flow
  | eachRange (spec : TypeSpec) (d : Declarator) (range : Expr) (body : Stmt) (inSwitch : Bool) :
    Frame .value .flow
  | eachIterable (spec : TypeSpec) (d : Declarator) (range : Expr) (body : Stmt)
    (inSwitch : Bool) : Frame .value .flow
  | eachBody (l : EachLoop) : Frame .flow .flow
  | returns : Frame .value .flow
  | items (rest : List Stmt) : Frame .flow .value

/-- A path of frames from the inside to the outside. -/
inductive Frames : Completion → Completion → Type
  | nil {k : Completion} : Frames k k
  | cons {j k l : Completion} (frame : Frame j k) (rest : Frames k l) : Frames j l

namespace Frames

def append : {j k l : Completion} → Frames j k → Frames k l → Frames j l
  | _, _, _, nil, fs => fs
  | _, _, _, cons f rest, fs => cons f (append rest fs)

variable {i j k l : Completion}

instance : HAppend (Frames j k) (Frames k l) (Frames j l) := ⟨append⟩

def one (f : Frame j k) : Frames j k := cons f nil

@[simp] theorem nil_append (fs : Frames j k) : (nil : Frames j j) ++ fs = fs := rfl

@[simp] theorem cons_append (f : Frame i j) (fs : Frames j k) (gs : Frames k l) :
    cons f fs ++ gs = cons f (fs ++ gs) := rfl

@[simp] theorem append_nil (fs : Frames j k) : fs ++ (nil : Frames k k) = fs := by
  induction fs with
  | nil => rfl
  | cons f fs ih => simp [ih]

theorem append_assoc {m : Completion} (fs : Frames i j) (gs : Frames j k) (hs : Frames k m) :
    fs ++ gs ++ hs = fs ++ (gs ++ hs) := by
  induction fs with
  | nil => rfl
  | cons f fs ih => simp [ih]

end Frames

/-- Where a run is suspended. -/
inductive Pause : Completion → Type
  /-- Nothing has been run. -/
  | start (p : Program) : Pause .value
  /-- An expression was entered. -/
  | expr (e : Expr) (hint : Option StructTy) : Pause .value
  /-- A statement was entered. -/
  | stmt (s : Stmt) (inSwitch : Bool) : Pause .flow
  /-- The label of a case was entered, and its value comes next. -/
  | label (value : Expr) : Pause .value
  /-- The block of a switch or a default label in it was entered; a block has a scope to open. -/
  | switch (s : SwitchBody) (opens : Bool) : Pause .flow
  /-- A library function waits for a character. -/
  | input : Pause .value

/-- A computation that has ended or is suspended. -/
inductive Progress (k : Completion)
  | done (r : k.Result)
  | paused {j : Completion} (p : Pause j) (path : Frames j k)

namespace Progress

variable {j k : Completion}

/-- The computation as a part of a larger one: `f` takes its result now, or the frame does later. -/
def andThen (p : Progress j) (frame : Frame j k) (f : j.Result → RunM (Progress k)) :
    RunM (Progress k) :=
  match p with
  | .done r => f r
  | .paused p path => return .paused p (path ++ Frames.one frame)

end Progress

namespace RunM

variable {k : Completion}

/-- Enters an expression; the frames take its value. -/
def visit (e : Expr) (hint : Option StructTy) (next : Frames .value k) : RunM (Progress k) := do
  let previous := (← get).cursor
  setCursor (some e.node)
  return .paused (.expr e hint) (.cons (.leave e.node previous) next)

/-- Enters a statement; the frames take the way it ends. -/
def visitStmt (s : Stmt) (inSwitch : Bool) (next : Frames .flow k) : RunM (Progress k) := do
  let previous := (← get).cursor
  setCursor (some s.node)
  return .paused (.stmt s inSwitch) (.cons (.leave s.node previous) next)

end RunM

end Stepwise
