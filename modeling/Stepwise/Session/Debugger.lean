import Stepwise.Session.Run

/-! # Debuggers

A run with named break conditions, and a view of the variables between steps.
-/

namespace Stepwise

/-- A named reason to stop, which counts while it is enabled. -/
structure BreakCondition where
  name : String
  holds : StopTest
  enabled : Bool := false

namespace BreakCondition

/-- The next node is a statement. -/
def isStatement : StopTest := fun _ next => next.any fun node => node.kind.isStatement

/-- The next node starts elsewhere. -/
def positionChanged : StopTest := fun previous next =>
  (previous.map fun node => node.span.start) != (next.map fun node => node.span.start)

/-- The next node is on another line. -/
def lineChanged : StopTest := fun previous next =>
  (previous.map fun node => node.span.line) != (next.map fun node => node.span.line)

/-- The next node has a kind. -/
def hasKind (kind : NodeKind) : StopTest := fun _ next => next.any fun node => node.kind = kind

/-- The conditions that every debugger begins with. -/
def initial : List BreakCondition :=
  [⟨"is_statement", isStatement, false⟩, ⟨"position_changed", positionChanged, false⟩,
    ⟨"line_changed", lineChanged, true⟩]

end BreakCondition

/-- A variable as it is shown. -/
structure VariableRow where
  name : String
  type : String
  value : String
  deriving DecidableEq, Repr

namespace State

def row (s : State) (name : String) (v : Value) : VariableRow :=
  ⟨name, v.ty.text, s.heap.text v⟩

/-- The variable that a name stands for. -/
def shown? (s : State) (name : String) : Option VariableRow :=
  (s.value? name).map (s.row name)

/-- The variables in view, the innermost first; functions are left out. -/
def variableRows (s : State) : List VariableRow :=
  s.scopes.bindings.filterMap fun (name, p) =>
    match s.load? p with
    | some v => if v.ty.isFunction then none else some (s.row name v)
    | none => none

end State

structure Debugger where
  run : Run
  source : String
  conditions : List BreakCondition := BreakCondition.initial

namespace Debugger

/-- Adds a condition that is disabled, or replaces the one of that name. -/
def setCondition (d : Debugger) (name : String) (holds : StopTest) : Debugger :=
  { d with conditions :=
      if d.conditions.any fun c => c.name == name then
        d.conditions.map fun c => if c.name = name then { c with holds } else c
      else d.conditions ++ [⟨name, holds, false⟩] }

/-- Enables or disables the condition of a name; nothing if there is none. -/
def toggle? (d : Debugger) (name : String) (enabled : Bool) : Option Debugger :=
  if d.conditions.any fun c => c.name == name then
    some { d with conditions :=
      d.conditions.map fun c => if c.name = name then { c with enabled } else c }
  else none

def isEnabled (d : Debugger) (name : String) : Bool :=
  d.conditions.any fun c => c.name == name && c.enabled

def step : Debugger → Except Fault StepResult × Debugger
  | ⟨run, source, conditions⟩ =>
    let (result, run) := run.step
    (result, ⟨run, source, conditions⟩)

/-- Runs on to a node at which `stop` holds, for at most `grant` steps. -/
def runTo (stop : StopTest) (grant : Nat) : Debugger → Report × Debugger
  | ⟨run, source, conditions⟩ =>
    let (report, run) := run.proceed stop .cancelled grant 0
    (report, ⟨run, source, conditions⟩)

/-- Runs on to the first node at which an enabled condition holds, for at most `grant` steps. -/
def resume (d : Debugger) (grant : Nat) : Report × Debugger :=
  let conditions := d.conditions
  runTo (fun previous next => conditions.any fun c => c.enabled && c.holds previous next) grant d

/-- Runs on to the first node on another line, for at most `grant` steps. -/
def nextLine (d : Debugger) (grant : Nat) : Report × Debugger :=
  runTo BreakCondition.lineChanged grant d

/-- The source text of the node that comes next. -/
def nodeText? (d : Debugger) : Option String :=
  d.run.cursor.map fun node => String.ofList (node.span.slice d.source.toList)

end Debugger

end Stepwise
