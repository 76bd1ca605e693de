import Stepwise.Machine.Frame
import Stepwise.Operator.Apply

/-! # Blocks and switches

A block runs its statements in a scope of its own and ends with the first one that
does not end normally. The body of a switch is walked from its first statement: every
case label is evaluated on the way, and statements run after a label that matches or
after the default label.
-/

namespace Stepwise

namespace RunM

/-- Leaves a scope and ends a statement. -/
def leaveScope (flow : Flow) : RunM (Progress .flow) := do
  popScope
  return .done flow

/-- Runs the statements of a block. -/
def runBlock (inSwitch : Bool) : List Stmt → RunM (Progress .flow)
  | [] => leaveScope .normal
  | s :: rest => visitStmt s inSwitch (.one (.block rest inSwitch))

/-- Goes on with a block after one of its statements. -/
def resumeBlock (rest : List Stmt) (inSwitch : Bool) (flow : Flow) : RunM (Progress .flow) :=
  if flow.isNormal then runBlock inSwitch rest else leaveScope flow

/-- Whether a condition holds. -/
def holds (v : Value) : RunM Bool := operate (OperatorM.condition v)

/-- Runs the branch that a condition chooses; the scope of the statement is open. -/
def runBranch (thenBranch : Stmt) (elseBranch : Option Stmt) (inSwitch : Bool) (v : Value) :
    RunM (Progress .flow) := do
  match ← holds v, elseBranch with
  | true, _ => visitStmt thenBranch inSwitch (.one .popScope)
  | false, some s => visitStmt s inSwitch (.one .popScope)
  | false, none => leaveScope .normal

/-- The value of a label equals the discriminant, converted to the type of the label. -/
def labelMatches (discriminant label : Value) : RunM Bool := do
  let converted ← operate (OperatorM.convert discriminant label.ty false)
  return (← operate (Operator.apply (.binary .eq) converted (some label))).truthy

/-- Walks the statements that are left of the body of a switch. -/
def walkSwitch (discriminant : Value) (running : Bool) : List Stmt → RunM (Progress .flow)
  | [] => return .done .normal
  | .caseLabel span value :: rest => do
    setCursor (some (Stmt.caseLabel span value).node)
    return .paused (.label value) (.one (.caseLabel ⟨rest, discriminant, running⟩))
  | .defaultLabel span :: rest => do
    setCursor (some (Stmt.defaultLabel span).node)
    return .paused (.switch ⟨rest, discriminant, true⟩ false) .nil
  | s :: rest =>
    if running then visitStmt s true (.one (.switchStatement ⟨rest, discriminant, running⟩))
    else walkSwitch discriminant running rest

def runSwitch (s : SwitchBody) : RunM (Progress .flow) :=
  walkSwitch s.discriminant s.running s.rest

/-- Goes on after a case label. -/
def passLabel (s : SwitchBody) (label : Value) : RunM (Progress .flow) := do
  let running ← if s.running then pure true else labelMatches s.discriminant label
  runSwitch { s with running }

/-- Goes on after a statement in the body of a switch. -/
def resumeSwitch (s : SwitchBody) (flow : Flow) : RunM (Progress .flow) :=
  if flow.isNormal then runSwitch s else return .done flow

/-- Ends a switch; a jump out of its body ends there. -/
def endSwitch (flow : Flow) : RunM (Progress .flow) :=
  leaveScope <| match flow with
    | .breaks => .normal
    | flow => flow

/-- Begins the body of a switch. -/
def enterSwitch (body : Stmt) (discriminant : Value) : RunM (Progress .flow) := do
  match body with
  | .compound span statements =>
    setCursor (some (Stmt.compound span statements).node)
    return .paused (.switch ⟨statements, discriminant, false⟩ true)
      (.cons .popScope (.one .endSwitch))
  | s => (← walkSwitch discriminant false [s]).andThen .endSwitch endSwitch

/-- Goes on where a switch was suspended at its block or its default label. -/
def resumeSwitchPause (s : SwitchBody) (opens : Bool) : RunM (Progress .flow) := do
  if opens then pushScope "CompoundStatement"
  runSwitch s

end RunM

end Stepwise
