import Stepwise.Machine.Statement

/-! # Steps

One step takes a run from one pause to the next: the pause goes on, and a result is
passed out through the frames until something pauses again. A fault passes out in the
same way. It takes the first node that it meets, and calls on its way are left.
-/

namespace Stepwise

namespace RunM

/-- The value of `main` as a status of 32 bits. -/
def exitStatus (v : Value) : RunM Value := do
  if v.ty.isVoid then return .int .int 0
  let status ← operate (OperatorM.convert v .int false)
  return .int .int ((status.int?.getD 0).bmod (pow2 32))

def callMain : RunM (Progress .value) := do
  let main ← named ((← get).value? "main") "main"
  (← call main []).andThen .exitStatus fun v => return .done (← exitStatus v)

/-- Visits the items of a program that are left, and calls `main` at the end. -/
def runItems : List Stmt → RunM (Progress .value)
  | [] => callMain
  | s :: rest => visitStmt s false (.one (.items rest))

/-- Loads the libraries of a program and begins with its items. -/
def begin (p : Program) : RunM (Progress .value) := do
  for name in (← read).defaultLibraries ++ p.includes do
    loadLibrary name
  runItems p.items

variable {α : Type} {j k : Completion}

/-- Goes on from a pause. -/
def resumePause : Pause j → RunM (Progress j)
  | .start p => begin p
  | .expr e hint => evaluate e hint
  | .stmt s inSwitch => execute s inSwitch
  | .label value => visit value none .nil
  | .switch s opens => resumeSwitchPause s opens
  | .input => readCharacter

/-- Gives a frame the result that it waits for. -/
def resumeFrame : {j k : Completion} → Frame j k → j.Result → RunM (Progress k)
  | _, _, .leave node previous, r => do
    setCursor (previous <|> some node)
    return .done r
  | _, _, .rightOperand op right hint, l => visit right hint (.one (.operate op l))
  | _, _, .operate op l, r => applyTo op l r
  | _, _, .logical op right hint, l => decideLogical op right hint l
  | _, _, .truth, v => return .done (.bool (← holds v))
  | _, _, .assign op value, target => do
    visit value (← inspect fun s => s.structOf? target.ty) (.one (.operate op target))
  | _, _, .unary op, v => applyUnary op v
  | _, _, .choose thenExpr elseExpr hint, v => do
    visit (if ← holds v then thenExpr else elseExpr) hint .nil
  | _, _, .callee args hint, f => nextArgument f [] hint args
  | _, _, .argument f values rest hint, v => nextArgument f (v :: values) hint rest
  | _, _, .member name throughPointer, object => memberOf object name throughPointer
  | _, _, .cast ty, v => return .done (← operate (OperatorM.convert v ty true))
  | _, _, .size, v => sizeValue v.ty
  | _, _, .defaultArgument entry body name param rest, v => takeDefault entry body name param rest v
  | _, _, .endCall entry depth, flow => endCall entry depth flow
  | _, _, .exitStatus, v => return .done (← exitStatus v)
  | _, _, .fill f, v => resumeFilling f v
  | _, _, .convert ty readonly, v => make (.copy ty v readonly)
  | _, _, .arrayFrom ty readonly, v => makeArrayFrom ty readonly v
  | _, _, .single ty readonly, v => makeSingle ty readonly v
  | _, _, .storeFirst v readonly, array => storeFirst v readonly array
  | _, _, .openBound element readonly, v => makeOpen element readonly v
  | _, _, .bind binding spec rest, v => do
    bind binding v
    declareAll spec rest
  | _, _, .discard, _ => return .done .normal
  | _, _, .block rest inSwitch, flow => resumeBlock rest inSwitch flow
  | _, _, .popScope, flow => leaveScope flow
  | _, _, .ifThen thenBranch elseBranch inSwitch, v => runBranch thenBranch elseBranch inSwitch v
  | _, _, .switch body, v => enterSwitch body v
  | _, _, .caseLabel s, v => passLabel s v
  | _, _, .switchStatement s, flow => resumeSwitch s flow
  | _, _, .endSwitch, flow => endSwitch flow
  | _, _, .whileCondition condition body inSwitch, v =>
    whileHolds v (visitStmt body inSwitch (.one (.whileBody condition body inSwitch)))
  | _, _, .whileBody condition body inSwitch, flow =>
    afterBody flow (whileNext condition body inSwitch)
  | _, _, .doBody condition body inSwitch, flow =>
    afterBody flow (visit condition none (.one (.doCondition condition body inSwitch)))
  | _, _, .doCondition condition body inSwitch, v => whileHolds v (doNext condition body inSwitch)
  | _, _, .forInit l, _ => forNext l
  | _, _, .forCondition l, v => whileHolds v (forRun l)
  | _, _, .forBody l, flow => afterBody flow (forAdvance l)
  | _, _, .forStep l, _ => forNext l
  | _, _, .eachRange spec d range body inSwitch, v => eachBegin spec d range body inSwitch v
  | _, _, .eachIterable spec d range body inSwitch, v => eachElement spec d range body inSwitch v
  | _, _, .eachBody l, flow => do
    popScope
    afterBody flow (eachNext l)
  | _, _, .returns, v => return .done (.returns (some v))
  | _, _, .items rest, _ => runItems rest

/-- Passes a fault out through frames. -/
def unwind : {j k : Completion} → Frames j k → Fault → RunM α
  | _, _, .nil, fault => throw fault
  | _, _, .cons (.leave node _) rest, fault => unwind rest (fault.orAt (some node))
  | _, _, .cons (.endCall _ depth) rest, fault => do
    leaveScopes depth
    unwind rest fault
  | _, _, .cons _ rest, fault => unwind rest fault

/-- Goes on with a computation inside frames, and with `next` if it ends. -/
def within (path : Frames j k) (x : RunM (Progress j)) (next : j.Result → RunM (Progress k)) :
    RunM (Progress k) := do
  match ← outcome x with
  | .ok (.done r) => next r
  | .ok (.paused p inner) => return .paused p (inner ++ path)
  | .error fault => unwind path fault

/-- Passes a result out through frames. -/
def resumeFrames : {j k : Completion} → Frames j k → j.Result → RunM (Progress k)
  | _, _, .nil, r => return .done r
  | _, _, .cons frame rest, r => within rest (resumeFrame frame r) (resumeFrames rest)

/-- One step from a pause inside frames. -/
def step (p : Pause j) (path : Frames j k) : RunM (Progress k) :=
  within path (resumePause p) (resumeFrames path)

end RunM

end Stepwise
