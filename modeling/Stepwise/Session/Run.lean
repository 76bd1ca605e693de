import Stepwise.Machine.Step

/-! # Runs

A run of a program that a host drives step by step. Between two steps the host may look
at the state, feed input or give up. Every driver here takes steps one after the other,
so what it reaches is what that many single steps reach; a run that has ended stays as
it is.
-/

namespace Stepwise

/-- What is left of a run. -/
inductive Remaining
  | suspended {j : Completion} (p : Pause j) (path : Frames j .value)
  | ended (result : Except Fault Int)

structure Run where
  config : Config
  state : State
  rest : Remaining

/-- What a step came to. -/
inductive StepResult
  | running
  | awaitingInput
  | finished (status : Int)
  deriving DecidableEq, Repr

/-- How a sequence of steps ended. -/
inductive Outcome
  | finished (status : Int)
  | awaitingInput
  /-- The host granted no more steps. -/
  | cancelled
  /-- A tick was over, or there was a reason to stop. -/
  | paused
  deriving DecidableEq, Repr

/-- What a sequence of steps came to, and how many steps it took. -/
structure Report where
  outcome : Except Fault Outcome
  quanta : Nat

/-- A reason to stop between two nodes: the one that was left behind and the one that comes next. -/
abbrev StopTest := Option Node → Option Node → Bool

def Pause.awaitsInput {j : Completion} : Pause j → Bool
  | .input => true
  | _ => false

namespace Run

/-- A run that has not begun. -/
def ofProgram (config : Config) (p : Program) (console : Console) (files : FileSystem) : Run :=
  ⟨config, { console, files }, .suspended (.start p) .nil⟩

/-- The node that was entered last. -/
def cursor (r : Run) : Option Node := r.state.cursor

def isFinished (r : Run) : Bool :=
  match r.rest with
  | .suspended .. => false
  | .ended _ => true

/-- The status of a program that has returned from `main`. -/
def exitStatus? (r : Run) : Option Int :=
  match r.rest with
  | .ended (.ok status) => some status
  | _ => none

def onConsole (r : Run) (f : Console → Console) : Run :=
  { r with state := { r.state with console := f r.state.console } }

/-- Adds text to the input. -/
def feed (r : Run) (text : String) : Run := r.onConsole fun c => c.feed text

/-- Ends the input. -/
def close (r : Run) : Run := r.onConsole Console.close

/-- Takes one step. -/
def step : Run → Except Fault StepResult × Run
  | ⟨config, state, .ended result⟩ =>
    (result.map StepResult.finished, ⟨config, state, .ended result⟩)
  | ⟨config, state, .suspended p path⟩ =>
    match RunM.step p path config state with
    | .ok (.paused p path) state =>
      (.ok (if p.awaitsInput then .awaitingInput else .running),
        ⟨config, state, .suspended p path⟩)
    | .ok (.done v) state =>
      let status := v.int?.getD 0
      (.ok (.finished status), ⟨config, state, .ended (.ok status)⟩)
    | .error fault state => (.error fault, ⟨config, state, .ended (.error fault)⟩)

/-- The run after a number of steps. -/
def steps : Nat → Run → Run
  | 0, r => r
  | n + 1, r => steps n r.step.2

/-- Takes steps until the run ends, waits or has a reason to stop, or until the grant is used up;
`taken` steps came before. -/
def proceed (stop : StopTest) (used : Outcome) : (grant taken : Nat) → Run → Report × Run
  | 0, taken, r => (⟨.ok used, taken⟩, r)
  | grant + 1, taken, r =>
    let previous := r.cursor
    match r.step with
    | (.error fault, r) => (⟨.error fault, taken + 1⟩, r)
    | (.ok (.finished status), r) => (⟨.ok (.finished status), taken + 1⟩, r)
    | (.ok .awaitingInput, r) => (⟨.ok .awaitingInput, taken + 1⟩, r)
    | (.ok .running, r) =>
      if stop previous r.cursor then (⟨.ok .paused, taken + 1⟩, r)
      else proceed stop used grant (taken + 1) r

/-- Runs on for at most `grant` steps. -/
def run (r : Run) (grant : Nat) : Report × Run := r.proceed (fun _ _ => false) .cancelled grant 0

/-- Runs on for at most one tick, if the grant lasts that long. -/
def tick (r : Run) (grant : Nat) : Report × Run :=
  let quanta := r.config.quantaPerTick
  r.proceed (fun _ _ => false) (if grant < quanta then .cancelled else .paused)
    (min grant quanta) 0

theorem step_ended (config : Config) (state : State) (result : Except Fault Int) :
    step ⟨config, state, .ended result⟩ =
      (result.map StepResult.finished, ⟨config, state, .ended result⟩) := rfl

theorem steps_succ (n : Nat) (r : Run) : r.steps (n + 1) = r.step.2.steps n := rfl

theorem steps_add (m n : Nat) (r : Run) : r.steps (m + n) = (r.steps m).steps n := by
  induction m generalizing r with
  | zero => simp [steps]
  | succ m ih => simp [Nat.succ_add, steps_succ, ih]

end Run

end Stepwise
