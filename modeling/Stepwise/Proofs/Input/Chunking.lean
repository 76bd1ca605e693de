import Stepwise.Proofs.Closure.Invariants
import Stepwise.Proofs.Input.Waiting
import Stepwise.Proofs.Session.Evolution

/-! # Input in chunks

A host feeds input in whatever chunks it likes and takes steps in between. What a run comes
to depends only on the whole text: each schedule is joined with the one that feeds all of it
first and closes the input.
-/

namespace Stepwise

open RunM

namespace Run

variable {r r' : Run}

def supply (e : Supply) (r : Run) : Run := { r with state := r.state.supply e }

theorem supply_nothing (r : Run) : r.supply ⟨[], false⟩ = r := by
  rw [supply, State.supply, Console.supply_nothing]

section Open

variable (h : r.state.console.closed = false)

include h

theorem feed_eq_supply (text : String) : r.feed text = r.supply ⟨text.toList, false⟩ := by
  simp only [feed, onConsole, supply, State.supply, Console.supply_open h, Console.feed, h]

theorem close_feed_eq_supply (text : String) :
    (r.feed text).close = r.supply ⟨text.toList, true⟩ := by
  simp only [feed, close, onConsole, supply, State.supply, Console.supply_open h, Console.feed,
    Console.close]

end Open

/-- A step is what the computation does. -/
theorem step_congr {j k : Completion} {p : Pause j} {q : Pause k} {path : Frames j .value}
    {inner : Frames k .value} {config : Config} {s t : State}
    (h : RunM.step p path config s = RunM.step q inner config t) :
    step ⟨config, s, .suspended p path⟩ = step ⟨config, t, .suspended q inner⟩ := by
  simp only [step, h]

/-- A step that does not wait is the same whether input is fed before it or after it. -/
theorem step_supply (h : r.step.1 ≠ .ok .awaitingInput) (e : Supply) :
    (r.supply e).step = (r.step.1, r.step.2.supply e) := by
  obtain ⟨config, s, rest⟩ := r
  cases rest with
  | ended result => rfl
  | suspended p path =>
    have hx := (absorbs_step p path).settles e config s
    cases hs : RunM.step p path config s with
    | error fault t =>
      rw [hs] at hx
      rw [step_fault hs]
      exact step_fault hx
    | ok progress t =>
      rw [hs] at hx
      cases progress with
      | done v =>
        rw [step_done hs]
        exact step_done hx
      | paused q inner =>
        rw [step_paused hs] at h ⊢
        cases q with
        | input => exact absurd rfl h
        | _ => exact step_paused hx

/-- A step that waits leaves the run suspended at a read. -/
theorem suspended_of_waits (h : r.step = (.ok .awaitingInput, r')) :
    ∃ (j : Completion) (p : Pause j) (path : Frames j .value) (inner : Frames .value .value)
      (t : State), r = ⟨r.config, r.state, .suspended p path⟩ ∧
        RunM.step p path r.config r.state = .ok (.paused .input inner) t ∧
        r' = ⟨r.config, t, .suspended .input inner⟩ := by
  obtain ⟨config, s, rest⟩ := r
  cases rest with
  | ended result => cases result <;> cases h
  | suspended p path =>
    cases hs : RunM.step p path config s with
    | error fault t =>
      rw [step_fault hs] at h
      cases h
    | ok progress t =>
      cases progress with
      | done v =>
        rw [step_done hs] at h
        cases h
      | paused q inner =>
        rw [step_paused hs] at h
        cases q <;> cases h
        exact ⟨_, p, path, inner, t, rfl, hs, rfl⟩

section Waits

variable (h : r.step = (.ok .awaitingInput, r'))

include h

/-- A step waits only when there is no input. -/
theorem awaits_of_waits : r'.state.console.input = [] ∧ r'.state.console.closed = false := by
  obtain ⟨j, p, path, inner, t, -, hs, rfl⟩ := suspended_of_waits h
  exact (absorbs_step p path).waits hs

/-- What the run goes on with after the wait is what the step does if the input is there. -/
theorem step_supply_of_waits (e : Supply) : (r.supply e).step = (r'.supply e).step := by
  obtain ⟨j, p, path, inner, t, hr, hs, rfl⟩ := suspended_of_waits h
  have hx := (absorbs_step p path).settles e r.config r.state
  rw [hs] at hx
  rw [hr]
  exact step_congr hx

/-- Without more input the next step finds the run as it is. -/
theorem step_of_waits : r'.step = (.ok .awaitingInput, r') := by
  have hs := step_supply_of_waits h ⟨[], false⟩
  rw [supply_nothing, supply_nothing] at hs
  exact hs.symm.trans h

end Waits

end Run

/-- The input is closed after a computation if it was closed before. -/
def Contract.sameClosing : Contract where
  pre _ := True
  heap _ _ := True
  kept s t := t.console.closed = s.console.closed
  raises _ := True

theorem lawful_sameClosing : Contract.sameClosing.Lawful where
  heaps := ⟨fun _ => trivial, fun _ _ => trivial, fun _ _ => trivial, fun _ => trivial,
    fun _ => trivial⟩
  refl _ := rfl
  trans ht hu := Eq.trans hu ht
  stays _ _ := trivial
  raises _ _ := trivial
  orAt _ := trivial
  change hh s := congrArg Console.closed (hh.console_eq s)
  onHeap _ := rfl
  write _ _ := rfl

namespace Run

theorem closed_step (r : Run) : r.step.2.state.console.closed = r.state.console.closed :=
  kept_step lawful_sameClosing (fun _ => trivial) (fun s => s.console.closed_read)
    (fun _ _ _ _ => ⟨rfl, trivial⟩) trivial

theorem closed_steps (n : Nat) (r : Run) :
    (r.steps n).state.console.closed = r.state.console.closed := by
  induction n generalizing r with
  | zero => rfl
  | succ n ih => rw [steps_succ, ih, closed_step]

end Run

namespace HostMove

/-- The text that is fed altogether. -/
def fed : List HostMove → String
  | [] => ""
  | feed text :: moves => text ++ fed moves
  | _ :: moves => fed moves

/-- Nothing more is fed once the input is closed. -/
def ClosesLast : List HostMove → Prop
  | [] => True
  | close :: moves => fed moves = ""
  | _ :: moves => ClosesLast moves

end HostMove

namespace Run

open HostMove

variable {r r' : Run} {moves : List HostMove}

theorem close_of_closed (h : r.state.console.closed = true) : r.close = r := by
  rw [close, onConsole, Console.close, ← h]

theorem feed_empty (r : Run) : r.feed "" = r := by
  rw [feed, onConsole, Console.feed, String.toList_empty, List.append_nil]

theorem feed_feed (r : Run) (text more : String) :
    (r.feed text).feed more = r.feed (text ++ more) := by
  simp only [feed, onConsole, Console.feed, String.toList_append, List.append_assoc]

/-- Once the input is closed there are only steps left. -/
theorem play_closed (h : r.state.console.closed = true) (hfed : fed moves = "") :
    ∃ n, r.play moves = r.steps n := by
  induction moves generalizing r with
  | nil => exact ⟨0, rfl⟩
  | cons move moves ih =>
    cases move with
    | step =>
      obtain ⟨n, hn⟩ := ih (closed_step r ▸ h) hfed
      exact ⟨n + 1, hn⟩
    | feed text =>
      obtain ⟨rfl, hfed⟩ := String.append_eq_empty_iff.mp hfed
      rw [play, perform, feed_empty]
      exact ih h hfed
    | close =>
      rw [play, perform, close_of_closed h]
      exact ih h hfed

/-- Every schedule is joined with the one that feeds its whole text first. -/
theorem play_joins (h : r.state.console.closed = false) (hl : ClosesLast moves) :
    ∃ m n, (r.play moves).close.steps m = (r.feed (fed moves)).close.steps n := by
  induction moves generalizing r with
  | nil =>
    refine ⟨0, 0, ?_⟩
    rw [fed, feed_empty, play]
  | cons move moves ih =>
    cases move with
    | step =>
      obtain ⟨m, n, hmn⟩ := ih (closed_step r ▸ h) hl
      by_cases hw : r.step.1 = .ok .awaitingInput
      · -- The wait that the step ends with is over when the text is there.
        have hs := step_supply_of_waits (Prod.ext hw rfl) ⟨(fed moves).toList, true⟩
        rw [← close_feed_eq_supply h, ← close_feed_eq_supply (closed_step r ▸ h)] at hs
        refine ⟨m + 1, n + 1, ?_⟩
        rw [steps_add, play, perform, hmn, ← steps_add, steps_succ, ← hs]
        rfl
      · have hs := step_supply hw ⟨(fed moves).toList, true⟩
        rw [← close_feed_eq_supply h, ← close_feed_eq_supply (closed_step r ▸ h)] at hs
        refine ⟨m, n + 1, ?_⟩
        rw [play, perform, hmn, steps_succ]
        exact congrArg (fun x => x.2.steps n) hs.symm
    | feed text =>
      obtain ⟨m, n, hmn⟩ := ih (r := r.feed text) h hl
      rw [feed_feed] at hmn
      exact ⟨m, n, hmn⟩
    | close =>
      obtain ⟨n, hn⟩ := play_closed (r := r.close) rfl hl
      refine ⟨0, n, ?_⟩
      have hfed : fed (.close :: moves) = "" := hl
      rw [hfed, feed_empty, play, perform, hn]
      exact close_of_closed (closed_steps n r.close)

theorem steps_of_isFinished (h : r.isFinished = true) (n : Nat) : r.steps n = r := by
  obtain ⟨config, s, rest⟩ := r
  cases rest with
  | ended result => exact steps_of_ended rfl n
  | suspended => cases h

/-- Runs that have ended and are joined with the same run are the same. -/
theorem eq_of_joins {start : Run} {l m n n' : Nat} (hr : r.isFinished = true)
    (hr' : r'.isFinished = true) (h : r.steps l = start.steps n)
    (h' : r'.steps m = start.steps n') : r = r' := by
  rw [steps_of_isFinished hr] at h
  rw [steps_of_isFinished hr'] at h'
  calc r = r.steps n' := (steps_of_isFinished hr n').symm
    _ = start.steps (n + n') := by rw [h, steps_add]
    _ = start.steps (n' + n) := by rw [Nat.add_comm]
    _ = r'.steps n := by rw [h', steps_add]
    _ = r' := steps_of_isFinished hr' n

/-- However a text is cut into chunks, and however steps are taken in between, runs that have ended
have the same result and the same state. A step that waits for input has used up what there
was, and what it has done is what the same step does when more is fed before it; without more
input, the next step finds the run as it is. -/
theorem chunking_transparency :
    (∀ (r : Run) (moves moves' : List HostMove), r.state.console.closed = false →
      ClosesLast moves → ClosesLast moves' → fed moves = fed moves' →
      (r.play moves).isFinished = true → (r.play moves').isFinished = true →
        (r.play moves).close = (r.play moves').close) ∧
    ∀ r r' : Run, r.step = (.ok .awaitingInput, r') →
      r'.state.console.input = [] ∧ r'.state.console.closed = false ∧
        r'.step = (.ok .awaitingInput, r') ∧
        ∀ text, (r.feed text).step = (r'.feed text).step ∧
          (r.feed text).close.step = (r'.feed text).close.step := by
  constructor
  · intro r moves moves' hopen hl hl' hfed hend hend'
    obtain ⟨m, n, hmn⟩ := play_joins hopen hl
    obtain ⟨m', n', hmn'⟩ := play_joins hopen hl'
    rw [← hfed] at hmn'
    exact eq_of_joins hend hend' hmn hmn'
  · intro r r' h
    obtain ⟨hinput, hopen'⟩ := awaits_of_waits h
    have hopen : r.state.console.closed = false := by
      rw [← closed_step, h]
      exact hopen'
    refine ⟨hinput, hopen', step_of_waits h, fun text => ⟨?_, ?_⟩⟩
    · rw [feed_eq_supply hopen, feed_eq_supply hopen']
      exact step_supply_of_waits h _
    · rw [close_feed_eq_supply hopen, close_feed_eq_supply hopen']
      exact step_supply_of_waits h _

end Run

/-- `int x = 7; int (*w[1])() = {getchar}; int main() { return w[x = putchar(getchar())](); }` -/
def Program.readsTwice : Program :=
  let declarator (base : DeclaratorBase) (suffixes : List DeclaratorSuffix) : Declarator :=
    .mk default [] false base suffixes
  let name (s : String) : Expr := .identifier default s
  let call (f : Expr) (args : List Expr) : Expr := .call default f args
  let int : TypeSpec := ⟨[], ["int"], default⟩
  let one : Expr := .literal default (.int 1 10 false false)
  let table : Declarator := .mk default [false] false (.named "w") [.array (some one)]
  let index := .assign default none (name "x") (call (name "putchar") [call (name "getchar") []])
  { includes := ["cstdio"]
    items := [
      .declaration default ⟨int, [⟨declarator (.named "x") [],
        some (.expr (.literal default (.int 7 10 false false)))⟩]⟩,
      .declaration default ⟨int, [⟨declarator (.nested table) [.params [] false],
        some (.list default [.expr (name "getchar")])⟩]⟩,
      .function default (.mk int (declarator (.named "main") [.params [] false])
        (.compound default [.returnJump default
          (some (call (.index default (name "w") index) []))]))] }

namespace Run

open HostMove

theorem answers_of_toOption {r : Run} {answer : StepResult}
    (h : r.step.1.toOption = some answer) :
    r.step = (.ok answer, r.step.2) := by
  cases hs : r.step.1 with
  | error fault => rw [hs] at h; cases h
  | ok x => rw [hs] at h; cases h; exact Prod.ext hs rfl

/-- A step that waits for the second character has read and written the first one, and has stored
it. -/
theorem waiting_step_has_effects :
    let r := (ofProgram {} .readsTwice { input := ['\x00'] } {}).steps 16
    r.step = (.ok .awaitingInput, r.step.2) ∧
      (r.state.value? "x").bind Value.int? = some 7 ∧
      (r.step.2.state.value? "x").bind Value.int? = some 0 ∧
      r.state.console.output = "" ∧ r.step.2.state.console.output = "\x00" ∧
      r.state.console.input = ['\x00'] ∧ r.step.2.state.console.input = [] := by
  intro r
  exact ⟨answers_of_toOption (by decide +kernel), by decide +kernel⟩

/-- The two characters come at once, or one by one. -/
theorem chunking_transparency_readsTwice :
    let r := ofProgram {} .readsTwice {} {}
    let atOnce : List HostMove := .feed "\x00A" :: List.replicate 20 .step
    let oneByOne : List HostMove := List.replicate 18 .step ++ [.feed "\x00", .step, .step,
      .feed "A", .step, .step, .step, .close]
    (r.play atOnce).exitStatus? = some 65 ∧ (r.play atOnce).close = (r.play oneByOne).close ∧
      (r.steps 17).step = (.ok .awaitingInput, r.steps 17) := by
  intro r atOnce oneByOne
  obtain ⟨hruns, hwaits⟩ := chunking_transparency
  have hends : (r.play atOnce).isFinished = true ∧ (r.play oneByOne).isFinished = true := by
    decide +kernel
  have hwait : (r.steps 16).step = (.ok .awaitingInput, r.steps 17) :=
    answers_of_toOption (by decide +kernel)
  refine ⟨by decide +kernel, ?_, (hwaits _ _ hwait).2.2.1⟩
  exact hruns r atOnce oneByOne rfl trivial rfl rfl hends.1 hends.2

end Run

end Stepwise
