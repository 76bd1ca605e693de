import Stepwise.Session.Debugger
import Stepwise.Session.Run

/-! # Schedules and the end of a run

A step either suspends a run again or ends it. A run that has ended stays as it is, and
answers every further step with its result.
-/

namespace Stepwise

namespace Run

variable {r : Run} {j k : Completion} {p : Pause j} {path : Frames j .value} {config : Config}
  {s t : State}

theorem step_paused {q : Pause k} {inner : Frames k .value}
    (h : RunM.step p path config s = .ok (.paused q inner) t) :
    step ⟨config, s, .suspended p path⟩ =
      (.ok (if q.awaitsInput then .awaitingInput else .running),
        ⟨config, t, .suspended q inner⟩) := by
  simp only [step, h]

theorem step_done {v : Value} (h : RunM.step p path config s = .ok (.done v) t) :
    step ⟨config, s, .suspended p path⟩ =
      (.ok (.finished (v.int?.getD 0)), ⟨config, t, .ended (.ok (v.int?.getD 0))⟩) := by
  simp only [step, h]

theorem step_fault {fault : Fault} (h : RunM.step p path config s = .error fault t) :
    step ⟨config, s, .suspended p path⟩ =
      (.error fault, ⟨config, t, .ended (.error fault)⟩) := by
  simp only [step, h]

variable {result : Except Fault Int}

theorem exitStatus?_eq_some {status : Int} :
    r.exitStatus? = some status ↔ r.rest = .ended (.ok status) := by
  unfold exitStatus?
  split
  · rename_i h
    simp only [h, Option.some.injEq, Remaining.ended.injEq, Except.ok.injEq]
  · rename_i h
    exact ⟨nofun, fun hr => absurd hr (h status)⟩

theorem step_of_ended (h : r.rest = .ended result) :
    r.step = (result.map StepResult.finished, r) := by
  cases r with
  | mk config state rest => cases h; rfl

theorem steps_of_ended (h : r.rest = .ended result) (n : Nat) : r.steps n = r := by
  induction n with
  | zero => rfl
  | succ n ih => rw [steps_succ, step_of_ended h, ih]

/-- A step that answers with a result has ended the run, or found it ended. -/
theorem ended_of_step (h : r.step.1 = result.map StepResult.finished) :
    r.step.2.rest = .ended result := by
  obtain ⟨config, s, rest⟩ := r
  cases rest with
  | ended earlier => cases earlier <;> cases result <;> cases h <;> rfl
  | suspended p path =>
    cases hs : RunM.step p path config s with
    | error fault t =>
      rw [step_fault hs] at h ⊢
      cases result <;> cases h
      rfl
    | ok progress t =>
      cases progress with
      | paused q inner =>
        rw [step_paused hs] at h
        cases result with
        | error f => cases h
        | ok status => cases hq : q.awaitsInput <;> · rw [hq] at h; cases h
      | done v =>
        rw [step_done hs] at h ⊢
        cases result <;> cases h
        rfl

end Run

/-- `int main() { return 3; }` -/
def Program.returnThree : Program where
  includes := []
  items := [.function default (.mk ⟨[], ["int"], default⟩
    (.mk default [] false (.named "main") [.params [] false])
    (.compound default [.returnJump default (some (.literal default (.int 3 10 false false)))]))]

example : ((Run.ofProgram {} .returnThree {} {}).steps 5).exitStatus? = some 3 := by
  decide +kernel

end Stepwise

/-! ## Host schedules

Hosts take steps through several drivers, in whatever order. What a sequence of calls leads
to is what as many single steps lead to, and each call answers as the last step that it
took. A run that has ended stays as it is and gives its result again.
-/

namespace Stepwise

/-- What the last step before the outcome answered. -/
def Outcome.answer : Outcome → StepResult
  | finished status => .finished status
  | awaitingInput => .awaitingInput
  | cancelled | paused => .running

/-- How a single step ends, seen as a sequence of steps. -/
def StepResult.outcome : StepResult → Outcome
  | running => .paused
  | awaitingInput => .awaitingInput
  | finished status => .finished status

@[simp] theorem StepResult.answer_outcome (x : StepResult) : x.outcome.answer = x := by
  cases x <;> rfl

/-- A report that is true of the next steps of a run: the run went on until the last one of them,
and that one answered what the report says. -/
structure Report.Describes (report : Report) (r : Run) : Prop where
  went : ∀ i, i + 1 < report.quanta → (r.steps i).step.1 = .ok .running
  last : ∀ i, i + 1 = report.quanta → (r.steps i).step.1 = report.outcome.map Outcome.answer
  none : report.quanta = 0 → report.outcome.map Outcome.answer = .ok .running

/-- A report of a result is about steps that have ended the run. -/
theorem Report.Describes.ended {report : Report} {r : Run} (h : report.Describes r)
    {result : Except Fault Int} (ho : report.outcome = result.map Outcome.finished) :
    (r.steps report.quanta).rest = .ended result := by
  have ha : report.outcome.map Outcome.answer = result.map StepResult.finished := by
    rw [ho]
    cases result <;> rfl
  cases hq : report.quanta with
  | zero =>
    have := (h.none hq).symm.trans ha
    cases result <;> cases this
  | succ n =>
    rw [Run.steps_add n 1]
    exact Run.ended_of_step ((h.last n hq.symm).trans ha)

namespace Run

variable {r : Run} {o : Except Fault Outcome} {n : Nat}

theorem describes_zero (h : o.map Outcome.answer = .ok .running) :
    (⟨o, 0⟩ : Report).Describes r where
  went _ hi := absurd hi (Nat.not_lt_zero _)
  last _ hi := absurd hi (Nat.succ_ne_zero _)
  none _ := h

theorem describes_one (h : r.step.1 = o.map Outcome.answer) : (⟨o, 1⟩ : Report).Describes r where
  went i hi := absurd (Nat.lt_of_succ_lt_succ hi) (Nat.not_lt_zero i)
  last i hi := by cases Nat.succ.inj hi; exact h
  none h := nomatch h

theorem describes_succ (h : r.step.1 = .ok .running) (hr : (⟨o, n⟩ : Report).Describes r.step.2) :
    (⟨o, n + 1⟩ : Report).Describes r where
  went i hi := by
    cases i with
    | zero => exact h
    | succ i => exact hr.went i (Nat.lt_of_succ_lt_succ hi)
  last i hi := by
    cases i with
    | zero =>
      cases Nat.succ.inj hi
      exact h.trans (hr.none rfl).symm
    | succ i => exact hr.last i (Nat.succ.inj hi)
  none h := nomatch h

/-- A driver takes single steps, and gives up only when its grant is used up. -/
theorem proceed_eq_steps (stop : StopTest) {used : Outcome} (hu : used.answer = .running)
    (grant taken : Nat) (r : Run) :
    ∃ o n, r.proceed stop used grant taken = (⟨o, taken + n⟩, r.steps n) ∧ n ≤ grant ∧
      (o = .ok .cancelled → n = grant) ∧ (⟨o, n⟩ : Report).Describes r := by
  induction grant generalizing taken r with
  | zero => exact ⟨.ok used, 0, rfl, Nat.le_refl 0, fun _ => rfl, describes_zero (congrArg _ hu)⟩
  | succ grant ih =>
    have hgrant : 1 ≤ grant + 1 := Nat.le_add_left 1 grant
    cases h : r.step with | mk answer r' =>
    have hr : r' = r.steps 1 := by rw [steps_succ, h]; rfl
    have ha : r.step.1 = answer := by rw [h]
    cases answer with
    | error fault =>
      refine ⟨.error fault, 1, ?_, hgrant, nofun, describes_one ha⟩
      simp only [proceed, h, hr]
    | ok x => cases x with
      | finished status =>
        refine ⟨.ok (.finished status), 1, ?_, hgrant, nofun, describes_one ha⟩
        simp only [proceed, h, hr]
      | awaitingInput =>
        refine ⟨.ok .awaitingInput, 1, ?_, hgrant, nofun, describes_one ha⟩
        simp only [proceed, h, hr]
      | running =>
        by_cases hs : stop r.cursor r'.cursor = true
        · refine ⟨.ok .paused, 1, ?_, hgrant, nofun, describes_one ha⟩
          simp only [proceed, h, hs, if_true]
          rw [hr]
        · obtain ⟨o, n, hp, hn, hc, hd⟩ := ih (taken + 1) r'
          have hd : (⟨o, n⟩ : Report).Describes r.step.2 := by rwa [h]
          refine ⟨o, n + 1, ?_, Nat.succ_le_succ hn, fun ho => by rw [hc ho], describes_succ ha hd⟩
          simp only [proceed, h, hs, Bool.false_eq_true, if_false, hp, steps_succ,
            Nat.add_assoc, Nat.add_comm 1 n]

theorem proceed_describes (stop : StopTest) {used : Outcome} (hu : used.answer = .running)
    (grant : Nat) (r : Run) :
    (r.proceed stop used grant 0).2 = r.steps (r.proceed stop used grant 0).1.quanta ∧
      (r.proceed stop used grant 0).1.Describes r := by
  obtain ⟨o, n, hp, -, -, hd⟩ := proceed_eq_steps stop hu grant 0 r
  rw [Nat.zero_add] at hp
  rw [hp]
  exact ⟨rfl, hd⟩

section Polls

/-- The loop of a driver that asks before every step whether to give up; nothing if it has not come
to an end after `fuel` steps. -/
def poll (cancel : Nat → Bool) (stop : StopTest) :
    (fuel taken : Nat) → Run → Option (Report × Run)
  | fuel, taken, r =>
    if cancel taken then some (⟨.ok .cancelled, taken⟩, r)
    else
      match fuel with
      | 0 => none
      | fuel + 1 =>
        let previous := r.cursor
        match r.step with
        | (.error fault, r) => some (⟨.error fault, taken + 1⟩, r)
        | (.ok (.finished status), r) => some (⟨.ok (.finished status), taken + 1⟩, r)
        | (.ok .awaitingInput, r) => some (⟨.ok .awaitingInput, taken + 1⟩, r)
        | (.ok .running, r) =>
          if stop previous r.cursor then some (⟨.ok .paused, taken + 1⟩, r)
          else poll cancel stop fuel (taken + 1) r

/-- Of a host that is asked whether to give up it only matters how often it lets the driver go
on. -/
theorem proceed_of_poll {cancel : Nat → Bool} {stop : StopTest} {fuel taken : Nat} {r : Run}
    {report : Report} {r' : Run} (h : poll cancel stop fuel taken r = some (report, r')) :
    ∃ grant, (∀ i < grant, cancel (taken + i) = false) ∧
      r.proceed stop .cancelled grant taken = (report, r') := by
  unfold poll at h
  split at h
  · cases h
    exact ⟨0, fun _ hi => absurd hi (Nat.not_lt_zero _), rfl⟩
  · rename_i hc
    have hone : ∀ i < 1, cancel (taken + i) = false := fun i hi => by
      rw [Nat.lt_one_iff.mp hi]
      exact Bool.eq_false_iff.mpr hc
    cases fuel with
    | zero => cases h
    | succ fuel =>
      dsimp only at h
      split at h
      · cases h; exact ⟨1, hone, by simp only [proceed, *]⟩
      · cases h; exact ⟨1, hone, by simp only [proceed, *]⟩
      · cases h; exact ⟨1, hone, by simp only [proceed, *]⟩
      · rename_i r₁ hs
        split at h
        · cases h; exact ⟨1, hone, by simp only [proceed, if_true, *]⟩
        · rename_i hstop
          obtain ⟨grant, hg, hp⟩ := proceed_of_poll h
          refine ⟨grant + 1, fun i hi => ?_, ?_⟩
          · cases i with
            | zero => exact hone 0 Nat.one_pos
            | succ i =>
              have := hg i (Nat.lt_of_succ_lt_succ hi)
              rwa [Nat.add_assoc, Nat.add_comm 1] at this
          · simp only [proceed, hs, hstop, hp, Bool.false_eq_true, if_false]

/-- A run goes on from tick to tick. -/
theorem proceed_add (m n taken : Nat) (r : Run) :
    r.proceed (fun _ _ => false) .cancelled (m + n) taken =
      match r.proceed (fun _ _ => false) .paused m taken with
      | (⟨.ok .paused, taken⟩, r) => r.proceed (fun _ _ => false) .cancelled n taken
      | x => x := by
  induction m generalizing taken r with
  | zero => rw [Nat.zero_add]; rfl
  | succ m ih =>
    rw [Nat.succ_add]
    cases h : r.step with | mk answer r' =>
    cases answer with
    | error fault => simp only [proceed, h]
    | ok x =>
      cases x with
      | running => simp only [proceed, h, Bool.false_eq_true, if_false, ih]
      | awaitingInput => simp only [proceed, h]
      | finished status => simp only [proceed, h]

/-- A run is one tick after another, as long as they do not end for a reason of their own. -/
theorem run_eq_tick (r : Run) (grant : Nat) (h : r.config.quantaPerTick ≤ grant) :
    r.run grant = match r.tick grant with
      | (⟨.ok .paused, taken⟩, r') =>
        r'.proceed (fun _ _ => false) .cancelled (grant - r.config.quantaPerTick) taken
      | x => x := by
  have htick : r.tick grant =
      r.proceed (fun _ _ => false) .paused r.config.quantaPerTick 0 := by
    unfold tick
    dsimp only
    rw [if_neg (Nat.not_lt.mpr h), Nat.min_eq_right h]
  have hadd := proceed_add r.config.quantaPerTick (grant - r.config.quantaPerTick) 0 r
  rw [Nat.add_sub_cancel' h] at hadd
  rw [htick]
  exact hadd

end Polls

end Run

/-- The calls by which a host takes steps. A grant is the number of times for which the host lets
the driver go on when it is asked whether to give up. -/
inductive HostCall
  | step
  | tick (grant : Nat)
  | run (grant : Nat)
  | resume (conditions : List BreakCondition) (grant : Nat)
  | nextLine (grant : Nat)

/-- What a call answers, and what it makes of the debugger. -/
def HostCall.perform : HostCall → Debugger → Report × Debugger
  | step, d => (⟨d.step.1.map StepResult.outcome, 1⟩, d.step.2)
  | tick grant, d => ((d.run.tick grant).1, { d with run := (d.run.tick grant).2 })
  | run grant, d => ((d.run.run grant).1, { d with run := (d.run.run grant).2 })
  | resume conditions grant, d => { d with conditions }.resume grant
  | nextLine grant, d => d.nextLine grant

/-- The number of steps that reports tell of together. -/
def Report.total : List Report → Nat
  | [] => 0
  | report :: reports => report.quanta + total reports

/-- The reports are true of the run, one after the other. -/
def Run.Told (r : Run) : List Report → Prop
  | [] => True
  | report :: reports => report.Describes r ∧ (r.steps report.quanta).Told reports

/-- Whichever driver is called, it takes single steps and reports them. -/
theorem HostCall.perform_eq_steps (call : HostCall) (d : Debugger) :
    (call.perform d).2.run = d.run.steps (call.perform d).1.quanta ∧
      (call.perform d).1.Describes d.run := by
  obtain ⟨run, source, conditions⟩ := d
  cases call with
  | step =>
    refine ⟨rfl, Run.describes_one ?_⟩
    cases h : run.step.1 with
    | error fault => simp only [Debugger.step, h]; rfl
    | ok x => simp only [Debugger.step, h, Except.map, StepResult.answer_outcome]
  | tick grant => exact Run.proceed_describes _ (by split <;> rfl) _ run
  | run grant => exact Run.proceed_describes _ rfl grant run
  | resume conditions grant => exact Run.proceed_describes _ rfl grant run
  | nextLine grant => exact Run.proceed_describes _ rfl grant run

namespace Debugger

/-- Performs calls one after the other. -/
def performAll : List HostCall → Debugger → List Report × Debugger
  | [], d => ([], d)
  | call :: calls, d =>
    let (report, d) := call.perform d
    let (reports, d) := performAll calls d
    (report :: reports, d)

end Debugger

end Stepwise
