import Stepwise.Proofs.Locality.Steps
import Stepwise.Proofs.Session.Schedules

/-! # Runs under both overflow policies

Wrapping numbers change nothing for a run that does not overflow. Step by step, the run
under wrapping numbers is suspended where the other one is, in the same state, and ends as
it ends, until that one faults with an overflow.
-/

namespace Stepwise

/-- The configuration with an overflow policy. -/
def Config.withOverflow (c : Config) (policy : OverflowPolicy) : Config :=
  { c with numerics := { c.numerics with overflow := policy } }

namespace Surroundings

variable {j k : Completion} {b : Footing} {s : State}

/-- No callers, and wrapping numbers. -/
def wrapping : Surroundings := { wraps := true }

theorem state_wrapping (s : State) : wrapping.state s = s := by
  simp only [state, scopes, wrapping, List.append_nil]

theorem progress_wrapping (p : Progress k) : wrapping.progress p = p := p.under_zero

/-- A step does the same under wrapping numbers, unless it faults with an overflow. -/
theorem step_wrapping {p : Pause j} {path : Frames j k}
    (hp : (Progress.paused p path).At wrapping b s) (c : Config) :
    match RunM.step p path c s with
    | .ok a t => a.At wrapping b t ∧ RunM.step p path (c.withOverflow .wrap) s = .ok a t
    | .error f t =>
      f.isOverflow = true ∨ RunM.step p path (c.withOverflow .wrap) s = .error f t := by
  have hx := mirrors_step hp c
  have hpath : path.under wrapping.outer.length = path := path.under_zero
  rw [hpath, state_wrapping] at hx
  cases h : RunM.step p path c s with
  | ok a t =>
    rw [h] at hx
    simp only [progress_wrapping, state_wrapping] at hx
    exact hx
  | error f t =>
    rw [h] at hx
    simp only [state_wrapping] at hx
    exact hx.imp And.right id

end Surroundings

namespace Run

variable {b : Footing} {r w : Run}

/-- The run after steps, and what the host does with the console before each one. -/
def driven : List (Console → Console) → Run → Run
  | [], r => r
  | f :: fs, r => driven fs (r.onConsole f).step.2

/-- The run has ended with an overflow. -/
def Overflowed (r : Run) : Prop := ∃ f, r.rest = .ended (.error f) ∧ f.isOverflow = true

/-- A run that has ended, or is suspended on a balanced path. -/
def Balanced (b : Footing) (r : Run) : Prop :=
  match r.rest with
  | .suspended p path => (Progress.paused p path).At Surroundings.wrapping b r.state
  | .ended _ => True

/-- The same run under wrapping numbers. -/
def wrapping (r : Run) : Run := { r with config := r.config.withOverflow .wrap }

/-- The run under wrapping numbers is where the other one is, unless that one overflowed. -/
def Extends (b : Footing) (w r : Run) : Prop := w = r.wrapping ∧ r.Balanced b ∨ r.Overflowed

theorem Extends.step (h : Extends b w r) : Extends b w.step.2 r.step.2 := by
  rcases h with ⟨rfl, hb⟩ | ⟨f, hf, ho⟩
  · obtain ⟨config, s, rest⟩ := r
    cases rest with
    | ended result => exact .inl ⟨rfl, trivial⟩
    | suspended p path =>
      have hb : (Progress.paused p path).At Surroundings.wrapping b s := hb
      have hx := Surroundings.step_wrapping hb config
      cases hs : RunM.step p path config s with
      | error f t =>
        rw [hs] at hx
        rw [step_fault hs]
        rcases hx with ho | hw
        · exact .inr ⟨f, rfl, ho⟩
        · exact .inl ⟨congrArg Prod.snd (step_fault hw), trivial⟩
      | ok progress t =>
        rw [hs] at hx
        obtain ⟨hb, hw⟩ := hx
        cases progress with
        | paused q inner =>
          rw [step_paused hs]
          exact .inl ⟨congrArg Prod.snd (step_paused hw), hb⟩
        | done v =>
          rw [step_done hs]
          exact .inl ⟨congrArg Prod.snd (step_done hw), trivial⟩
  · rw [step_of_ended hf]
    exact .inr ⟨f, hf, ho⟩

theorem Extends.onConsole (h : Extends b w r) (f : Console → Console) :
    Extends b (w.onConsole f) (r.onConsole f) := by
  rcases h with ⟨rfl, hb⟩ | ho
  · refine .inl ⟨rfl, ?_⟩
    obtain ⟨config, s, rest⟩ := r
    cases rest with
    | ended result => trivial
    | suspended p path =>
      have hb : (Progress.paused p path).At Surroundings.wrapping b s := hb
      exact hb.onConsole f
  · exact .inr ho

theorem Extends.driven (h : Extends b w r) (fs : List (Console → Console)) :
    Extends b (w.driven fs) (r.driven fs) := by
  induction fs generalizing w r with
  | nil => exact h
  | cons f fs ih => exact ih (h.onConsole f).step

theorem driven_of_ended {result : Except Fault Int} (h : r.rest = .ended result)
    (fs : List (Console → Console)) : (r.driven fs).rest = .ended result := by
  induction fs generalizing r with
  | nil => exact h
  | cons f fs ih =>
    have hf : (r.onConsole f).rest = .ended result := h
    exact ih (by rw [step_of_ended hf]; exact hf)

theorem driven_append (fs gs : List (Console → Console)) (r : Run) :
    r.driven (fs ++ gs) = (r.driven fs).driven gs := by
  induction fs generalizing r with
  | nil => rfl
  | cons f fs ih => exact ih _

theorem extends_ofProgram (c : Config) (p : Program) (console : Console) (files : FileSystem) :
    Extends ⟨{ console, files }, true⟩ (ofProgram (c.withOverflow .wrap) p console files)
      (ofProgram (c.withOverflow .fault) p console files) := by
  refine .inl ⟨rfl, ⟨{ console, files }, true⟩, ⟨fun _ => .of_outer rfl, fun _ => rfl, ?_⟩, ?_⟩
  · exact Footing.allows_start _
  · exact .nil (.refl _)

/-- The runs of a program under the two policies are alike step by step, whatever the host does
with the console, up to a step on which the faulting one overflows. If it has come that far
without a fault, then they have been alike all the way. -/
theorem wrap_extends_fault (c : Config) (p : Program) (console : Console) (files : FileSystem)
    (fs : List (Console → Console)) :
    let r n := (ofProgram (c.withOverflow .fault) p console files).driven (fs.take n)
    let w n := (ofProgram (c.withOverflow .wrap) p console files).driven (fs.take n)
    (∀ n, (w n).state = (r n).state ∧ (w n).rest = (r n).rest ∨ (r n).Overflowed) ∧
      ((∀ f, (r fs.length).rest ≠ .ended (.error f)) →
        ∀ n, (w n).state = (r n).state ∧ (w n).rest = (r n).rest) := by
  intro r w
  have halike (n : Nat) : (w n).state = (r n).state ∧ (w n).rest = (r n).rest ∨
      (r n).Overflowed := by
    refine ((extends_ofProgram c p console files).driven (fs.take n)).imp (fun ⟨hw, _⟩ => ?_) id
    have hw : w n = (r n).wrapping := hw
    rw [hw]
    exact ⟨rfl, rfl⟩
  refine ⟨halike, fun hr n => (halike n).resolve_right fun ⟨f, hf, _⟩ => hr f ?_⟩
  have hlast : r fs.length = (r n).driven (fs.drop n) := by
    simp only [r, ← driven_append, List.take_append_drop, List.take_length]
  rw [hlast]
  exact driven_of_ended hf _

theorem wrap_extends_fault_returnThree :
    ((ofProgram (({} : Config).withOverflow .wrap) .returnThree {} {}).driven
      (List.replicate 5 id)).exitStatus? = some 3 := by
  have hr : ((ofProgram (({} : Config).withOverflow .fault) .returnThree {} {}).driven
      (List.replicate 5 id)).rest = .ended (.ok 3) := exitStatus?_eq_some.mp (by decide +kernel)
  have h := (wrap_extends_fault {} .returnThree {} {} (List.replicate 5 id)).2
    (fun f hf => nomatch hr.symm.trans hf) 5
  exact exitStatus?_eq_some.mpr (h.2.trans hr)

end Run

end Stepwise
