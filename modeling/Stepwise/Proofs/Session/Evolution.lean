import Stepwise.Proofs.Closure.Drives
import Stepwise.Proofs.Session.Schedules

/-! # Later states

Within a step many states follow one another: pauses and frames go on, and the declarators of a
declaration are worked off one by one. A state of a run evolves into those that come later,
inside the same step or after it, and what all parts of a run maintain holds in all of them.
-/

namespace Stepwise

open RunM

/-- The state in which a computation ends, with a result or a fault. -/
def RunM.after {α : Type} (x : RunM α) (c : Config) (s : State) : State :=
  match x c s with
  | .ok _ t | .error _ t => t

namespace RunM

variable {α : Type} {x : RunM α} {c : Config} {s t : State}

theorem after_ok {a : α} (h : x c s = .ok a t) : x.after c s = t := by
  rw [after, h]

theorem after_error {fault : Fault} (h : x c s = .error fault t) : x.after c s = t := by
  rw [after, h]

theorem Maintains.after {I : State → Prop} {R : Fault → Prop} {Q : α → Prop}
    (hx : x.Maintains I R c Q) (hs : I s) : I (x.after c s) := by
  cases h : x c s with
  | ok a t => exact after_ok h ▸ (hx.of_ok hs h).1
  | error fault t => exact after_error h ▸ (hx.of_error hs h).1

end RunM

/-- The state may become the other one in a run. -/
inductive State.Evolves (c : Config) (s : State) : State → Prop
  | refl : Evolves c s s
  /-- The cursor moves, and the host uses the console. -/
  | steady {t u : State} (h : Evolves c s t) (hu : t.Steady u) : Evolves c s u
  | pause {t : State} {j : Completion} (p : Pause j) (h : Evolves c s t) :
    Evolves c s ((resumePause p).after c t)
  | frame {t : State} {j k : Completion} (f : Frame j k) (r : j.Result) (h : Evolves c s t) :
    Evolves c s ((resumeFrame f r).after c t)
  /-- A fault leaves a call. -/
  | leave {t : State} (depth : Nat) (h : Evolves c s t) :
    Evolves c s ((leaveScopes depth).after c t)
  -- Parts of pauses and frames, since other parts go on from between them.
  | declarator {t : State} (spec : TypeSpec) (item : InitDeclarator) (h : Evolves c s t) :
    Evolves c s ((declareOne spec item).after c t)
  | bind {t : State} (binding : Binding) (v : Value) (h : Evolves c s t) :
    Evolves c s ((RunM.bind binding v).after c t)

namespace State.Evolves

variable {c : Config} {s t : State} {j k : Completion}

theorem trans {u : State} (h : s.Evolves c t) (h' : t.Evolves c u) : s.Evolves c u := by
  induction h' with
  | refl => exact h
  | steady _ hu ih => exact ih.steady hu
  | pause p _ ih => exact .pause p ih
  | frame f r _ ih => exact .frame f r ih
  | leave depth _ ih => exact .leave depth ih
  | declarator spec item _ ih => exact .declarator spec item ih
  | bind binding v _ ih => exact .bind binding v ih

/-- What all parts of a run maintain. -/
theorem maintained {I : State → Prop} (h : s.Evolves c t)
    (hT : Closed fun _ x Q => x.Maintains I (fun _ => True) c Q)
    (hc : ∀ {s : State} console, I s → I { s with console })
    (hd : ∀ {s : State} structs, I s → I { s with structs }) (hs : I s) : I t := by
  induction h with
  | refl => exact hs
  | @steady _ u _ hu ih =>
    have hcursor := (hT.setCursor u.cursor).after (hc u.console ih)
    rw [hu]
    exact hcursor
  | pause p _ ih => exact (maintains_resumePause hT hc hd p).after ih
  | frame f r _ ih => exact (maintains_resumeFrame hT hc f r).after ih
  | leave depth _ ih => exact (hT.leaveScopes depth).after ih
  | declarator spec item _ ih => exact (hT.declareOne (maintains_make hT.toPlain) spec item).after ih
  | bind binding v _ ih => exact (hT.bindValue binding v).after ih

theorem unwind {α : Type} (path : Frames j k) (fault : Fault) (h : s.Evolves c t) :
    s.Evolves c ((RunM.unwind path fault : RunM α).after c t) := by
  induction path generalizing fault t with
  | nil => exact h
  | cons f fs ih =>
    cases f with
    | endCall entry depth => exact ih fault (.leave depth h)
    | leave node previous => exact ih _ h
    | _ => exact ih fault h

theorem within {path : Frames j k} {x : RunM (Progress j)} {next : j.Result → RunM (Progress k)}
    (hx : s.Evolves c (x.after c t))
    (hn : ∀ r u, s.Evolves c u → s.Evolves c ((next r).after c u)) :
    s.Evolves c ((within path x next).after c t) := by
  cases h : x c t with
  | error fault u =>
    rw [after_error h] at hx
    have := hx.unwind (α := Progress k) path fault
    rwa [after, within_error h]
  | ok p u =>
    rw [after_ok h] at hx
    cases p with
    | done r =>
      have := hn r u hx
      rwa [after, within_done h]
    | paused p inner => rwa [after_ok (within_paused h)]

theorem frames (path : Frames j k) (r : j.Result) (h : s.Evolves c t) :
    s.Evolves c ((resumeFrames path r).after c t) := by
  induction path generalizing t with
  | nil => exact h
  | cons f fs ih => exact within (.frame f r h) fun r _ hu => ih r hu

/-- A step takes a state to a later one. -/
theorem step (p : Pause j) (path : Frames j k) (h : s.Evolves c t) :
    s.Evolves c ((RunM.step p path).after c t) :=
  within (.pause p h) fun r _ hu => frames path r hu

theorem drive (fs : List (Console → Console)) (p : Progress k) (h : s.Evolves c t) :
    s.Evolves c ((RunM.drive fs p).after c t) := by
  induction fs generalizing p t with
  | nil => exact h
  | cons f fs ih =>
    cases p with
    | done r => exact h
    | paused q path =>
      have hstep := (h.steady (.onConsole t f)).step q path
      change s.Evolves c ((RunM.step q path >>= RunM.drive fs).after c (t.onConsole f))
      cases hq : RunM.step q path c (t.onConsole f) with
      | error fault u =>
        rwa [after_error (bind_error hq), ← after_error hq]
      | ok p u =>
        rw [after_ok hq] at hstep
        have hd := ih p hstep
        rwa [after, bind_ok hq]

theorem completes {x : RunM (Progress k)} {r : k.Result} {u : State}
    (hx : ∀ t, s.Evolves c t → s.Evolves c (x.after c t)) (h : s.Evolves c t)
    (hr : x.Completes c t r u) : s.Evolves c u := by
  obtain ⟨fs, hd⟩ := hr
  obtain ⟨p, w, hp, hd⟩ := bind_eq_ok hd
  have := drive fs p (after_ok hp ▸ hx t h)
  rwa [after_ok hd] at this

theorem visit {e : Expr} {hint : Option StructTy} {v : Value} {u : State} (h : s.Evolves c t)
    (hv : (RunM.visit e hint .nil).Completes c t v u) : s.Evolves c u :=
  h.completes (fun t ht => by exact ht.steady (.setCursor t _)) hv

theorem visitStmt {st : Stmt} {inSwitch : Bool} {flow : Flow} {u : State} (h : s.Evolves c t)
    (hv : (RunM.visitStmt st inSwitch .nil).Completes c t flow u) : s.Evolves c u :=
  h.completes (fun t ht => by exact ht.steady (.setCursor t _)) hv

end State.Evolves

/-- A run goes on to a later state. -/
theorem Run.evolves_step (r : Run) : r.state.Evolves r.config r.step.2.state := by
  obtain ⟨config, s, rest⟩ := r
  cases rest with
  | ended result => exact .refl
  | suspended p path =>
    have hstep := State.Evolves.refl.step (c := config) (s := s) p path
    cases hp : RunM.step p path config s with
    | error fault t =>
      rw [after_error hp] at hstep
      rwa [step_fault hp]
    | ok progress t =>
      rw [after_ok hp] at hstep
      cases progress with
      | done v => rwa [step_done hp]
      | paused q inner => rwa [step_paused hp]

end Stepwise

/-! ## Moves of a host

A host takes steps, feeds input and closes it, in whatever order. What each step keeps, and
what does not depend on the console, is kept by all of its moves. Within a step, results are handed
from frame to frame until a computation pauses again: what was handed to which frame, and in what
heap, is the record of the step.
-/

namespace Stepwise

/-- What a host does with a run. -/
inductive HostMove
  | step
  | feed (text : String)
  | close

def HostMove.perform : HostMove → Run → Run
  | step, r => r.step.2
  | feed text, r => r.feed text
  | close, r => r.close

namespace Run

/-- The run after the moves of its host. -/
def play : List HostMove → Run → Run
  | [], r => r
  | move :: moves, r => play moves (move.perform r)

theorem config_perform (move : HostMove) (r : Run) : (move.perform r).config = r.config := by
  cases move with
  | step =>
    obtain ⟨config, s, rest⟩ := r
    cases rest with
    | ended result => rfl
    | suspended p path =>
      rw [HostMove.perform]
      cases hs : RunM.step p path config s with
      | error fault t => rw [step_fault hs]
      | ok progress t =>
        cases progress with
        | done v => rw [step_done hs]
        | paused q inner => rw [step_paused hs]
  | feed text => rfl
  | close => rfl

/-- The moves of a host lead to later states. -/
theorem evolves_play (moves : List HostMove) (r : Run) :
    r.state.Evolves r.config (r.play moves).state := by
  induction moves generalizing r with
  | nil => exact .refl
  | cons move moves ih =>
    have hmove : r.state.Evolves r.config (move.perform r).state := by
      cases move with
      | step => exact r.evolves_step
      | feed text => exact .steady .refl (.onConsole _ fun c => c.feed text)
      | close => exact .steady .refl (.onConsole _ Console.close)
    exact hmove.trans (config_perform move r ▸ ih (move.perform r))

/-- An invariant that does not depend on the console is maintained by all moves. -/
theorem maintained_play {I : State → Prop} {c : Config}
    (hT : RunM.Closed fun _ x Q => x.Maintains I (fun _ => True) c Q)
    (hc : ∀ {s : State} console, I s → I { s with console })
    (hd : ∀ {s : State} structs, I s → I { s with structs }) (moves : List HostMove) {r : Run}
    (hr : r.config = c) (hs : I r.state) : I (r.play moves).state := by
  cases hr
  exact (evolves_play moves r).maintained hT hc hd hs

/-- A contract that allows all faults and does not depend on the console is kept by all moves. -/
theorem kept_play {K : Contract} (hK : K.Lawful) (hall : ∀ fault, K.raises fault)
    (hc : ∀ s console, K.kept s { s with console })
    (hd : ∀ d, (RunM.defineStruct d).Meets K fun _ => True) (moves : List HostMove) {r : Run}
    (hpre : K.pre r.state) : K.kept r.state (r.play moves).state := by
  induction moves generalizing r with
  | nil => exact hK.refl _
  | cons move moves ih =>
    have hmove : K.kept r.state (move.perform r).state := by
      cases move with
      | step => exact kept_step hK hall (fun s => hc s _) hd hpre
      | feed text => exact hc _ _
      | close => exact hc _ _
    exact hK.trans hmove (ih (hK.stays hpre hmove))

end Run

section Handovers

/-- A result that is handed to the frame which waits for it, and the heap at that moment. -/
structure Handover where
  {j k : Completion}
  frame : Frame j k
  result : j.Result
  heap : Heap

variable {j k : Completion}

/-- The results that are handed out through frames when a computation inside them goes on. -/
def RunM.handovers (c : Config) :
    {j k : Completion} → Frames j k → RunM (Progress j) → State → List Handover
  | _, _, .nil, _, _ => []
  | _, _, .cons frame rest, x, s =>
    match x c s with
    | .ok (.done r) t => ⟨frame, r, t.heap⟩ :: handovers c rest (resumeFrame frame r) t
    | _ => []

theorem RunM.handovers_done {c : Config} {frame : Frame j k} {l : Completion} {rest : Frames k l}
    {x : RunM (Progress j)} {s t : State} {r : j.Result} (h : x c s = .ok (.done r) t) :
    handovers c (.cons frame rest) x s =
      ⟨frame, r, t.heap⟩ :: handovers c rest (resumeFrame frame r) t := by
  rw [handovers, h]

namespace Run

/-- The results that are handed over in the next step. -/
def stepHandovers (r : Run) : List Handover :=
  match r.rest with
  | .suspended p path => RunM.handovers r.config path (RunM.resumePause p) r.state
  | .ended _ => []

def moveHandovers : HostMove → Run → List Handover
  | .step, r => r.stepHandovers
  | .feed _, _ | .close, _ => []

/-- The results that are handed over while the host makes its moves. -/
def handovers : List HostMove → Run → List Handover
  | [], _ => []
  | move :: moves, r => r.moveHandovers move ++ handovers moves (move.perform r)

theorem handovers_append (moves moves' : List HostMove) (r : Run) :
    r.handovers (moves ++ moves') = r.handovers moves ++ (r.play moves).handovers moves' := by
  induction moves generalizing r with
  | nil => rfl
  | cons move moves ih => simp only [List.cons_append, handovers, play, ih, List.append_assoc]

end Run

end Handovers

end Stepwise

/-! ## Unattended computations

A computation that needs no host is driven by steps alone. What its parts come to one after the
other, in the frames that wait for them, is what the whole comes to, and what the beginning of a
program comes to is the end of its run.
-/

namespace Stepwise

variable {j k l : Completion} {c : Config} {s t u : State}

namespace RunM

/-- Steps alone take the computation to a result. -/
def RunsTo (x : RunM (Progress k)) (c : Config) (s : State) (r : k.Result) (t : State) : Prop :=
  ∃ n, (x >>= drive (List.replicate n id)) c s = .ok (.done r) t

namespace RunsTo

variable {x y : RunM (Progress k)} {r : k.Result} {v : j.Result}

theorem of_done (h : x c s = .ok (.done r) t) : x.RunsTo c s r t :=
  ⟨0, bind_ok h⟩

theorem done : (return .done r : RunM (Progress k)).RunsTo c s r s := of_done rfl

theorem congr (h : x c s = y c u) (hy : y.RunsTo c u r t) : x.RunsTo c s r t := by
  obtain ⟨n, hd⟩ := hy
  exact ⟨n, (bind_eq_of_eq h _).trans hd⟩

/-- What is done before a computation leaves its result as it is. -/
theorem bind {α : Type} {a : α} {x : RunM α} {f : α → RunM (Progress k)} (hx : x c s = .ok a u)
    (hf : (f a).RunsTo c u r t) : (x >>= f).RunsTo c s r t :=
  congr (y := f a) (bind_ok hx) hf

/-- Frames go on with the result of what is inside them. -/
theorem inside {i : Completion} {q : Pause i} (path : Frames i j) (outer : Frames j k)
    (hq : (return .paused q path : RunM (Progress j)).RunsTo c s v u)
    (ho : (resumeFrames outer v).RunsTo c u r t) :
    (return .paused q (path ++ outer) : RunM (Progress k)).RunsTo c s r t := by
  obtain ⟨m, hm⟩ := hq
  obtain ⟨n, hn⟩ := ho
  rw [pure_bind] at hm
  obtain ⟨gs, hgs, hd⟩ := drive_append outer hm
  obtain ⟨m', rfl⟩ : ∃ m', gs = List.replicate m' id := ⟨_, (List.prefix_replicate_iff.mp hgs).2⟩
  refine ⟨m' + n, ?_⟩
  rw [pure_bind, ← List.replicate_append_replicate, drive_drive]
  exact (bind_eq_of_eq hd _).trans hn

/-- The first step of what is suspended goes on from its pause. -/
theorem paused {q : Pause k} (h : (resumePause q).RunsTo c s r t) :
    (return .paused q .nil : RunM (Progress k)).RunsTo c s r t := by
  obtain ⟨n, hn⟩ := h
  rw [← step_nil] at hn
  exact ⟨n + 1, hn⟩

theorem andThen {x : RunM (Progress j)} {frame : Frame j k} {f : j.Result → RunM (Progress k)}
    (hx : x.RunsTo c s v u) (hframe : resumeFrame frame v = f v) (hf : (f v).RunsTo c u r t) :
    (x >>= fun p => p.andThen frame f).RunsTo c s r t := by
  obtain ⟨n, hn⟩ := hx
  obtain ⟨p, w, hp, hd⟩ := bind_eq_ok hn
  refine bind hp ?_
  cases p with
  | done r' =>
    rw [drive_done] at hd
    cases hd
    exact hf
  | paused q path =>
    rw [← hframe, ← resumeFrames_one] at hf
    exact inside path (.one frame) ⟨n, hd⟩ hf

/-- A visit takes the cursor to the expression and back, and its frame goes on with the value. -/
theorem visit {e : Expr} {hint : Option StructTy} {f : Frame .value k} {v : Value}
    (he : (evaluate e hint).RunsTo c { s with cursor := some e.node } v u)
    (hf : (resumeFrame f v).RunsTo c { u with cursor := s.cursor <|> some e.node } r t) :
    (visit e hint (.one f)).RunsTo c s r t := by
  have hleave : (resumeFrames (.cons (.leave e.node s.cursor) (.one f)) v).RunsTo c u r t := by
    refine congr (y := resumeFrame f v) (u := { u with cursor := s.cursor <|> some e.node }) ?_ hf
    rw [← resumeFrames_one f]
    exact within_done rfl
  exact congr (y := return .paused _ _) rfl (inside .nil _ (paused he) hleave)

theorem visitStmt {b : Stmt} {inSwitch : Bool} {next : Frames .flow k} {v : Flow}
    (hb : (execute b inSwitch).RunsTo c { s with cursor := some b.node } v u)
    (hnext : (resumeFrames next v).RunsTo c { u with cursor := s.cursor <|> some b.node } r t) :
    (visitStmt b inSwitch next).RunsTo c s r t := by
  have hleave : (resumeFrames (.cons (.leave b.node s.cursor) next) v).RunsTo c u r t :=
    congr (within_done rfl) hnext
  exact congr (y := return .paused _ _) rfl (inside .nil _ (paused hb) hleave)

end RunsTo

/-- A body runs in a frame of its own, which is left when it ends. -/
theorem RunsTo.enterBody {entry : FunctionEntry} {receiver : Option Receiver} {body : Stmt}
    {args : List Value} {flow : Flow} {v : Value}
    (hbody : (beginBody entry receiver body args).RunsTo c
      { s with scopes := s.scopes.pushFrame ("function " ++ entry.name) } flow u)
    (hend : (endCall entry s.scopes.depth flow).RunsTo c u v t) :
    (enterBody entry receiver body args).RunsTo c s v t := by
  let inner : State := { s with scopes := s.scopes.pushFrame ("function " ++ entry.name) }
  have henter : RunM.enterBody entry receiver body args c s =
      (beginBody entry receiver body args >>= fun p =>
        p.andThen (.endCall entry s.scopes.depth) (endCall entry s.scopes.depth)) c inner := by
    obtain ⟨n, hn⟩ := hbody
    obtain ⟨p, w, hp, -⟩ := bind_eq_ok hn
    rw [bind_ok hp]
    have hout : outcome (beginBody entry receiver body args) c inner = .ok (.ok p) w := by
      rw [outcome, hp]
    exact bind_ok hout
  exact congr henter (andThen hbody rfl hend)

end RunM

namespace Run

/-- Steps of a run are steps of the computation that it is suspended in. -/
theorem steps_of_drive {q : Pause j} {path : Frames j .value} {v : Value} {n : Nat}
    (h : RunM.drive (List.replicate n id) (.paused q path) c s = .ok (.done v) t) :
    ∃ m, steps m ⟨c, s, .suspended q path⟩ = ⟨c, t, .ended (.ok (v.int?.getD 0))⟩ := by
  induction n generalizing j s with
  | zero => cases h
  | succ n ih =>
    change (RunM.step q path >>= RunM.drive (List.replicate n id)) c s = _ at h
    obtain ⟨p, u, hp, hd⟩ := RunM.bind_eq_ok h
    cases p with
    | done r =>
      rw [RunM.drive_done] at hd
      cases hd
      refine ⟨1, ?_⟩
      rw [steps_succ, step_done hp]
      rfl
    | paused q' path' =>
      obtain ⟨m, hm⟩ := ih hd
      refine ⟨m + 1, ?_⟩
      rw [steps_succ, step_paused hp, hm]

/-- A program that needs no host runs to its end. -/
theorem steps_ofProgram {p : Program} {console : Console} {files : FileSystem} {v : Value}
    (h : (RunM.begin p).RunsTo c { console, files } v t) :
    ∃ m, (ofProgram c p console files).steps m = ⟨c, t, .ended (.ok (v.int?.getD 0))⟩ := by
  obtain ⟨n, hn⟩ := RunM.RunsTo.paused (q := .start p) h
  rw [pure_bind] at hn
  exact steps_of_drive hn

end Run

end Stepwise
