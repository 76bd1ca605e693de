import Stepwise.Machine.Step

/-! # Computations inside frames

Frames take the result of a computation, or wait for it when the computation is suspended.
A path of frames does what its parts do one after the other.
-/

namespace Stepwise

variable {i j k : Completion}

namespace RunM

variable {c : Config} {s t : State}

section Results

variable {α β : Type} {x : RunM α} {f : α → RunM β} {c : Config} {a : α}

theorem bind_ok (h : x c s = .ok a t) : (x >>= f) c s = f a c t := by
  simp only [Bind.bind, ReaderT.bind, EStateM.bind, h]

theorem bind_error {fault : Fault} (h : x c s = .error fault t) :
    (x >>= f) c s = .error fault t := by
  simp only [Bind.bind, ReaderT.bind, EStateM.bind, h]

theorem bind_eq_ok {b : β} {u : State} (h : (x >>= f) c s = .ok b u) :
    ∃ a t, x c s = .ok a t ∧ f a c t = .ok b u := by
  simp only [Bind.bind, ReaderT.bind, EStateM.bind] at h
  split at h
  · exact ⟨_, _, ‹_›, h⟩
  · cases h

theorem bind_eq_error {fault : Fault} {u : State} (h : (x >>= f) c s = .error fault u) :
    x c s = .error fault u ∨ ∃ a t, x c s = .ok a t ∧ f a c t = .error fault u := by
  cases hx : x c s with
  | ok a t =>
    rw [bind_ok hx] at h
    exact .inr ⟨a, t, rfl, h⟩
  | error fault' t =>
    rw [bind_error hx] at h
    cases h
    exact .inl rfl

theorem ask_ok {x : ReadM α} (h : x (c, s) = .ok a) : ask x c s = .ok a s := by
  rw [ask, h]

/-- The operators of a run work on its heap and leave the rest of the state alone. -/
theorem operate_ok {x : OperatorM α} {heap : Heap}
    (h : x ⟨c.numerics, s.tables, s.cursor⟩ s.heap = .ok a heap) :
    operate x c s = .ok a { s with heap } := by
  simp only [operate, ReaderT.run, EStateM.run, h]

theorem operate_error {x : OperatorM α} {fault : Fault} {heap : Heap}
    (h : x ⟨c.numerics, s.tables, s.cursor⟩ s.heap = .error fault heap) :
    operate x c s = .error fault { s with heap } := by
  simp only [operate, ReaderT.run, EStateM.run, h]

theorem operate_eq_ok {x : OperatorM α} (h : operate x c s = .ok a t) :
    ∃ heap, x ⟨c.numerics, s.tables, s.cursor⟩ s.heap = .ok a heap ∧ t = { s with heap } := by
  unfold operate at h
  dsimp only [ReaderT.run, EStateM.run] at h
  split at h
  · cases h
    exact ⟨_, ‹_›, rfl⟩
  · cases h

variable {path : Frames j k} {x : RunM (Progress j)} {next : j.Result → RunM (Progress k)}

theorem within_done {r : j.Result} (h : x c s = .ok (.done r) t) :
    within path x next c s = next r c t := by
  simp only [within, outcome, Bind.bind, ReaderT.bind, EStateM.bind, h]

theorem within_paused {i : Completion} {p : Pause i} {inner : Frames i j}
    (h : x c s = .ok (.paused p inner) t) :
    within path x next c s = .ok (.paused p (inner ++ path)) t := by
  simp only [within, outcome, Bind.bind, ReaderT.bind, EStateM.bind, h]
  rfl

theorem within_error {fault : Fault} (h : x c s = .error fault t) :
    within path x next c s = unwind path fault c t := by
  simp only [within, outcome, Bind.bind, ReaderT.bind, EStateM.bind, h]

/-- Passing out a fault does not give a result. -/
theorem unwind_ne_ok (path : Frames j k) (fault : Fault) (a : α) :
    (unwind path fault : RunM α) c s ≠ .ok a t := by
  induction path generalizing fault s with
  | nil => exact nofun
  | cons f fs ih =>
    cases f with
    | endCall entry depth => exact ih fault
    | leave node previous => exact ih _
    | _ => exact ih fault

theorem within_eq_ok {q : Progress k} (h : within path x next c s = .ok q t) :
    (∃ r u, x c s = .ok (.done r) u ∧ next r c u = .ok q t) ∨
      ∃ (i : Completion) (p : Pause i) (inner : Frames i j),
        x c s = .ok (.paused p inner) t ∧ q = .paused p (inner ++ path) := by
  cases hx : x c s with
  | error fault u => exact absurd (within_error hx ▸ h) (unwind_ne_ok path fault q)
  | ok p u =>
    cases p with
    | done r => exact .inl ⟨r, u, rfl, (within_done hx).symm.trans h⟩
    | paused p inner =>
      rw [within_paused hx] at h
      cases h
      exact .inr ⟨_, p, inner, rfl, rfl⟩

end Results

theorem within_nil (x : RunM (Progress k)) : within .nil x (resumeFrames .nil) = x := by
  funext c s
  cases h : x c s with
  | error fault t => exact within_error h
  | ok p t =>
    cases p with
    | done r => exact within_done h
    | paused p inner => rw [within_paused h, Frames.append_nil]

theorem resumeFrames_one (f : Frame j k) (r : j.Result) :
    resumeFrames (.one f) r = resumeFrame f r := within_nil _

theorem step_nil (p : Pause k) : step p .nil = resumePause p := within_nil _

section Append

variable {l : Completion} (path : Frames j k) (outer : Frames k l)
  (g : k.Result → RunM (Progress l))

theorem unwind_append (fault : Fault) :
    unwind (path ++ outer) fault = within outer (unwind path fault) g := by
  induction path generalizing fault with
  | nil => rfl
  | cons f fs ih =>
    cases f with
    | endCall entry depth =>
      funext c s
      exact congrFun (congrFun (ih outer g fault) c) _
    | leave node previous => exact ih outer g _
    | _ => exact ih outer g fault

theorem within_append (x : RunM (Progress j)) (f : j.Result → RunM (Progress k)) :
    within (path ++ outer) x (fun r => within outer (f r) g) =
      within outer (within path x f) g := by
  funext c s
  simp only [within, outcome, Bind.bind, ReaderT.bind, EStateM.bind]
  cases x c s with
  | ok p t =>
    cases p with
    | done r => rfl
    | paused p inner =>
      dsimp only
      rw [← Frames.append_assoc]
      rfl
  | error fault t => exact congrFun (congrFun (unwind_append path outer g fault) c) t

theorem resumeFrames_append (r : j.Result) :
    resumeFrames (path ++ outer) r = within outer (resumeFrames path r) (resumeFrames outer) := by
  induction path with
  | nil => rfl
  | cons f fs ih =>
    have hn : resumeFrames (fs ++ outer) =
        fun r => within outer (resumeFrames fs r) (resumeFrames outer) :=
      funext fun r => ih outer r
    simp only [Frames.cons_append, resumeFrames, hn]
    exact within_append fs outer _ _ _

/-- A step inside further frames is a step inside the inner ones, whose result the others take. -/
theorem step_append (p : Pause j) :
    step p (path ++ outer) = within outer (step p path) (resumeFrames outer) := by
  have hn : resumeFrames (path ++ outer) =
      fun r => within outer (resumeFrames path r) (resumeFrames outer) :=
    funext (resumeFrames_append path outer)
  simp only [step, hn]
  exact within_append path outer _ _ _

/-- A step inside one more frame, which takes the result or goes on waiting. -/
theorem step_one_eq_ok {f : Frame k l} {p : Pause j} {q : Progress l}
    (h : step p (path ++ Frames.one f) c s = .ok q t) :
    (∃ r u, step p path c s = .ok (.done r) u ∧ resumeFrame f r c u = .ok q t) ∨
      ∃ (i : Completion) (p' : Pause i) (inner : Frames i k),
        step p path c s = .ok (.paused p' inner) t ∧ q = .paused p' (inner ++ Frames.one f) := by
  rw [step_append] at h
  rcases within_eq_ok h with ⟨r, u, hx, hr⟩ | hp
  · rw [resumeFrames_one] at hr
    exact .inl ⟨r, u, hx, hr⟩
  · exact .inr hp

end Append

end RunM

end Stepwise
