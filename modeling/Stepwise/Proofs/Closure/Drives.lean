import Stepwise.Proofs.Closure.Invariants

/-! # Driven computations

A host drives a part of a run: it may use the console, then takes a step, and goes on in
this way until there is a result. What completes inside a frame completes on its own
first, and then the frame goes on with the result.
-/

namespace Stepwise

variable {i j k l : Completion} {c : Config} {s t : State}

/-- The state after the host has used the console. -/
def State.onConsole (s : State) (f : Console → Console) : State :=
  { s with console := f s.console }

/-- The states are equal, except for the cursor and the console. -/
def State.Steady (s t : State) : Prop := t = { s with cursor := t.cursor, console := t.console }

namespace State.Steady

variable {u : State}

theorem refl (s : State) : s.Steady s := rfl

theorem trans (hs : s.Steady t) (ht : t.Steady u) : s.Steady u := by
  unfold Steady at *
  rw [ht, hs]

theorem onConsole (s : State) (f : Console → Console) : s.Steady (s.onConsole f) := rfl

theorem setCursor (s : State) (node : Option Node) : s.Steady { s with cursor := node } := rfl

end State.Steady

namespace RunM

/-- Takes a step after each use of the console, until there is a result. -/
def drive : List (Console → Console) → Progress k → RunM (Progress k)
  | [], p => return p
  | _ :: _, .done r => return .done r
  | f :: fs, .paused p path => do
    modify fun s => s.onConsole f
    drive fs (← step p path)

/-- The host can drive the computation to a result. -/
def Completes (x : RunM (Progress k)) (c : Config) (s : State) (r : k.Result) (t : State) : Prop :=
  ∃ fs, (x >>= drive fs) c s = .ok (.done r) t

/-- The computation ends without a fault; otherwise it is suspended. -/
def ends (x : RunM (Progress k)) (c : Config) (s : State) : Bool :=
  match x c s with
  | .ok (.done _) _ => true
  | _ => false

theorem completes_of_ends (x : RunM (Progress k)) (fs : List (Console → Console)) (c : Config)
    (s : State) (h : ends (x >>= drive fs) c s = true) : ∃ r t, x.Completes c s r t := by
  unfold ends at h
  split at h
  · exact ⟨_, _, fs, ‹_›⟩
  · cases h

/-- The result and the state, if the computation ends without a fault. -/
def settled (x : RunM (Progress k)) (c : Config) (s : State) : Option (k.Result × State) :=
  match x c s with
  | .ok (.done r) t => some (r, t)
  | _ => none

theorem completes_of_settled {x : RunM (Progress k)} {fs : List (Console → Console)}
    {r : k.Result} (h : settled (x >>= drive fs) c s = some (r, t)) : x.Completes c s r t := by
  unfold settled at h
  split at h
  · cases h
    exact ⟨fs, ‹_›⟩
  · cases h

theorem drive_done (fs : List (Console → Console)) (r : k.Result) :
    drive fs (.done r) = return .done r := by
  cases fs <;> rfl

theorem drive_drive (fs gs : List (Console → Console)) (p : Progress k) :
    drive (fs ++ gs) p = drive fs p >>= drive gs := by
  induction fs generalizing p with
  | nil => exact (pure_bind p (drive gs)).symm
  | cons f fs ih =>
    cases p with
    | done r => exact ((pure_bind (.done r) (drive gs)).trans (drive_done gs r)).symm
    | paused q path =>
      simp only [List.cons_append, drive, bind_assoc]
      simp only [ih]

section Frames

variable (outer : Frames k l)

/-- What completes on its own also completes inside further frames, which then take its result. -/
theorem drive_append {r : k.Result} {fs : List (Console → Console)} {q : Pause j}
    {inner : Frames j k} (h : drive fs (.paused q inner) c s = .ok (.done r) t) :
    ∃ gs, gs <+: fs ∧ drive gs (.paused q (inner ++ outer)) c s = resumeFrames outer r c t := by
  induction fs generalizing j s with
  | nil => cases h
  | cons f fs ih =>
    change (step q inner >>= drive fs) c (s.onConsole f) = _ at h
    obtain ⟨p, u, hx, hd⟩ := bind_eq_ok h
    have hs := congrFun (congrFun (step_append inner outer q) c) (s.onConsole f)
    cases p with
    | done r' =>
      rw [drive_done] at hd
      cases hd
      refine ⟨[f], ⟨fs, rfl⟩, ?_⟩
      change (step q (inner ++ outer) >>= pure) c (s.onConsole f) = _
      rw [bind_pure, hs, within_done hx]
    | paused p path =>
      obtain ⟨gs, hg, hd⟩ := ih hd
      refine ⟨f :: gs, (List.prefix_cons_inj f).mpr hg, ?_⟩
      change (step q (inner ++ outer) >>= drive gs) c (s.onConsole f) = _
      rw [bind_ok (hs.trans (within_paused hx)), hd]

/-- What is suspended on its own is suspended inside further frames. -/
theorem drive_append_paused {i' : Completion} {fs : List (Console → Console)} {q : Pause j}
    {inner : Frames j k} {q' : Pause i'} {inner' : Frames i' k}
    (h : drive fs (.paused q inner) c s = .ok (.paused q' inner') t) :
    drive fs (.paused q (inner ++ outer)) c s = .ok (.paused q' (inner' ++ outer)) t := by
  induction fs generalizing j s with
  | nil =>
    cases h
    rfl
  | cons f fs ih =>
    change (step q inner >>= drive fs) c (s.onConsole f) = _ at h
    obtain ⟨p, u, hx, hd⟩ := bind_eq_ok h
    have hs := congrFun (congrFun (step_append inner outer q) c) (s.onConsole f)
    change (step q (inner ++ outer) >>= drive fs) c (s.onConsole f) = _
    cases p with
    | done r =>
      rw [drive_done] at hd
      cases hd
    | paused p path => exact (bind_ok (hs.trans (within_paused hx))).trans (ih hd)

/-- What completes inside frames completes on its own first, and the frames go on with the result
for fewer steps. -/
theorem drive_inside {fs : List (Console → Console)} {q : Pause j} (path : Frames j k)
    {r : l.Result} (h : drive fs (.paused q (path ++ outer)) c s = .ok (.done r) t) :
    ∃ gs hs v u, gs.length ≤ fs.length ∧ hs.length < fs.length ∧
      drive gs (.paused q path) c s = .ok (.done v) u ∧
      (resumeFrames outer v >>= drive hs) c u = .ok (.done r) t := by
  induction fs generalizing j s with
  | nil => cases h
  | cons g fs ih =>
    change (step q (path ++ outer) >>= drive fs) c (s.onConsole g) = _ at h
    obtain ⟨p, u, hx, hd⟩ := bind_eq_ok h
    rw [step_append] at hx
    rcases within_eq_ok hx with ⟨v, u', hv, hr⟩ | ⟨i, q', path', hp, rfl⟩
    · exact ⟨[g], fs, v, u', Nat.succ_le_succ (Nat.zero_le _), Nat.lt_succ_self _, bind_ok hv,
        (bind_ok hr).trans hd⟩
    · obtain ⟨gs, hs, v, u', hle, hlt, hv, hr⟩ := ih path' hd
      exact ⟨g :: gs, hs, v, u', Nat.succ_le_succ hle, Nat.lt_succ_of_lt hlt,
        (bind_ok hp).trans hv, hr⟩

/-- What completes inside a frame completes on its own first. -/
theorem drive_one {f : Frame k l} {fs : List (Console → Console)} {q : Pause j}
    (path : Frames j k) {r : l.Result}
    (h : drive fs (.paused q (path ++ Frames.one f)) c s = .ok (.done r) t) :
    ∃ gs hs v u, drive gs (.paused q path) c s = .ok (.done v) u ∧
      (resumeFrame f v >>= drive hs) c u = .ok (.done r) t := by
  obtain ⟨gs, hs, v, u, -, -, hv, hr⟩ := drive_inside (.one f) path h
  rw [resumeFrames_one] at hr
  exact ⟨gs, hs, v, u, hv, hr⟩

end Frames

/-- Computations that come to the same in two states go on alike. -/
theorem bind_eq_of_eq {α β : Type} {x y : RunM α} {u : State} (h : x c s = y c u) (f : α → RunM β) :
    (x >>= f) c s = (y >>= f) c u := by
  simp only [Bind.bind, ReaderT.bind, EStateM.bind, h]

theorem completes_congr {x y : RunM (Progress k)} {r : k.Result} {u : State} (h : x c s = y c u) :
    x.Completes c s r t ↔ y.Completes c u r t := by
  simp only [Completes, bind_eq_of_eq h]

/-- Nothing completes after a fault. -/
theorem not_completes_of_error {x : RunM (Progress k)} {r : k.Result} {fault : Fault}
    (h : x c s = .error fault t) {u : State} : ¬x.Completes c s r u := by
  rintro ⟨fs, hd⟩
  obtain ⟨p, v, hx, -⟩ := bind_eq_ok hd
  cases h.symm.trans hx

/-- What is done before a computation that completes has a result. -/
theorem completes_bind {α : Type} {x : RunM α} {f : α → RunM (Progress k)} {r : k.Result}
    (h : (x >>= f).Completes c s r t) : ∃ a u, x c s = .ok a u ∧ (f a).Completes c u r t := by
  obtain ⟨fs, hd⟩ := h
  rw [bind_assoc] at hd
  obtain ⟨a, u, hx, hf⟩ := bind_eq_ok hd
  exact ⟨a, u, hx, fs, hf⟩

theorem completes_done {v r : k.Result} (h : (return .done v : RunM (Progress k)).Completes c s r t) :
    v = r ∧ s = t := by
  obtain ⟨fs, hd⟩ := h
  rw [pure_bind, drive_done] at hd
  cases hd
  exact ⟨rfl, rfl⟩

/-- A part completes, and the rest goes on with its result. -/
theorem completes_andThen {x : RunM (Progress j)} {frame : Frame j k}
    {f : j.Result → RunM (Progress k)} (hf : ∀ v, resumeFrame frame v = f v) {r : k.Result}
    (h : (x >>= fun p => p.andThen frame f).Completes c s r t) :
    ∃ v u, x.Completes c s v u ∧ (f v).Completes c u r t := by
  obtain ⟨p, u, hx, fs, hd⟩ := completes_bind h
  cases p with
  | done v => exact ⟨v, u, ⟨[], bind_ok hx⟩, fs, hd⟩
  | paused q path =>
    obtain ⟨gs, hs, v, w, hv, hr⟩ := drive_one _ hd
    exact ⟨v, w, ⟨gs, (bind_ok hx).trans hv⟩, hs, hf v ▸ hr⟩

/-- What completes under the frame of its node completes without it, and the cursor goes back. -/
theorem completes_leave {p : Pause k} {node : Node} {previous : Option Node}
    {fs : List (Console → Console)} {r : k.Result}
    (h : drive fs (.paused p (.one (.leave node previous))) c s = .ok (.done r) t) :
    ∃ f u, (resumePause p).Completes c (s.onConsole f) r u ∧ u.Steady t := by
  obtain ⟨gs, hs, r', u, hd, hr⟩ := drive_one .nil h
  have hleave : (return .done r' : RunM (Progress k)).Completes c
      { u with cursor := previous <|> some node } r t := ⟨hs, hr⟩
  obtain ⟨rfl, rfl⟩ := completes_done hleave
  cases gs with
  | nil => cases hd
  | cons g gs =>
    refine ⟨g, u, ⟨gs, ?_⟩, .setCursor u _⟩
    rw [← step_nil]
    exact hd

/-- A visited expression is evaluated, and the frame goes on with its value. -/
theorem completes_visit {e : Expr} {hint : Option StructTy} {f : Frame .value k} {r : k.Result}
    (h : (visit e hint (.one f)).Completes c s r t) :
    ∃ s' v u u', s.Steady s' ∧ (evaluate e hint).Completes c s' v u ∧ u.Steady u' ∧
      (resumeFrame f v).Completes c u' r t := by
  obtain ⟨fs, hd⟩ := h
  obtain ⟨gs, hs, v, u', hv, hr⟩ := drive_one (.one (.leave e.node s.cursor)) hd
  obtain ⟨g, u, hx, hu⟩ := completes_leave hv
  exact ⟨_, v, u, u', (State.Steady.setCursor s _).trans (.onConsole _ g), hx, hu, hs, hr⟩

/-- A visited statement completes on its own, and the frame goes on with the way it ended. -/
theorem completes_visitStmt {st : Stmt} {inSwitch : Bool} {f : Frame .flow k} {r : k.Result}
    (h : (visitStmt st inSwitch (.one f)).Completes c s r t) :
    ∃ flow u, (visitStmt st inSwitch .nil).Completes c s flow u ∧
      (resumeFrame f flow).Completes c u r t := by
  obtain ⟨fs, hd⟩ := h
  obtain ⟨gs, hs, flow, u, hv, hr⟩ := drive_one (.one (.leave st.node s.cursor)) hd
  exact ⟨flow, u, ⟨gs, hv⟩, hs, hr⟩

/-- A visited statement is executed. -/
theorem completes_execute {st : Stmt} {inSwitch : Bool} {flow : Flow}
    (h : (visitStmt st inSwitch .nil).Completes c s flow t) :
    ∃ s' u, s.Steady s' ∧ (execute st inSwitch).Completes c s' flow u ∧ u.Steady t := by
  obtain ⟨fs, hd⟩ := h
  obtain ⟨g, u, hx, hu⟩ := completes_leave hd
  exact ⟨_, u, (State.Steady.setCursor s _).trans (.onConsole _ g), hx, hu⟩

section Conversely

variable {r : k.Result}

/-- A computation completes inside a frame if it completes, and the frame goes on with its result. -/
theorem completes_one_iff {q : Pause i} (path : Frames i j) {f : Frame j k} :
    (return .paused q (path ++ Frames.one f) : RunM (Progress k)).Completes c s r t ↔
      ∃ v u, (return .paused q path : RunM (Progress j)).Completes c s v u ∧
        (resumeFrame f v).Completes c u r t := by
  constructor
  · rintro ⟨fs, hd⟩
    obtain ⟨gs, hs, v, u, hv, hr⟩ := drive_one path hd
    exact ⟨v, u, ⟨gs, hv⟩, hs, hr⟩
  · rintro ⟨v, u, ⟨fs, hv⟩, hs, hr⟩
    obtain ⟨gs, -, hd⟩ := drive_append (.one f) hv
    rw [resumeFrames_one] at hd
    refine ⟨gs ++ hs, ?_⟩
    rw [pure_bind, drive_drive]
    simp only [Bind.bind, ReaderT.bind, EStateM.bind] at hr ⊢
    rw [hd]
    exact hr

theorem completes_pause_iff {q : Pause k} :
    (return .paused q .nil : RunM (Progress k)).Completes c s r t ↔
      ∃ f, (resumePause q).Completes c (s.onConsole f) r t := by
  rw [← step_nil]
  constructor
  · rintro ⟨_ | ⟨f, fs⟩, hd⟩
    · cases hd
    · exact ⟨f, fs, hd⟩
  · rintro ⟨f, fs, hd⟩
    exact ⟨f :: fs, hd⟩

theorem completes_visit_iff {e : Expr} {hint : Option StructTy} {f : Frame .value k} :
    (visit e hint (.one f)).Completes c s r t ↔
      ∃ v u, (visit e hint .nil).Completes c s v u ∧ (resumeFrame f v).Completes c u r t :=
  completes_one_iff (.one (.leave e.node s.cursor)) (s := { s with cursor := some e.node })

theorem completes_visitStmt_iff {st : Stmt} {inSwitch : Bool} {f : Frame .flow k} :
    (visitStmt st inSwitch (.one f)).Completes c s r t ↔
      ∃ flow u, (visitStmt st inSwitch .nil).Completes c s flow u ∧
        (resumeFrame f flow).Completes c u r t :=
  completes_one_iff (.one (.leave st.node s.cursor)) (s := { s with cursor := some st.node })

theorem completes_done_iff {v : k.Result} :
    (return .done v : RunM (Progress k)).Completes c s r t ↔ v = r ∧ s = t := by
  refine ⟨completes_done, ?_⟩
  rintro ⟨rfl, rfl⟩
  exact ⟨[], rfl⟩

end Conversely

section Steps

variable {n : Nat} {r : k.Result}

/-- The host can drive the computation to a result in so many steps. -/
def CompletesIn (n : Nat) (x : RunM (Progress k)) (c : Config) (s : State) (r : k.Result)
    (t : State) : Prop :=
  ∃ fs : List (Console → Console), fs.length ≤ n ∧ (x >>= drive fs) c s = .ok (.done r) t

theorem CompletesIn.completes {x : RunM (Progress k)} (h : x.CompletesIn n c s r t) :
    x.Completes c s r t := by
  obtain ⟨fs, -, hd⟩ := h
  exact ⟨fs, hd⟩

theorem Completes.exists_completesIn {x : RunM (Progress k)} (h : x.Completes c s r t) :
    ∃ n, x.CompletesIn n c s r t := by
  obtain ⟨fs, hd⟩ := h
  exact ⟨fs.length, fs, Nat.le_refl _, hd⟩

theorem completesIn_bind {α : Type} {x : RunM α} {f : α → RunM (Progress k)}
    (h : (x >>= f).CompletesIn n c s r t) :
    ∃ a u, x c s = .ok a u ∧ (f a).CompletesIn n c u r t := by
  obtain ⟨fs, hn, hd⟩ := h
  rw [bind_assoc] at hd
  obtain ⟨a, u, hx, hf⟩ := bind_eq_ok hd
  exact ⟨a, u, hx, fs, hn, hf⟩

theorem completesIn_done {v : k.Result}
    (h : (return .done v : RunM (Progress k)).CompletesIn n c s r t) : v = r ∧ s = t :=
  completes_done h.completes

/-- A part completes, and what is left goes on at once, or later in the frame that waits. -/
theorem completesIn_andThen {x : RunM (Progress j)} {frame : Frame j k}
    {f : j.Result → RunM (Progress k)}
    (h : (x >>= fun p => p.andThen frame f).CompletesIn n c s r t) :
    ∃ v u, x.CompletesIn n c s v u ∧ ((f v).CompletesIn n c u r t ∨
      ∃ m < n, (resumeFrame frame v).CompletesIn m c u r t) := by
  obtain ⟨p, u, hx, fs, hn, hd⟩ := completesIn_bind h
  cases p with
  | done v => exact ⟨v, u, ⟨[], Nat.zero_le n, bind_ok hx⟩, .inl ⟨fs, hn, hd⟩⟩
  | paused q path =>
    obtain ⟨gs, hs, v, w, hle, hlt, hv, hr⟩ := drive_inside (.one frame) path hd
    rw [resumeFrames_one] at hr
    refine ⟨v, w, ⟨gs, Nat.le_trans hle hn, (bind_ok hx).trans hv⟩, .inr ?_⟩
    exact ⟨hs.length, Nat.lt_of_lt_of_le hlt hn, hs, Nat.le_refl _, hr⟩

/-- A visited expression completes, and the frame goes on with its value for fewer steps. -/
theorem completesIn_visit {e : Expr} {hint : Option StructTy} {f : Frame .value k}
    (h : (visit e hint (.one f)).CompletesIn n c s r t) :
    ∃ v u, (visit e hint .nil).Completes c s v u ∧
      ∃ m < n, (resumeFrame f v).CompletesIn m c u r t := by
  obtain ⟨fs, hn, hd⟩ := h
  obtain ⟨gs, hs, v, u, -, hlt, hv, hr⟩ := drive_inside (.one f) (.one (.leave e.node s.cursor)) hd
  rw [resumeFrames_one] at hr
  exact ⟨v, u, ⟨gs, hv⟩, hs.length, Nat.lt_of_lt_of_le hlt hn, hs, Nat.le_refl _, hr⟩

end Steps

section Contracts

variable {K : Contract}

/-- However it is driven, a computation keeps to a contract that its steps keep to. -/
theorem meets_drive (hK : K.Lawful) (hc : ∀ (s : State) f, K.kept s (s.onConsole f))
    (hstep : ∀ {j : Completion} (q : Pause j) (path : Frames j k),
      (step q path).Meets K fun _ => True)
    (fs : List (Console → Console)) (p : Progress k) : (drive fs p).Meets K fun _ => True := by
  induction fs generalizing p with
  | nil => exact fun _ s _ => ⟨hK.refl s, trivial⟩
  | cons f fs ih =>
    cases p with
    | done r => exact fun _ s _ => ⟨hK.refl s, trivial⟩
    | paused q path =>
      refine .bind hK (Q := fun _ => True) (fun _ s _ => ⟨hc s f, trivial⟩) fun _ _ => ?_
      exact .bind hK (hstep q path) fun p _ => ih p

end Contracts

/-- The results are as `post` says, and the causes of faults as `raises` says. -/
def Allows (post : k.Result → State → Prop) (raises : FaultCause → Prop) :
    EStateM.Result Fault State (Progress k) → Prop
  | .ok (.done r) t => post r t
  | .ok (.paused ..) _ => True
  | .error fault _ => raises fault.cause

/-- However the host drives the computation, it has no other results than those that `post` says,
and fails for no other causes than `raises` says. -/
def Guarantees (x : RunM (Progress k)) (c : Config) (s : State) (post : k.Result → State → Prop)
    (raises : FaultCause → Prop) : Prop :=
  ∀ fs, Allows post raises ((x >>= drive fs) c s)

/-- A fault keeps its cause on its way out. -/
theorem cause_unwind {α : Type} {fault fault' : Fault} (path : Frames j k)
    (h : (unwind path fault : RunM α) c s = .error fault' t) : fault'.cause = fault.cause := by
  induction path generalizing fault s with
  | nil =>
    cases h
    rfl
  | cons f fs ih =>
    cases f with
    | leave node previous => exact (ih h : fault'.cause = (fault.orAt (some node)).cause)
    | _ => exact ih h

namespace Guarantees

variable {post : k.Result → State → Prop} {raises : FaultCause → Prop}

theorem done {r : k.Result} (h : post r s) :
    (return .done r : RunM (Progress k)).Guarantees c s post raises := by
  intro fs
  rw [pure_bind, drive_done]
  exact h

theorem congr {x y : RunM (Progress k)} (h : x c s = y c t) (hy : y.Guarantees c t post raises) :
    x.Guarantees c s post raises := by
  intro fs
  rw [bind_eq_of_eq h]
  exact hy fs

theorem error {x : RunM (Progress k)} {fault : Fault} (h : x c s = .error fault t)
    (hr : raises fault.cause) : x.Guarantees c s post raises := by
  intro fs
  rw [bind_error h]
  exact hr

theorem mono {x : RunM (Progress k)} {post' : k.Result → State → Prop}
    (hx : x.Guarantees c s post raises) (hp : ∀ r t, post r t → post' r t) :
    x.Guarantees c s post' raises := by
  intro fs
  have h := hx fs
  cases hd : (x >>= drive fs) c s with
  | error fault t => rwa [hd] at h
  | ok p t =>
    rw [hd] at h
    cases p with
    | done r => exact hp r t h
    | paused q path => trivial

/-- A pause goes on after the host has used the console. -/
theorem pause {q : Pause k} (h : ∀ g, (resumePause q).Guarantees c (s.onConsole g) post raises) :
    (return .paused q .nil : RunM (Progress k)).Guarantees c s post raises := by
  rintro (_ | ⟨g, fs⟩)
  · trivial
  · have hg := h g fs
    rw [← step_nil] at hg
    exact hg

variable {mid : j.Result → State → Prop}

/-- Frames go on with what is guaranteed inside them. -/
theorem inside {i : Completion} {q : Pause i} {path : Frames i j} (outer : Frames j k)
    (hq : (return .paused q path : RunM (Progress j)).Guarantees c s mid raises)
    (ho : ∀ r u, mid r u → (resumeFrames outer r).Guarantees c u post raises) :
    (return .paused q (path ++ outer) : RunM (Progress k)).Guarantees c s post raises := by
  intro fs
  induction fs generalizing i q path s with
  | nil => trivial
  | cons f fs ih =>
    have hstep := congrFun (congrFun (step_append path outer q) c) (s.onConsole f)
    have hinner (gs : List (Console → Console)) :
        Allows mid raises ((step q path >>= drive gs) c (s.onConsole f)) := hq (f :: gs)
    change Allows post raises ((step q (path ++ outer) >>= drive fs) c (s.onConsole f))
    cases hx : step q path c (s.onConsole f) with
    | error fault u =>
      have hr := hinner []
      rw [bind_error hx] at hr
      rw [within_error hx] at hstep
      cases hu : (unwind outer fault : RunM (Progress k)) c u with
      | ok p v => exact absurd hu (unwind_ne_ok outer fault p)
      | error fault' v =>
        rw [bind_error (hstep.trans hu)]
        change raises fault'.cause
        rwa [cause_unwind outer hu]
    | ok p u =>
      cases p with
      | done r =>
        have hr := hinner []
        rw [bind_ok hx] at hr
        rw [bind_eq_of_eq (hstep.trans (within_done hx))]
        exact ho r u hr fs
      | paused q' path' =>
        rw [bind_ok (hstep.trans (within_paused hx))]
        refine ih fun gs => ?_
        have hgs := hinner gs
        rwa [bind_ok hx] at hgs

/-- A visit, and what its frame makes of the value. -/
theorem visit_one {e : Expr} {hint : Option StructTy} {f : Frame .value k}
    {mid : Value → State → Prop} (hv : (visit e hint .nil).Guarantees c s mid raises)
    (hf : ∀ v u, mid v u → (resumeFrame f v).Guarantees c u post raises) :
    (visit e hint (.one f)).Guarantees c s post raises := by
  have hq : (return .paused (.expr e hint) (.one (.leave e.node s.cursor)) :
      RunM (Progress .value)).Guarantees c { s with cursor := some e.node } mid raises :=
    congr (y := visit e hint .nil) rfl hv
  have hone := inside (.one f) hq fun v u h => by
    rw [resumeFrames_one]
    exact hf v u h
  exact congr (y := return .paused _ _) rfl hone

/-- A visit guarantees what the evaluation of its expression does, wherever the cursor is. -/
theorem visit {e : Expr} {hint : Option StructTy} {post : Value → State → Prop}
    (hx : ∀ node g,
      (evaluate e hint).Guarantees c (State.onConsole { s with cursor := node } g) post raises)
    (hp : ∀ v t node, post v t → post v { t with cursor := node }) :
    (visit e hint .nil).Guarantees c s post raises := by
  have hq : (return .paused (.expr e hint) .nil : RunM (Progress .value)).Guarantees c
      { s with cursor := some e.node } post raises := pause (hx _)
  have hone := inside (.one (.leave e.node s.cursor)) hq fun v u h => by
    rw [resumeFrames_one]
    exact congr (y := return .done v) rfl (done (hp v u _ h))
  exact congr (y := return .paused _ _) rfl hone

end Guarantees

end RunM

end Stepwise
