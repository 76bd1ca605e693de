import Stepwise.Operator.Call
import Stepwise.Proofs.Closure.Frames
import Stepwise.Proofs.Locality.Surroundings

/-! # Computations in other surroundings

A computation is local if it does the same in all surroundings: it comes to the same
result, and to the same state apart from the surroundings. Where these ask for wrapping
numbers, it may do something else instead of faulting with an overflow. A postcondition
says what else is known of the result and of the state.
-/

namespace Stepwise

open RunM

theorem Fault.isOverflow_congr {e f : Fault} (h : e.cause = f.cause) :
    e.isOverflow = f.isOverflow := by
  unfold isOverflow
  rw [h]

/-- The computation ends with a fault of the same cause. -/
def RunM.Rethrows {α : Type} (x : RunM α) (e : Fault) : Prop :=
  ∀ c s, ∃ e' t, x c s = .error e' t ∧ e'.cause = e.cause

namespace Surroundings

variable {E : Surroundings} {α β γ : Type} {j k : Completion} {s t : State} {b c : Footing}

/-- The surroundings need not follow the fault: their numbers wrap around instead. -/
def Forgives (E : Surroundings) (f : Fault) : Prop := E.wraps = true ∧ f.isOverflow = true

/-- What `x` does from the state `s`, `y` does in the surroundings `E`, where results look as
`lift` says; and `x` ends in accordance with `Q`. -/
def Mirrors (E : Surroundings) (lift : α → α) (s : State) (x y : RunM α) (Q : α → State → Prop) :
    Prop :=
  ∀ config, match x config s with
    | .ok a t => Q a t ∧ y (E.config config) (E.state s) = .ok (lift a) (E.state t)
    | .error f t => E.Forgives f ∨ y (E.config config) (E.state s) = .error f (E.state t)

/-- The computation does the same in the surroundings and ends in accordance with `Q`. -/
abbrev Local (E : Surroundings) (s : State) (x : RunM α) (Q : α → State → Prop) : Prop :=
  E.Mirrors id s x x Q

/-- The part of a run does the same in the surroundings and keeps to the footing. -/
abbrev Follows (E : Surroundings) (b : Footing) (s : State) (x : RunM (Progress k)) : Prop :=
  E.Mirrors E.progress s x x (Progress.At E b)

section Rules

variable {x y : RunM α} {f g : α → RunM β} {lift : α → α} {lift' : β → β}
  {R : α → State → Prop} {Q Q' : β → State → Prop}

theorem Mirrors.bind_lift (hx : E.Mirrors lift s x y R)
    (hf : ∀ a t, R a t → E.Mirrors lift' t (f a) (g (lift a)) Q) :
    E.Mirrors lift' s (x >>= f) (y >>= g) Q := by
  intro config
  have hx := hx config
  simp only [Bind.bind, ReaderT.bind, EStateM.bind]
  cases h : x config s with
  | ok a t =>
    rw [h] at hx
    obtain ⟨hr, hy⟩ := hx
    rw [hy]
    exact hf a t hr config
  | error e t =>
    rw [h] at hx
    exact hx.imp id fun hy => by rw [hy]

theorem Mirrors.bind (hx : E.Mirrors id s x y R)
    (hf : ∀ a t, R a t → E.Mirrors lift' t (f a) (g a) Q) :
    E.Mirrors lift' s (x >>= f) (y >>= g) Q := .bind_lift hx hf

/-- A computation that leaves the state as it is. -/
theorem Mirrors.query_bind (hx : E.Mirrors id s x y fun _ t => t = s)
    (hf : ∀ a, E.Mirrors lift' s (f a) (g a) Q) : E.Mirrors lift' s (x >>= f) (y >>= g) Q :=
  .bind hx fun a _ ht => ht ▸ hf a

theorem Mirrors.discard {x : RunM α} {I : State → Prop} (hx : E.Local s x fun _ t => I t) :
    E.Local s (Functor.discard x) fun _ t => I t := by
  intro config
  have hx := hx config
  simp only [Functor.discard, Functor.mapConst, EStateM.map, Function.comp]
  cases h : x config s with
  | ok a t =>
    rw [h] at hx
    exact ⟨hx.1, by rw [hx.2]⟩
  | error e t =>
    rw [h] at hx
    exact hx.imp id fun hy => by rw [hy]

theorem Mirrors.mono {x y : RunM β} (hx : E.Mirrors lift' s x y Q)
    (hq : ∀ b t, Q b t → Q' b t) : E.Mirrors lift' s x y Q' := by
  intro config
  have hx := hx config
  cases h : x config s with
  | ok a t => rw [h] at hx; exact hx.imp (hq a t) id
  | error e t => rw [h] at hx; exact hx

theorem Mirrors.pure {a a' : β} (ha : a' = lift' a) (hq : Q a s) :
    E.Mirrors lift' s (pure a) (pure a') Q := fun _ => ⟨hq, by rw [ha]; rfl⟩

theorem Mirrors.throw {fault : Fault} : E.Mirrors lift' s (throw fault) (throw fault) Q :=
  fun _ => .inr rfl

theorem Mirrors.fail {cause : FaultCause} : E.Mirrors lift' s (fail cause) (fail cause) Q :=
  fun _ => .inr rfl

theorem Mirrors.fail_bind {cause : FaultCause} :
    E.Mirrors lift' s (RunM.fail cause >>= f) (RunM.fail cause >>= g) Q := fun _ => .inr rfl

theorem Mirrors.get_bind_state {f g : State → RunM β}
    (h : E.Mirrors lift' s (f s) (g (E.state s)) Q) :
    E.Mirrors lift' s (get >>= f) (get >>= g) Q := fun config => h config

/-- What is read from the state and looks the same in the surroundings. -/
theorem Mirrors.get_bind {f g : State → RunM β} (he : g (E.state s) = g s)
    (h : E.Mirrors lift' s (f s) (g s) Q) : E.Mirrors lift' s (get >>= f) (get >>= g) Q :=
  .get_bind_state (he.symm ▸ h)

/-- What is read from the configuration and looks the same in the surroundings. -/
theorem Mirrors.read_bind {f g : Config → RunM β} (he : ∀ c, g (E.config c) = g c)
    (h : ∀ c, E.Mirrors lift' s (f c) (g c) Q) :
    E.Mirrors lift' s (read >>= f) (read >>= g) Q := by
  intro c
  have h := h c c
  rw [← he c] at h
  exact h

theorem Mirrors.inspect_bind {h : State → α} (he : h (E.state s) = h s)
    (hf : E.Mirrors lift' s (f (h s)) (g (h s)) Q) :
    E.Mirrors lift' s (inspect h >>= f) (inspect h >>= g) Q := by
  have hf : E.Mirrors lift' s (f (h s)) (g (h (E.state s))) Q := he.symm ▸ hf
  exact fun config => hf config

theorem Mirrors.modify {h h' : State → State} {Q : Unit → State → Prop}
    (he : h' (E.state s) = E.state (h s)) (hq : Q () (h s)) :
    E.Mirrors id s (modify h) (modify h') Q := by
  refine fun config => ⟨hq, ?_⟩
  change EStateM.Result.ok () (h' (E.state s)) = _
  rw [he]

theorem Mirrors.ite {p : Prop} [Decidable p] {x y x' y' : RunM β}
    (hx : E.Mirrors lift' s x x' Q) (hy : E.Mirrors lift' s y y' Q) :
    E.Mirrors lift' s (if p then x else y) (if p then x' else y') Q := by
  split
  · exact hx
  · exact hy

/-- A check that may end the computation. -/
theorem Mirrors.check {p : Prop} [Decidable p] {x : RunM PUnit} {f g : PUnit → RunM β}
    (hx : E.Local s x fun _ t => t = s) (hf : E.Mirrors lift' s (f ⟨⟩) (g ⟨⟩) Q) :
    E.Mirrors lift' s (if p then x >>= f else f ⟨⟩) (if p then x >>= g else g ⟨⟩) Q := by
  split
  · exact .query_bind hx fun _ => hf
  · exact hf

/-- A computation whose fault is passed on. -/
theorem Mirrors.outcome_bind {h h' : Except Fault α → RunM β} (hx : E.Mirrors lift s x y R)
    (hok : ∀ a t, R a t → E.Mirrors lift' t (h (.ok a)) (h' (.ok (lift a))) Q)
    (herror : ∀ e t, E.Mirrors lift' t (h (.error e)) (h' (.error e)) Q)
    (hr : ∀ e, (h (.error e)).Rethrows e) :
    E.Mirrors lift' s (outcome x >>= h) (outcome y >>= h') Q := by
  intro config
  have hx := hx config
  simp only [Bind.bind, ReaderT.bind, EStateM.bind, outcome]
  cases hx' : x config s with
  | ok a t =>
    rw [hx'] at hx
    obtain ⟨hq, hy⟩ := hx
    rw [hy]
    exact hok a t hq config
  | error e t =>
    rw [hx'] at hx
    rcases hx with ⟨hw, he⟩ | hy
    · obtain ⟨e', u, hu, hc⟩ := hr e config t
      dsimp only
      rw [hu]
      exact .inl ⟨hw, (Fault.isOverflow_congr hc).trans he⟩
    · rw [hy]
      exact herror e t config

/-- A loop, each round of which keeps `I`. -/
theorem Mirrors.forIn {as : List γ} {body : γ → PUnit → RunM (ForInStep PUnit)} {I : State → Prop}
    (hs : I s) (hb : ∀ a ∈ as, ∀ t, I t →
      E.Local t (body a ⟨⟩) fun step u => step = .yield ⟨⟩ ∧ I u) :
    E.Local s (forIn as PUnit.unit body) fun _ t => I t := by
  induction as generalizing s with
  | nil => exact .pure rfl hs
  | cons a as ih =>
    rw [List.forIn_cons]
    refine .bind (hb a List.mem_cons_self s hs) fun step t ⟨hy, ht⟩ => ?_
    subst hy
    exact ih ht fun a ha => hb a (List.mem_cons_of_mem _ ha)

theorem Mirrors.forM {as : List γ} {body : γ → RunM PUnit} {I : State → Prop} (hs : I s)
    (hb : ∀ a ∈ as, ∀ t, I t → E.Local t (body a) fun _ u => I u) :
    E.Local s (as.forM body) fun _ t => I t := by
  induction as generalizing s with
  | nil => exact .pure rfl hs
  | cons a as ih =>
    refine .bind (hb a List.mem_cons_self s hs) fun _ t ht => ?_
    exact ih ht fun a ha => hb a (List.mem_cons_of_mem _ ha)

end Rules

section State

def context (E : Surroundings) (ctx : OperatorContext) : OperatorContext :=
  { ctx with numerics := ctx.numerics.wrapping E.wraps }

theorem context_of_not_wraps (h : E.wraps = false) (ctx : OperatorContext) :
    E.context ctx = ctx := by
  rw [context, h, Numerics.wrapping_false]

theorem context_eq_or {x : OperatorM α} (hx : x.Conservative) (ctx : OperatorContext)
    (heap : Heap) : x (E.context ctx) heap = x ctx heap ∨
      ∃ e heap', x ctx heap = .error e heap' ∧ E.Forgives e := by
  cases hw : E.wraps with
  | false => exact .inl (by rw [context_of_not_wraps hw])
  | true =>
    rw [context, hw]
    exact (hx ctx heap).imp id fun ⟨e, heap', h, he⟩ => ⟨e, heap', h, hw, he⟩

/-- What an operator does is done in all surroundings. -/
theorem local_operate {x : OperatorM α} (hx : x.Conservative) :
    E.Local s (operate x) fun _ t => s.Keeps t := by
  intro c
  have h := context_eq_or (E := E) hx ⟨c.numerics, s.tables, s.cursor⟩ s.heap
  cases hr : x ⟨c.numerics, s.tables, s.cursor⟩ s.heap with
  | ok a heap =>
    rw [operate_ok hr]
    rcases h with h | ⟨e, heap', h, -⟩
    · exact ⟨.of_eq rfl rfl, operate_ok (s := E.state s) (c := E.config c) (h.trans hr)⟩
    · cases hr.symm.trans h
  | error e heap =>
    rw [operate_error hr]
    rcases h with h | ⟨e', heap', h, he⟩
    · exact .inr (operate_error (s := E.state s) (c := E.config c) (h.trans hr))
    · cases hr.symm.trans h
      exact .inl he

theorem local_onHeap (x : HeapM α) : E.Local s (onHeap x) fun _ t => s.Keeps t :=
  local_operate (.heap x)

theorem local_alloc (cells : Array Value) : E.Local s (alloc cells) fun _ t => s.Keeps t :=
  local_onHeap _

/-- What is computed from the state without a look at the scopes. -/
theorem local_inspect {f : State → α} (hf : f (E.state s) = f s) :
    E.Local s (inspect f) fun a t => a = f s ∧ t = s :=
  .get_bind (by rw [hf]) (.pure rfl ⟨rfl, rfl⟩)

theorem local_text (v : Value) : E.Local s (text v) fun _ t => t = s :=
  (local_inspect rfl).mono fun _ _ h => h.2

/-- A change of something else than scopes and tables. -/
theorem local_modify {h : State → State} (he : h (E.state s) = E.state (h s))
    (hs : (h s).scopes = s.scopes) (ht : (h s).tables = s.tables) :
    E.Local s (modify h) fun _ t => s.Keeps t := .modify he (.of_eq hs ht)

theorem local_setCursor (node : Option Node) :
    E.Local s (setCursor node) fun _ t => s.Keeps t :=
  local_modify rfl rfl rfl

theorem local_pushScope (name : String) : E.Local s (pushScope name) fun _ t =>
    t = { s with scopes := s.scopes.push name } :=
  .modify rfl rfl

/-- Leaving a scope of one's own. -/
theorem local_popScope {n : Nat} (h : State.Above (n + 1) s t) :
    E.Local t popScope fun _ u => State.Above n s u := by
  refine .modify ?_ h.pop
  have hn : t.scopes.inner ≠ [] := by
    obtain ⟨opened, ho, hi⟩ := h.inner
    rw [hi]
    exact List.append_ne_nil_of_left_ne_nil (List.ne_nil_of_length_eq_add_one ho) _
  simp only [state, pop_scopes fun h => absurd h hn]

/-- Names are added to the innermost scope. -/
theorem local_declare (ha : E.Admits s) (name : String) (p : Place) :
    E.Local s (declare name p) fun _ t => s.Gains t := by
  refine .get_bind_state ?_
  simp only [state, define?_scopes ha.ne_nil, current_scopes ha.ne_nil]
  cases hd : s.scopes.define? name p with
  | none => exact .fail
  | some scopes => exact fun _ => ⟨.of_define? hd, rfl⟩

theorem local_defineVariable (ha : E.Admits s) (name : String) (v : Value) :
    E.Local s (defineVariable name v) fun _ t => s.Gains t := by
  refine .bind (local_onHeap _) fun p t ht => ?_
  exact (local_declare (ha.above ht) name p).mono fun _ u hu => (State.Gains.of_keeps ht).trans hu

end State

section Visits

variable {next : Frames .value k}

/-- An expression that is visited has the footing on which its frames rest. -/
theorem follows_visit (e : Expr) (hint : Option StructTy) (ha : E.Admits s)
    (hu : next.under E.outer.length = next) (hn : next.Leads E ⟨s, false⟩ b) :
    E.Follows b s (visit e hint next) := by
  refine .get_bind rfl (.bind (local_setCursor _) fun _ t ht => .pure ?_ ?_)
  · simp only [progress, Progress.under, Frames.under_cons, hu]
    rfl
  · refine ⟨⟨s, false⟩, ⟨fun _ => ha, id, ht⟩, ?_⟩
    exact .cons ⟨ha, fun h => absurd h Bool.false_ne_true, .refl _⟩ hn

/-- A statement that is visited declares names if it is a declaration. -/
theorem follows_visitStmt {next : Frames .flow k} (st : Stmt) (inSwitch : Bool) (ha : E.Admits s)
    (hu : next.under E.outer.length = next) (hn : next.Leads E ⟨s, st.isDeclaration⟩ b) :
    E.Follows b s (visitStmt st inSwitch next) := by
  refine .get_bind rfl (.bind (local_setCursor _) fun _ t ht => .pure ?_ ?_)
  · simp only [progress, Progress.under, Frames.under_cons, hu]
    rfl
  · refine ⟨⟨s, st.isDeclaration⟩, ⟨fun _ => ha, id, Footing.allows_of_keeps ht⟩, ?_⟩
    exact .cons ⟨ha, fun h => absurd h Bool.false_ne_true, .refl _⟩ hn

/-- A suspended part of a computation that a frame waits for. -/
theorem mirrors_paused {i : Completion} {p : Pause i} {path : Frames i j} {frame : Frame j k}
    (hp : (Progress.paused p path).At E b s) (hr : frame.Rests E b c) :
    E.Mirrors E.progress s (pure (.paused p (path ++ Frames.one frame)))
      (pure (.paused p
        (path.under E.outer.length ++ Frames.one (frame.under E.outer.length))))
      (Progress.At E c) := by
  obtain ⟨top, hstands, hpath⟩ := hp
  refine .pure ?_ ⟨top, hstands, hpath.append (.one hr)⟩
  simp only [progress, Progress.under, Frames.under_append]
  rfl

/-- A part of a computation that a frame waits for. -/
theorem mirrors_andThen {p : Progress j} {frame : Frame j k}
    {f g : j.Result → RunM (Progress k)} (hp : p.At E b s) (hr : frame.Rests E b c)
    (hd : ∀ r, b.Allows s → E.Mirrors E.progress s (f r) (g r) (Progress.At E c)) :
    E.Mirrors E.progress s (p.andThen frame f)
      ((E.progress p).andThen (frame.under E.outer.length) g) (Progress.At E c) := by
  cases p with
  | done r => exact hd r hp
  | paused p path => exact mirrors_paused hp hr

end Visits

end Surroundings

end Stepwise
