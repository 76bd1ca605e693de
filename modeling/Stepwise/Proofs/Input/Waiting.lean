import Stepwise.Proofs.Closure.Frames
import Stepwise.Proofs.Closure.Steps

/-! # Input that comes later

A host may feed input before a part of a run or after it. To all that does not read the
console this makes no difference. Once the input is closed, nothing more is supplied.

A part of a run that waits for input has come as far as it can without more. When input is
supplied and the wait goes on, it gets to where the same part of the run gets at once if the
input is there before.
-/

namespace Stepwise

/-- Text that a host feeds, and whether it closes the input then. -/
structure Supply where
  text : List Char
  closes : Bool := false

namespace Console

/-- Feeds a supply, unless the input is closed. -/
def supply (e : Supply) (c : Console) : Console :=
  if c.closed then c else { c with input := c.input ++ e.text, closed := e.closes }

theorem supply_closed {c : Console} (h : c.closed = true) (e : Supply) : c.supply e = c := if_pos h

theorem supply_open {c : Console} (h : c.closed = false) (e : Supply) :
    c.supply e = { c with input := c.input ++ e.text, closed := e.closes } := by
  rw [supply, h]
  rfl

theorem supply_nothing (c : Console) : c.supply ⟨[], false⟩ = c := by
  cases h : c.closed with
  | true => exact supply_closed h _
  | false => rw [supply_open h, List.append_nil, ← h]

theorem closed_read (c : Console) : c.read.2.closed = c.closed := by
  unfold read
  split <;> rfl

theorem supply_write (e : Supply) (c : Console) (text : String) :
    (c.supply e).write text = (c.write text).supply e := by
  unfold supply write
  split <;> rfl

end Console

namespace State

def supply (e : Supply) (s : State) : State := { s with console := s.console.supply e }

variable {e : Supply} {s : State}

@[simp] theorem heap_supply : (s.supply e).heap = s.heap := rfl

@[simp] theorem scopes_supply : (s.supply e).scopes = s.scopes := rfl

@[simp] theorem tables_supply : (s.supply e).tables = s.tables := rfl

@[simp] theorem cursor_supply : (s.supply e).cursor = s.cursor := rfl

end State

namespace RunM

variable {α β : Type}

/-- The result, with the supply fed after it. -/
def supplied (e : Supply) :
    EStateM.Result Fault State α → EStateM.Result Fault State α
  | .ok a s => .ok a (s.supply e)
  | .error f s => .error f (s.supply e)

/-- The computation does the same whatever input there is, and its results are as `Q` says. -/
structure IgnoresInput (x : RunM α) (Q : α → Prop) : Prop where
  supply : ∀ e c s, x c (s.supply e) = supplied e (x c s)
  result : ∀ {c s a t}, x c s = .ok a t → Q a

namespace IgnoresInput

variable {x : RunM α} {Q : α → Prop}

theorem pure {a : α} (ha : Q a) : (pure a : RunM α).IgnoresInput Q where
  supply _ _ _ := rfl
  result h := by cases h; exact ha

theorem bind {R : α → Prop} {Q : β → Prop} {f : α → RunM β} (hx : x.IgnoresInput R)
    (hf : ∀ a, R a → (f a).IgnoresInput Q) : (x >>= f).IgnoresInput Q where
  supply e c s := by
    simp only [Bind.bind, ReaderT.bind, EStateM.bind, hx.supply e c s]
    cases h : x c s with
    | ok a t => exact (hf a (hx.result h)).supply e c t
    | error f t => rfl
  result {c s b u} h := by
    simp only [Bind.bind, ReaderT.bind, EStateM.bind] at h
    split at h
    · rename_i a t ha
      exact (hf a (hx.result ha)).result h
    · cases h

theorem raise (fault : Fault) : (throw fault : RunM α).IgnoresInput Q where
  supply _ _ _ := rfl
  result h := by cases h

theorem read_bind {f : Config → RunM β} {Q : β → Prop} (hf : ∀ c, (f c).IgnoresInput Q) :
    (read >>= f).IgnoresInput Q where
  supply e c s := (hf c).supply e c s
  result {c _ _ _} h := (hf c).result h

theorem get_bind {f : State → RunM β} {Q : β → Prop}
    (hc : ∀ s console, f { s with console } = f s) (hf : ∀ s, (f s).IgnoresInput Q) :
    (get >>= f).IgnoresInput Q where
  supply e c s := by
    change f (s.supply e) c (s.supply e) = supplied e (f s c s)
    rw [State.supply, hc]
    exact (hf s).supply e c s
  result {_ s _ _} h := (hf s).result h

theorem modify_supply {h : State → State} (hh : ∀ e s, h (s.supply e) = (h s).supply e) :
    (modify h : RunM Unit).IgnoresInput fun _ => True where
  supply e c s := by
    change EStateM.Result.ok () (h (s.supply e)) = .ok () ((h s).supply e)
    rw [hh]
  result _ := trivial

theorem change {h : State → State} (hh : State.Change h) :
    (modify h : RunM Unit).IgnoresInput fun _ => True := by
  refine modify_supply fun e s => ?_
  rw [State.supply, hh.console, State.supply, hh.console_eq]

theorem declare (name : String) (p : Place) :
    (declare name p).IgnoresInput fun _ => True where
  supply e c s := by
    rw [declare_apply, declare_apply, State.scopes_supply]
    cases s.scopes.define? name p <;> rfl
  result _ := trivial

theorem writeConsole (text : String) : (writeConsole text).IgnoresInput fun _ => True :=
  modify_supply fun e s => by
    change { s with console := (s.console.supply e).write text } = _
    rw [Console.supply_write]
    rfl

theorem operate (x : OperatorM α) : (operate x).IgnoresInput fun _ => True where
  supply e c s := by
    unfold RunM.operate
    dsimp only [State.heap_supply, State.tables_supply, State.cursor_supply]
    cases (x.run ⟨c.numerics, s.tables, s.cursor⟩).run s.heap <;> rfl
  result _ := trivial

theorem ask {x : ReadM α} (hx : ∀ U, ReadM.Closed U → U α x) :
    (ask x).IgnoresInput fun _ => True where
  supply e c s := by
    have ha : ReadM.Agree (c, s) (c, s.supply e) := ⟨⟨rfl, rfl, rfl, rfl, fun _ => rfl⟩, rfl⟩
    unfold RunM.ask
    rw [hx _ ReadM.closed_agree _ _ ha]
    cases x (c, s) <;> rfl
  result _ := trivial

theorem rescue {x : RunM α} {f : Except Fault α → RunM β} {y : RunM Unit} {R : α → Prop}
    {Q : β → Prop} (hx : x.IgnoresInput R) (hf : ∀ a, R a → (f (.ok a)).IgnoresInput Q)
    (hy : y.IgnoresInput fun _ => True) (hr : ∀ fault, f (.error fault) = do y; throw fault) :
    (outcome x >>= f).IgnoresInput Q := by
  have hfault (fault : Fault) : (f (.error fault)).IgnoresInput Q := by
    rw [hr]
    exact bind hy fun _ _ => raise fault
  constructor
  · intro e c s
    simp only [outcome, Bind.bind, ReaderT.bind, EStateM.bind, hx.supply e c s]
    cases h : x c s with
    | ok a t => exact (hf a (hx.result h)).supply e c t
    | error fault t => exact (hfault fault).supply e c t
  · intro c s b u h
    simp only [outcome, Bind.bind, ReaderT.bind, EStateM.bind] at h
    cases hs : x c s with
    | ok a t => exact (hf a (hx.result hs)).result (by simpa only [hs] using h)
    | error fault t => exact (hfault fault).result (by simpa only [hs] using h)

end IgnoresInput

theorem sequential_ignoresInput : Sequential fun _ x Q => x.IgnoresInput Q where
  pure := .pure
  bind := .bind
  raise fault _ := .raise fault
  read_bind := .read_bind
  get_bind := .get_bind
  ask := .ask

theorem closed_ignoresInput : Closed fun _ x Q => x.IgnoresInput Q :=
  have hname (name : String) (ty : Ty) : (defineTypedef name ty).IgnoresInput fun _ => True :=
    .change ⟨fun _ => rfl, fun _ => rfl, fun _ _ => rfl⟩
  { sequential_ignoresInput with
    setCursor := fun _ => .change ⟨fun _ => rfl, fun _ => rfl, fun _ _ => rfl⟩
    change := fun hh => .change hh.toChange
    declare := .declare
    writeConsole := .writeConsole
    alloc := fun cells => IgnoresInput.operate (HeapM.alloc cells)
    operate := fun _ => .operate _
    write := fun _ => .operate _
    register := sequential_ignoresInput.register_of_change (fun hh _ => .change hh) fun _ =>
      .get_bind (fun _ _ => rfl) fun _ => .raise _
    resolveCall := sequential_ignoresInput.resolveCall_of_change fun hh _ => .change hh
    nameArith := fun name k => hname name (.arith k)
    defineTypedefs := sequential_ignoresInput.defineTypedefs_of_names hname
    rescue := .rescue }

theorem ignoresInput_make (m : Making) : (make m).IgnoresInput Progress.Proceeds :=
  closed_ignoresInput.inspect_bind (fun _ _ => rfl) fun depth =>
    closed_ignoresInput.makeWithin (fun _ => .get_bind (fun _ _ => rfl) fun _ => .raise _) depth m

theorem ignoresInput_defineStruct (d : StructTy) :
    (defineStruct d).IgnoresInput fun _ => True :=
  .modify_supply fun _ _ => rfl

end RunM

variable {j k : Completion}

namespace RunM

/-- What a result becomes when a supply follows it: a computation that waits for input goes on, and
all others stay where they are. -/
def settle (e : Supply) (c : Config) :
    EStateM.Result Fault State (Progress k) → EStateM.Result Fault State (Progress k)
  | .ok (.paused .input path) s => step .input path c (s.supply e)
  | y => supplied e y

/-- Input may come before the computation or at its end, and the computation waits for input only
when there is none. -/
structure Absorbs (x : RunM (Progress k)) : Prop where
  settles : ∀ e c s, x c (s.supply e) = settle e c (x c s)
  waits : ∀ {c s path t}, x c s = .ok (.paused .input path) t →
    t.console.input = [] ∧ t.console.closed = false

section Settle

variable {e : Supply} {c : Config} {s : State} {path : Frames j k}

theorem settle_proceeds {p : Progress k} (hp : p.Proceeds) :
    settle e c (.ok p s) = .ok p (s.supply e) := by
  cases p with
  | done r => rfl
  | paused p path => cases p <;> first | rfl | cases hp

end Settle

namespace Absorbs

theorem of_ignoresInput {x : RunM (Progress k)} (hx : x.IgnoresInput Progress.Proceeds) :
    x.Absorbs where
  settles e c s := by
    rw [hx.supply e c s]
    cases h : x c s with
    | ok p t => exact (settle_proceeds (hx.result h)).symm
    | error fault t => rfl
  waits h := (hx.result h).elim

theorem bind {α : Type} {x : RunM α} {R : α → Prop} {f : α → RunM (Progress k)}
    (hx : x.IgnoresInput R) (hf : ∀ a, R a → (f a).Absorbs) : (x >>= f).Absorbs where
  settles e c s := by
    simp only [Bind.bind, ReaderT.bind, EStateM.bind, hx.supply e c s]
    cases h : x c s with
    | ok a t => exact (hf a (hx.result h)).settles e c t
    | error fault t => rfl
  waits h := by
    obtain ⟨a, t, hxa, hfa⟩ := bind_eq_ok h
    exact (hf a (hx.result hxa)).waits hfa

theorem read_bind {f : Config → RunM (Progress k)} (hf : ∀ c, (f c).Absorbs) :
    (read >>= f).Absorbs where
  settles e c s := (hf c).settles e c s
  waits {c _ _ _} h := (hf c).waits h

theorem get_bind {f : State → RunM (Progress k)} (hc : ∀ s console, f { s with console } = f s)
    (hf : ∀ s, (f s).Absorbs) : (get >>= f).Absorbs where
  settles e c s := by
    change f (s.supply e) c (s.supply e) = settle e c (f s c s)
    rw [State.supply, hc]
    exact (hf s).settles e c s
  waits {_ s _ _} h := (hf s).waits h

/-- Reading a character when there is none is the wait itself. -/
theorem readCharacter : readCharacter.Absorbs where
  settles e c s := by
    obtain ⟨heap, scopes, namespaces, tables, functions, structs, typedefs,
      ⟨output, input, closed⟩⟩ := s
    cases closed with
    | true => cases input <;> rfl
    | false =>
      cases input with
      | cons x rest => rfl
      | nil => exact (congrFun (congrFun (step_nil .input) c) _).symm
  waits {c s _ _} h := by
    obtain ⟨heap, scopes, namespaces, tables, functions, structs, typedefs,
      ⟨output, input, closed⟩⟩ := s
    cases input with
    | cons x rest => cases h
    | nil =>
      cases closed with
      | true => cases h
      | false => cases h; exact ⟨rfl, rfl⟩

end Absorbs

theorem ignoresInput_unwind {α : Type} {Q : α → Prop} (path : Frames j k) (fault : Fault) :
    (unwind path fault : RunM α).IgnoresInput Q := by
  induction path generalizing fault with
  | nil => exact .raise fault
  | cons f fs ih =>
    cases f with
    | leave node previous => exact ih _
    | endCall entry depth => exact .bind (closed_ignoresInput.leaveScopes depth) fun _ _ => ih _
    | _ => exact ih _

namespace Absorbs

/-- A computation inside frames that take its result. -/
theorem within {path : Frames j k} {x : RunM (Progress j)} (hx : x.Absorbs)
    (hn : ∀ r, (resumeFrames path r).Absorbs) :
    (within path x (resumeFrames path)).Absorbs where
  settles e c s := by
    have hxs := hx.settles e c s
    cases h : x c s with
    | error fault t =>
      rw [h] at hxs
      rw [within_error h, within_error hxs]
      exact (of_ignoresInput (ignoresInput_unwind path fault)).settles e c t
    | ok p t =>
      rw [h] at hxs
      cases p with
      | done r =>
        rw [within_done h, within_done hxs]
        exact (hn r).settles e c t
      | paused p inner =>
        rw [within_paused h]
        cases p with
        | input =>
          -- The wait goes on in the frames as it does without them.
          have hstep := congrFun (congrFun (step_append inner path .input) c) (t.supply e)
          change _ = step .input (inner ++ path) c (t.supply e)
          rw [hstep]
          simp only [RunM.within, outcome, Bind.bind, ReaderT.bind, EStateM.bind]
          rw [hxs]
          rfl
        | _ => exact within_paused hxs
  waits {c s _ u} hw := by
    cases h : x c s with
    | error fault t =>
      rw [within_error h] at hw
      exact (of_ignoresInput (ignoresInput_unwind path fault)).waits hw
    | ok p t =>
      cases p with
      | done r =>
        rw [within_done h] at hw
        exact (hn r).waits hw
      | paused p inner =>
        rw [within_paused h] at hw
        cases hw
        exact hx.waits h

/-- A part of a computation, and a frame that takes its result. -/
theorem andThen {f : Frame j k} {x : RunM (Progress j)}
    (hu : ∀ fault, (unwind (.one f) fault : RunM (Progress k)) = throw fault)
    (hx : x.Absorbs) (hf : ∀ r, (resumeFrame f r).Absorbs) :
    (x >>= fun p => p.andThen f (resumeFrame f)).Absorbs := by
  have hwithin : (x >>= fun p => p.andThen f (resumeFrame f)) =
      RunM.within (.one f) x (resumeFrames (.one f)) := by
    funext c s
    simp only [Bind.bind, ReaderT.bind, EStateM.bind]
    cases h : x c s with
    | error fault t => rw [within_error h, hu]; rfl
    | ok p t =>
      cases p with
      | done r => rw [within_done h, resumeFrames_one]; rfl
      | paused p path => rw [within_paused h]; rfl
  rw [hwithin]
  refine within hx fun r => ?_
  rw [resumeFrames_one]
  exact hf r

end Absorbs

section Calls

theorem absorbs_invoke (target : CallTarget) (args : List Value) :
    (invoke target args).Absorbs := by
  refine .bind (closed_ignoresInput.function _) fun entry _ => ?_
  refine .bind (closed_ignoresInput.boundArguments args _ _) fun bound _ => ?_
  split
  · rename_i f _
    by_cases hf : f = .getchar
    · subst hf
      exact .readCharacter
    · exact .of_ignoresInput (closed_ignoresInput.callLibrary hf bound)
  · exact .of_ignoresInput (closed_ignoresInput.fail _ rfl)
  · exact .of_ignoresInput (closed_ignoresInput.enterBody entry _ _ bound)

theorem absorbs_call (f : Value) (args : List Value) : (call f args).Absorbs := by
  rw [call_eq_resolveCall]
  exact .bind (closed_ignoresInput.resolveCall f args) fun _ _ => absorbs_invoke _ args

theorem absorbs_nextArgument (f : Value) (values : List Value) (hint : Option StructTy)
    (args : List Expr) : (nextArgument f values hint args).Absorbs := by
  cases args with
  | nil => exact absorbs_call f _
  | cons e rest => exact .of_ignoresInput (closed_ignoresInput.visit e hint _)

theorem absorbs_callMain : callMain.Absorbs := by
  refine .get_bind (fun _ _ => rfl) fun s => ?_
  refine .bind (closed_ignoresInput.named _ _) fun main _ => ?_
  refine .andThen (f := .exitStatus) (fun _ => rfl) (absorbs_call main []) fun v => ?_
  refine .bind (closed_ignoresInput.exitStatus v) fun _ _ => ?_
  exact .of_ignoresInput (.pure trivial)

theorem absorbs_runItems (items : List Stmt) : (runItems items).Absorbs := by
  cases items with
  | nil => exact absorbs_callMain
  | cons s rest => exact .of_ignoresInput (closed_ignoresInput.visitStmt s false _)

theorem absorbs_begin (p : Program) : (begin p).Absorbs := by
  refine .read_bind fun c => .bind (R := fun _ => True) ?_ fun _ _ => absorbs_runItems p.items
  refine closed_ignoresInput.forIn fun name => ?_
  refine .bind (closed_ignoresInput.loadLibrary ignoresInput_defineStruct name) fun _ _ => ?_
  exact .pure rfl

theorem absorbs_eachBegin (spec : TypeSpec) (d : Declarator) (range : Expr) (body : Stmt)
    (inSwitch : Bool) (v : Value) : (eachBegin spec d range body inSwitch v).Absorbs := by
  have helement (v : Value) : (eachElement spec d range body inSwitch v).Absorbs :=
    .of_ignoresInput (closed_ignoresInput.eachElement spec d range body inSwitch v)
  unfold eachBegin
  split
  · refine .get_bind (fun _ _ => rfl) fun s => ?_
    split
    · refine .bind (closed_ignoresInput.member v _) fun method _ => ?_
      exact .andThen (f := .eachIterable spec d range body inSwitch) (fun _ => rfl)
        (absorbs_call method []) helement
    · exact .of_ignoresInput (closed_ignoresInput.notIterable range v)
  · exact helement v

end Calls

section Steps

theorem absorbs_resumePause (p : Pause j) : (resumePause p).Absorbs := by
  cases p with
  | start p => exact absorbs_begin p
  | expr e hint => exact .of_ignoresInput (closed_ignoresInput.evaluate ignoresInput_make e hint)
  | stmt s inSwitch =>
    refine .of_ignoresInput ?_
    cases hs : s.definesStruct with
    | true => exact closed_ignoresInput.execute_definition ignoresInput_defineStruct hs inSwitch
    | false => exact closed_ignoresInput.execute ignoresInput_make hs inSwitch
  | label value => exact .of_ignoresInput (closed_ignoresInput.visit value none _)
  | switch s opens => exact .of_ignoresInput (closed_ignoresInput.resumeSwitchPause s opens)
  | input => exact .readCharacter

theorem absorbs_resumeFrame (f : Frame j k) (r : j.Result) : (resumeFrame f r).Absorbs := by
  cases hf : f.mayCall with
  | false => exact .of_ignoresInput (closed_ignoresInput.resumeFrame ignoresInput_make hf r)
  | true =>
    cases f with
    | callee args hint => exact absorbs_nextArgument r [] hint args
    | argument g values rest hint => exact absorbs_nextArgument g (r :: values) hint rest
    | items rest => exact absorbs_runItems rest
    | eachRange spec d range body inSwitch => exact absorbs_eachBegin spec d range body inSwitch r
    | _ => cases hf

theorem absorbs_resumeFrames (path : Frames j k) (r : j.Result) :
    (resumeFrames path r).Absorbs := by
  induction path with
  | nil => exact .of_ignoresInput (.pure trivial)
  | cons frame rest ih => exact .within (absorbs_resumeFrame frame r) ih

/-- Input may come before a step or at its end: a step that waits for it goes on. -/
theorem absorbs_step (p : Pause j) (path : Frames j k) : (step p path).Absorbs :=
  .within (absorbs_resumePause p) (absorbs_resumeFrames path)

end Steps

end RunM

end Stepwise
