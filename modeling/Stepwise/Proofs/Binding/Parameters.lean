import Stepwise.Proofs.Binding.Prototypes
import Stepwise.Proofs.Constants.Assignments
import Stepwise.Proofs.Locality.ScopeDiscipline

/-! # The parameters of a body

A call binds its arguments by the type that its function was registered with. A definition that
completes a prototype leaves it that type, and the two are as good as equal for overload
resolution: what tells them apart, most of all the constness of parameters that are passed by
value, is that of the prototype when the body runs.
-/

namespace Stepwise

open RunM

namespace State

variable {s t u : State} {name : String} {p : Place} {v : Value}

/-- The name stands for a cell that has the type and the constness of the parameter. -/
def Declares (s : State) (name : String) (p : Place) (param : ParamTy) : Prop :=
  s.lookup name = some p ∧
    ∃ v, s.load? p = some v ∧ v.ty.named = param.ty.named ∧ v.readonly = param.readonly

/-- The innermost scope has the name, for a cell with the value. -/
structure Binds (s : State) (name : String) (p : Place) (v : Value) : Prop where
  current : s.scopes.current.get? name = some p
  cell : s.load? p = some v

theorem Binds.declares {param : ParamTy} (h : s.Binds name p v)
    (hty : v.ty.named = param.ty.named) (hr : v.readonly = param.readonly) :
    s.Declares name p param := by
  refine ⟨?_, v, h.cell, hty, hr⟩
  rw [lookup, Scopes.lookup_of_current h.current]
  rfl

/-- The innermost scope keeps its names. -/
theorem Gains.get?_current (h : s.Gains t) (hp : s.scopes.current.get? name = some p) :
    t.scopes.current.get? name = some p := by
  have hzero (r : State) : r.scopes.binding? 0 name = r.scopes.current.get? name := by
    unfold Scopes.binding? Scopes.current
    cases r.scopes.inner <;> rfl
  rw [← hzero] at hp ⊢
  exact h.binding? hp

end State

theorem Heap.load?_alloc {h : Heap} {p : Place} {v : Value} (hv : h.load? p = some v)
    (cells : Array Value) : (h.alloc cells).2.load? p = some v := by
  obtain ⟨cell, hc, rfl⟩ := Option.map_eq_some_iff.mp hv
  have hb := lt_size_of_mem_cells (Array.mem_of_getElem? hc)
  rw [load?, cells_alloc, if_neg (Nat.ne_of_lt hb), hc]
  rfl

namespace RunM

variable {c : Config} {s t u w : State} {name : String} {p : Place} {v : Value}

/-- Another name that is bound leaves those of the innermost scope and their cells. -/
theorem binds_of_bindParameter {name' : Option String} {v' : Value} {a : Unit}
    (h : bindParameter name' v' c s = .ok a t) (hb : s.Binds name p v) : t.Binds name p v := by
  unfold bindParameter at h
  cases name' with
  | none =>
    cases h
    exact hb
  | some name' =>
    cases hp : v'.place with
    | some p' =>
      rw [hp] at h
      obtain ⟨scopes, hd, rfl⟩ := declare_eq_ok h
      exact ⟨(State.Gains.of_define? hd).get?_current hb.current, hb.cell⟩
    | none =>
      rw [hp] at h
      obtain ⟨scopes, hd, rfl⟩ := defineVariable_eq_ok h
      exact ⟨(State.Gains.of_define? hd).get?_current hb.current, Heap.load?_alloc hb.cell _⟩

theorem binds_of_defineVariable {a : Unit} (h : defineVariable name v c s = .ok a t) :
    ∃ p, t.Binds name p { v with place := some p } := by
  obtain ⟨scopes, hd, rfl⟩ := defineVariable_eq_ok h
  exact ⟨_, Scopes.get?_current_define? hd, load?_new_slot s.heap v⟩

/-- A parameter that is no alias has a cell of its own, whatever is bound after it. -/
theorem binds_of_arguments {xs : List (Value × ParamInfo)} {a : PUnit}
    (h : (do for (v, info) in xs do bindParameter info.name v : RunM PUnit) c s = .ok a t) :
    (∀ name p v, s.Binds name p v → t.Binds name p v) ∧
      ∀ x ∈ xs, x.1.Detached → ∀ name, x.2.name = some name →
        ∃ p, t.Binds name p { x.1 with place := some p } := by
  induction xs generalizing s with
  | nil =>
    cases h
    exact ⟨fun _ _ _ hb => hb, fun x hx => absurd hx List.not_mem_nil⟩
  | cons x xs ih =>
    simp only [List.forIn_cons, bind_assoc, pure_bind] at h
    obtain ⟨a', u, hx, hrun⟩ := bind_eq_ok h
    obtain ⟨hkeep, hrest⟩ := ih hrun
    refine ⟨fun name p v hb => hkeep name p v (binds_of_bindParameter hx hb), ?_⟩
    intro y hy hdetached name hname
    rcases List.mem_cons.mp hy with rfl | hy
    · unfold bindParameter at hx
      rw [hname, hdetached] at hx
      obtain ⟨p, hp⟩ := binds_of_defineVariable hx
      exact ⟨p, hkeep name p _ hp⟩
    · exact hrest y hy hdetached name hname

/-- Declares a parameter as a copy of its default argument. -/
def declareDefault (name : String) (param : ParamTy) (v : Value) : RunM Unit := do
  let copied ← operate (OperatorM.copy v param.ty)
  defineVariable name (copied.withReadonly param.readonly)

theorem takeDefault_eq (entry : FunctionEntry) (body : Stmt) (name : String) (param : ParamTy)
    (rest : List (ParamInfo × ParamTy)) (v : Value) : takeDefault entry body name param rest v =
      declareDefault name param v >>= fun _ => runDefaults entry body rest := by
  rw [takeDefault, declareDefault, bind_assoc]

/-- The parameters that are left out of a call are declared as their default arguments, each of
which is evaluated in the state that the one before it leads to. -/
inductive TakesDefaults (c : Config) : List (ParamInfo × ParamTy) → State → State → Prop
  | nil (s : State) : TakesDefaults c [] s s
  | cons {name : String} {default : Expr} {param : ParamTy} {rest : List (ParamInfo × ParamTy)}
    {s t u w : State} {v : Value} (hv : (visit default none .nil).Completes c s v t)
    (hd : declareDefault name param v c t = .ok () u) (hrest : TakesDefaults c rest u w) :
    TakesDefaults c ((⟨some name, some default⟩, param) :: rest) s w

theorem gains_of_visit {e : Expr} {hint : Option StructTy}
    (h : (visit e hint .nil).Completes c s v t) : s.Gains t := by
  have hx := Surroundings.follows_visit (E := {}) (b := ⟨s, false⟩) e hint (.of_outer rfl) rfl
    (.nil (.refl _))
  exact .of_keeps (h.allows hx)

theorem keepsConstants_visit {e : Expr} {hint : Option StructTy}
    (h : (visit e hint .nil).Completes c s v t) : s.heap.KeepsConstants t.heap := by
  have hT := closed_meets lawful_keepsConstants
  exact Completes.keepsConstants (hT.mono (hT.visit e hint .nil) fun _ _ => trivial) h

section Default

variable {param : ParamTy} (hd : declareDefault name param v c s = .ok () t)

include hd

theorem gains_of_declareDefault : s.Gains t := by
  obtain ⟨copied, u, hcopy, hd⟩ := bind_eq_ok hd
  obtain ⟨heap, -, rfl⟩ := operate_eq_ok hcopy
  obtain ⟨scopes, hdefine, rfl⟩ := defineVariable_eq_ok hd
  have hheap : s.Gains { s with heap } := .of_keeps (.of_eq rfl rfl)
  exact (hheap.trans (.of_define? hdefine)).trans (.of_keeps (.of_eq rfl rfl))

theorem keepsConstants_declareDefault : s.heap.KeepsConstants t.heap := by
  have hT := closed_meets lawful_keepsConstants
  exact ((hT.bind (hT.copy v _) fun _ _ => hT.defineVariable _ _).of_ok trivial hd).1

theorem binds_of_declareDefault : ∃ p w, t.Binds name p w ∧ w.ty.named = param.ty.named ∧
    w.readonly = param.readonly := by
  obtain ⟨copied, u, hcopy, hd⟩ := bind_eq_ok hd
  obtain ⟨heap, hx, -⟩ := operate_eq_ok hcopy
  obtain ⟨p, hp⟩ := binds_of_defineVariable hd
  exact ⟨p, _, hp, (OperatorM.converted_of_copy hx).type, rfl⟩

end Default

namespace TakesDefaults

variable {rest : List (ParamInfo × ParamTy)}

/-- While default arguments are taken, the innermost scope keeps its names, and constant cells stay
constant. -/
theorem keeps (h : TakesDefaults c rest s t) :
    (∀ name p, s.scopes.current.get? name = some p → t.scopes.current.get? name = some p) ∧
      s.heap.KeepsConstants t.heap := by
  induction h with
  | nil s => exact ⟨fun _ _ hp => hp, .refl s.heap⟩
  | cons hv hd hrest ih =>
    refine ⟨fun name p hp => ?_, ?_⟩
    · apply ih.1
      exact (gains_of_declareDefault hd).get?_current ((gains_of_visit hv).get?_current hp)
    · exact ((keepsConstants_visit hv).trans (keepsConstants_declareDefault hd)).trans ih.2

/-- A parameter that is left out is declared on the way. -/
theorem declares (h : TakesDefaults c rest s t) {i : Nat} {info : ParamInfo} {param : ParamTy}
    (hx : rest[i]? = some (info, param)) (hname : info.name = some name) :
    ∃ u p w, u.Binds name p w ∧ w.ty.named = param.ty.named ∧ w.readonly = param.readonly ∧
      TakesDefaults c (rest.drop (i + 1)) u t := by
  induction h generalizing i with
  | nil s => cases hx
  | cons hv hd hrest ih =>
    cases i with
    | zero =>
      cases hx
      cases hname
      obtain ⟨p, w, hb, hty, hr⟩ := binds_of_declareDefault hd
      exact ⟨_, p, w, hb, hty, hr, hrest⟩
    | succ i => exact ih hx

end TakesDefaults

/-- A body that completes is visited after the default arguments. -/
theorem completes_runDefaults {entry : FunctionEntry} {body : Stmt}
    {rest : List (ParamInfo × ParamTy)} {flow : Flow}
    (h : (runDefaults entry body rest).Completes c s flow t) :
    ∃ b, TakesDefaults c rest s b ∧ (visitStmt body false .nil).Completes c b flow t := by
  induction rest generalizing s with
  | nil => exact ⟨s, .nil s, h⟩
  | cons x rest ih =>
    unfold runDefaults at h
    split at h
    · contradiction
    · rename_i name default param rest' hx
      cases hx
      obtain ⟨v, u, hv, hnext⟩ := completes_visit_iff.mp h
      change (takeDefault entry body name param rest v).Completes c u flow t at hnext
      rw [takeDefault_eq] at hnext
      obtain ⟨a, w, hd, hrest⟩ := completes_bind hnext
      obtain ⟨b, hb, hbody⟩ := ih hrest
      exact ⟨b, .cons hv hd hb, hbody⟩
    · exact absurd h (not_completes_of_error rfl)

/-- A body that is begun goes on where its arguments are bound. -/
theorem beginBody_eq {entry : FunctionEntry} {receiver : Option Receiver} {body : Stmt}
    {args : List Value} {p : Progress .flow}
    (h : beginBody entry receiver body args c s = .ok p t) :
    ∃ u a, (do for (v, info) in args.zip entry.params do bindParameter info.name v : RunM PUnit) c u =
        .ok ⟨⟩ a ∧
      beginBody entry receiver body args c s =
        runDefaults entry body ((entry.params.zip entry.type.params).drop args.length) c a := by
  have hrest {u : State} (h : (do
      for (v, info) in args.zip entry.params do bindParameter info.name v
      runDefaults entry body ((entry.params.zip entry.type.params).drop args.length)) c u =
        .ok p t) : ∃ a, (do
      for (v, info) in args.zip entry.params do bindParameter info.name v : RunM PUnit) c u =
        .ok ⟨⟩ a ∧
      runDefaults entry body ((entry.params.zip entry.type.params).drop args.length) c a =
        .ok p t := by
    obtain ⟨_, a, ha, hbody⟩ := bind_eq_ok h
    exact ⟨a, bind_ok ha, hbody⟩
  rw [h]
  unfold beginBody at h
  cases receiver with
  | none =>
    obtain ⟨a, ha, hbody⟩ := hrest h
    exact ⟨s, a, ha, hbody.symm⟩
  | some r =>
    obtain ⟨_, u, -, h⟩ := bind_eq_ok h
    obtain ⟨_, w, -, h⟩ := bind_eq_ok h
    obtain ⟨a, ha, hbody⟩ := hrest h
    exact ⟨w, a, ha, hbody.symm⟩

/-- A body that is entered without a fault goes on where its arguments are bound. -/
theorem enterBody_eq {entry : FunctionEntry} {receiver : Option Receiver} {body : Stmt}
    {args : List Value} {p : Progress .value}
    (h : enterBody entry receiver body args c s = .ok p t) :
    ∃ u a, (do for (v, info) in args.zip entry.params do bindParameter info.name v : RunM PUnit) c u =
        .ok ⟨⟩ a ∧
      enterBody entry receiver body args c s = (do
        (← runDefaults entry body ((entry.params.zip entry.type.params).drop args.length)).andThen
          (.endCall entry s.scopes.depth) (endCall entry s.scopes.depth) : RunM _) c a := by
  have hget : (get : RunM State) c s = .ok s s := rfl
  have hpush : onScopes (fun s => s.pushFrame ("function " ++ entry.name)) c s =
      .ok () { s with scopes := s.scopes.pushFrame ("function " ++ entry.name) } := rfl
  rw [enterBody, bind_ok hget] at h ⊢
  dsimp only at h ⊢
  rw [bind_ok hpush] at h ⊢
  simp only [outcome, Bind.bind, ReaderT.bind, EStateM.bind] at h ⊢
  cases hx : beginBody entry receiver body args c { s with
      scopes := s.scopes.pushFrame ("function " ++ entry.name) } with
  | error fault w =>
    rw [hx] at h
    cases h
  | ok q w =>
    obtain ⟨u, a, hargs, hbegin⟩ := beginBody_eq hx
    refine ⟨u, a, hargs, ?_⟩
    rw [← hbegin, hx]

theorem length_boundArguments {vs bound : List Value} {actions : List ArgAction}
    {params : List ParamTy} (h : boundArguments vs actions params c s = .ok bound t) :
    bound.length = vs.length := by
  induction vs generalizing actions params bound s with
  | nil =>
    cases h
    rfl
  | cons v vs ih =>
    have hrest (first : Value) {u : State}
        (h : (do return first :: (← boundArguments vs actions.tail params.tail)) c u = .ok bound t) :
        bound.length = (v :: vs).length := by
      obtain ⟨rest, w, hrest, h⟩ := bind_eq_ok h
      cases h
      rw [List.length_cons, List.length_cons, ih hrest]
    unfold boundArguments at h
    cases params with
    | nil => exact hrest v.rvalue h
    | cons param params =>
      dsimp only at h
      split at h
      · exact hrest v h
      · obtain ⟨copied, u, -, h⟩ := bind_eq_ok h
        exact hrest (copied.withReadonly param.readonly) h

/-- The parameters that a call leaves out, with their names and default arguments. -/
def omitted (entry : FunctionEntry) (passed : Nat) : List (ParamInfo × ParamTy) :=
  (entry.params.zip entry.type.params).drop passed

/-- The computation comes to the body of the function from the state in which the arguments that are
passed are bound: it visits the body once the default arguments are taken, and it does not complete
without. -/
structure RunsBody (x : RunM (Progress .value)) (c : Config) (s : State) (entry : FunctionEntry)
    (body : Stmt) (passed : Nat) (a : State) : Prop where
  reaches : ∀ b, TakesDefaults c (omitted entry passed) a b → ∃ depth fs,
    (x >>= drive fs) c s = visitStmt body false (.one (.endCall entry depth)) c b
  completes : ∀ v t, x.Completes c s v t → ∃ b flow u,
    TakesDefaults c (omitted entry passed) a b ∧ (visitStmt body false .nil).Completes c b flow u

/-- In the state the names of all by-value parameters stand for cells that had the type and the
constness of their parameters when they were declared. Since then only default arguments have been
taken for the parameters that follow, and a constant cell has stayed constant. -/
def SeesParameters (c : Config) (entry : FunctionEntry) (passed : Nat) (b : State) : Prop :=
  ∀ (i : Nat) (info : ParamInfo) (name : String) (param : ParamTy), entry.params[i]? = some info →
    info.name = some name → entry.type.params[i]? = some param → param.reference = false →
    ∃ a p, a.Declares name p param ∧ TakesDefaults c (omitted entry (max passed (i + 1))) a b ∧
      b.lookup name = some p ∧ (param.readonly = true → b.heap.Constant p)

/-- Default arguments that are taken one after another lead to the body. -/
theorem TakesDefaults.reaches {rest : List (ParamInfo × ParamTy)} (h : TakesDefaults c rest s t)
    (entry : FunctionEntry) (body : Stmt) :
    ∃ fs, (runDefaults entry body rest >>= drive fs) c s = visitStmt body false .nil c t := by
  induction h with
  | nil s => exact ⟨[], congrFun (congrFun (bind_pure (visitStmt body false .nil)) c) s⟩
  | @cons name default param rest s t u w v hv hd hrest ih =>
    obtain ⟨gs, hgs⟩ := ih
    obtain ⟨fs, hfs⟩ := hv
    obtain ⟨hs, -, hhs⟩ := drive_append (.one (.defaultArgument entry body name param rest))
      hfs
    rw [resumeFrames_one] at hhs
    refine ⟨hs ++ gs, ?_⟩
    have hnext : resumeFrame (.defaultArgument entry body name param rest) v c t =
        runDefaults entry body rest c u := by
      change takeDefault entry body name param rest v c t = _
      rw [takeDefault_eq]
      exact bind_ok hd
    let leave : Frames .value .value := .one (.leave default.node s.cursor)
    change drive (hs ++ gs) (.paused (.expr default none)
      (leave ++ Frames.one (.defaultArgument entry body name param rest))) c
        { s with cursor := some default.node } = _
    rw [drive_drive]
    exact (bind_eq_of_eq (hhs.trans hnext) (drive gs)).trans hgs

section Body

variable {entry : FunctionEntry} {receiver : Option Receiver} {body : Stmt}

/-- A call that goes on with the default arguments of a body runs it. -/
theorem runsBody_of_eq {x : RunM (Progress .value)} {a : State} {depth passed : Nat}
    (hx : x c s = (do
      (← runDefaults entry body (omitted entry passed)).andThen (.endCall entry depth)
        (endCall entry depth) : RunM _) c a) :
    RunsBody x c s entry body passed a where
  reaches b hb := by
    obtain ⟨fs, hfs⟩ := hb.reaches entry body
    refine ⟨depth, fs, ?_⟩
    rw [bind_eq_of_eq hx]
    obtain ⟨p, u, hp, hdrive⟩ := bind_eq_ok (hfs.trans rfl)
    cases p with
    | done flow =>
      rw [drive_done] at hdrive
      cases hdrive
    | paused q inner =>
      rw [bind_assoc, bind_ok hp]
      exact drive_append_paused (.one (.endCall entry depth)) hdrive
  completes v t h := by
    obtain ⟨flow, u, hrun, -⟩ := completes_andThen (fun _ => rfl) ((completes_congr hx).mp h)
    obtain ⟨b, hb, hbody⟩ := completes_runDefaults hrun
    exact ⟨b, flow, u, hb, hbody⟩

/-- The cells of the parameters are those that are declared for the arguments and, after them, for
the default arguments. -/
theorem seesParameters_of_arguments {vs bound : List Value} {actions : List ArgAction} {a b : State}
    (hbound : boundArguments vs actions entry.type.params c s = .ok bound t)
    (hshare : ∀ (i : Nat) (v : Value) (param : ParamTy), vs[i]? = some v →
      entry.type.params[i]? = some param → param.reference = false → actions[i]? ≠ some .share)
    (hargs : (do for (v, info) in bound.zip entry.params do bindParameter info.name v : RunM PUnit) c
      u = .ok ⟨⟩ a)
    (hb : TakesDefaults c (omitted entry vs.length) a b) :
    SeesParameters c entry vs.length b := by
  have hlength := length_boundArguments hbound
  intro i info name param hinfo hname hparam hvalue
  -- Wherever it is declared, the cell is the one that the name stands for when the body begins.
  have hsees {a : State} {p : Place} {x : Value} (hx : a.Binds name p x)
      (hty : x.ty.named = param.ty.named) (hr : x.readonly = param.readonly)
      (hrest : TakesDefaults c (omitted entry (max vs.length (i + 1))) a b) :
      ∃ a p, a.Declares name p param ∧
        TakesDefaults c (omitted entry (max vs.length (i + 1))) a b ∧
        b.lookup name = some p ∧ (param.readonly = true → b.heap.Constant p) := by
    obtain ⟨hnames, hconstants⟩ := hrest.keeps
    refine ⟨a, p, hx.declares hty hr, hrest, ?_, fun hreadonly => ?_⟩
    · rw [State.lookup, Scopes.lookup_of_current (hnames name p hx.current)]
      rfl
    · exact hconstants.constant ⟨x, hx.cell, hr.trans hreadonly⟩
  rcases Nat.lt_or_ge i vs.length with hi | hi
  · have hbi := List.getElem?_eq_getElem (hlength ▸ hi : i < bound.length)
    obtain ⟨copied, hcopied, hv⟩ := boundArguments_copied hbound hbi hparam
      (hshare i _ param (List.getElem?_eq_getElem hi) hparam hvalue)
    have hmem : (bound[i], info) ∈ bound.zip entry.params :=
      List.mem_of_getElem? (List.getElem?_zip_eq_some.mpr ⟨hbi, hinfo⟩)
    have hdetached : bound[i].Detached := by
      rw [hv]
      exact hcopied.detached
    obtain ⟨p, hp⟩ := (binds_of_arguments hargs).2 _ hmem hdetached name hname
    refine hsees hp ?_ ?_ ?_
    · rw [hv]
      exact hcopied.type
    · rw [hv]
      rfl
    · rwa [Nat.max_eq_left hi]
  · have hx : (omitted entry vs.length)[i - vs.length]? = some (info, param) := by
      rw [omitted, List.getElem?_drop, Nat.add_sub_cancel' hi]
      exact List.getElem?_zip_eq_some.mpr ⟨hinfo, hparam⟩
    obtain ⟨a, p, x, hp, hty, hr, hrest⟩ := hb.declares hx hname
    refine hsees hp hty hr ?_
    rw [omitted, List.drop_drop, ← Nat.add_assoc, Nat.add_sub_cancel' hi] at hrest
    rwa [omitted, Nat.max_eq_right (Nat.le_succ_of_le hi)]

end Body

end RunM

namespace Matcher

/-- An argument for a parameter by value is not shared. -/
theorem ne_share_of_matchFunction {m : Matcher} {f : FunctionTy} {args : List ArgSig}
    {templates : List Signature} {actions : List ArgAction}
    (h : m.matchFunction (.ofCall args) (.ofFunction f) templates = some actions) {i : Nat}
    {a : ArgSig} {p : ParamTy} (ha : args[i]? = some a) (hp : f.params[i]? = some p)
    (hvalue : p.reference = false) : actions[i]? ≠ some .share := by
  obtain ⟨bindings, s, q, action, hs, hq, hconvert, haction⟩ :=
    exists_convert_of_matchFunction h ha hp
  obtain ⟨t, ht, rfl⟩ := Option.map_eq_some_iff.mp hs
  obtain ⟨ty, reference, readonly, optional⟩ := p
  obtain rfl : reference = false := hvalue
  rw [Ty.paramShape?] at hq
  obtain ⟨t', ht', hq⟩ := Option.bind_eq_some_iff.mp hq
  cases hq
  rw [haction]
  rintro ⟨⟩
  have hvalue : m.convert bindings (if a.lvalue then .reference t else t) t' = m.convertShape t t' :=
    convert_byValue ht ht' a.lvalue
  exact convertShape_ne_share _ _ (hvalue.symm.trans hconvert)

end Matcher

namespace State

variable {doubled : Bool} {m : Matcher} {c : Config} {s : State} {f : FunctionRef}
  {args : List ArgSig} {target : CallTarget} {tables : OwnerTables} {e : FunctionEntry}

/-- A call that is resolved goes to a function that accepts it. -/
theorem Registered.matchFunction (hs : s.Registered doubled c.numerics.matcher)
    (hargs : Signature.LegibleArgs doubled args)
    (h : CallTarget.ofFunction ⟨c.numerics, s.tables, s.cursor⟩ f args [] = .ok (target, tables))
    (he : s.functions[target.found.id]? = some e) :
    target.function = f ∧ c.numerics.matcher.matchFunction (.ofCall args) (.ofFunction e.type) [] =
      some target.found.actions := by
  have hq : Query.Legible doubled ⟨args, []⟩ := ⟨hargs, fun _ ht => absurd ht List.not_mem_nil⟩
  have hres := OverloadTable.resolution_resolve (hs.faithful f.owner) f.name hq
  unfold CallTarget.ofFunction at h
  dsimp only at h hres
  cases hr : (s.tables.table f.owner).resolve c.numerics.matcher f.name args [] with
  | error cause =>
    rw [hr] at h
    cases h
  | ok answer =>
    obtain ⟨_ | found, table⟩ := answer
    · rw [hr] at h
      cases h
    · rw [hr] at h hres
      cases h
      cases hres with
      | only htied hfound =>
        rename_i o
        have ho := (mem_tied.mp (htied ▸ List.mem_singleton_self o)).1
        unfold Overload.match? at hfound
        obtain ⟨-, hfound⟩ := Option.ite_none_right_eq_some.mp hfound
        obtain ⟨actions, hactions, rfl⟩ := Option.map_eq_some_iff.mp hfound
        obtain ⟨e', he', -, -, htype⟩ := hs.filed f.owner f.name o ho
        obtain rfl : e = e' := Option.some.inj (he.symm.trans he')
        obtain ⟨rs, hkept⟩ := hs.keptApart f.owner f.name
        rw [hkept.signature o ho, ← htype] at hactions
        exact ⟨rfl, hactions⟩

end State

namespace RunM

variable {doubled : Bool} {c : Config} {s : State} {o : Overload} {p d e : FunctionEntry}
  {body : Stmt}

/-- A function runs its body with parameters as its type says. -/
theorem runsBody_call (hs : s.Registered doubled c.numerics.matcher) {callee : Value}
    {f : FunctionRef} {args : List Value} {target : CallTarget} {tables : OwnerTables}
    {progress : Progress .value} {t : State} (hcallee : callee.Calls f)
    (hargs : Signature.LegibleArgs doubled (args.map Value.argument))
    (hcall : CallTarget.ofFunction ⟨c.numerics, s.tables, s.cursor⟩ f (args.map Value.argument) [] =
      .ok (target, tables))
    (he : s.functions[target.found.id]? = some e) (hbody : e.body = .defined body)
    (h : call callee args c s = .ok progress t) :
    ∃ a, RunsBody (call callee args) c s e body args.length a ∧
      ∀ b, TakesDefaults c (omitted e args.length) a b → SeesParameters c e args.length b := by
  obtain ⟨-, hactions⟩ := hs.matchFunction hargs hcall he
  have hrun := call_of_ofFunction hcallee hcall he hbody
  rw [hrun] at h
  obtain ⟨bound, u, hbound, henter⟩ := bind_eq_ok h
  obtain ⟨w, a, hbind, heq⟩ := enterBody_eq henter
  rw [length_boundArguments hbound] at heq
  refine ⟨a, runsBody_of_eq ((hrun.trans (bind_ok hbound)).trans heq), fun b hb => ?_⟩
  refine seesParameters_of_arguments hbound (fun i v param hv hparam hvalue => ?_) hbind hb
  have hv' : (args.map Value.argument)[i]? = some v.argument := by
    rw [List.getElem?_map, hv]
    rfl
  exact Matcher.ne_share_of_matchFunction hactions hv' hparam hvalue

theorem decayedParams_eq_map (ps : List ParamTy) : Ty.decayedParams ps = ps.map Ty.decayedParam := by
  induction ps with
  | nil => rfl
  | cons p ps ih => rw [Ty.decayedParams, List.map_cons, ih]

/-- What pairs a definition with a prototype says of their parameters. -/
theorem decayed_of_sameParams {f g : FunctionTy} (h : SameParams f g) {i : Nat} {q r : ParamTy}
    (hq : f.params[i]? = some q) (hr : g.params[i]? = some r) :
    q.ty.decayed = r.ty.decayed ∧ q.reference = r.reference := by
  have hparams := congrArg (·[i]?) h.1
  simp only [decayedParams_eq_map, List.getElem?_map, hq, hr, Option.map_some,
    Option.some.injEq] at hparams
  obtain ⟨ty, reference, readonly, optional⟩ := q
  obtain ⟨ty', reference', readonly', optional'⟩ := r
  rw [Ty.decayedParam, Ty.decayedParam, ParamOf.mk.injEq] at hparams
  exact ⟨hparams.1, hparams.2.1⟩

/-- The body of a definition that completes a prototype sees the parameters of the prototype. Every
later call that goes to the function, and that can bind its arguments, comes to the body. The types of
parameters are the same in the prototype and in the definition, up to what pairing leaves out; the
constness of by-value parameters is left out, and it is that of the prototype. -/
theorem body_sees_prototype (hs : ({} : State).Leads doubled c s)
    (ho : o ∈ (s.tables.table d.owner).overloads d.name) (hp : s.functions[o.id]? = some p)
    (hproto : p.body = .prototype) (hbody : d.body = .defined body)
    (hexact : Signature.Exact doubled d.type) (hsame : SameParams p.type d.type)
    (hret : (p.type.ret == d.type.ret) = true) :
    (∀ (i : Nat) (q r : ParamTy), p.type.params[i]? = some q → d.type.params[i]? = some r →
      q.ty.decayed = r.ty.decayed ∧ q.reference = r.reference) ∧
    ∃ t, register d c s = .ok () t ∧ ∀ u, t.Leads doubled c u →
      ∀ (callee : Value) (receiver : Option Receiver) (args : List Value) (target : CallTarget)
        (tables : OwnerTables) (progress : Progress .value) (w : State),
      callee.Calls ⟨d.name, d.owner, receiver⟩ →
      Signature.LegibleArgs doubled (args.map Value.argument) →
      CallTarget.ofFunction ⟨c.numerics, u.tables, u.cursor⟩ ⟨d.name, d.owner, receiver⟩
        (args.map Value.argument) [] = .ok (target, tables) → target.found.id = o.id →
      call callee args c u = .ok progress w →
      ∃ a, RunsBody (call callee args) c u (completed p d) body args.length a ∧
        ∀ b, TakesDefaults c (omitted (completed p d) args.length) a b →
          SeesParameters c (completed p d) args.length b := by
  refine ⟨fun i q r hq hr => ?_, ?_⟩
  · exact decayed_of_sameParams hsame hq hr
  obtain ⟨hrun, hlater⟩ := register_completed hs hexact ho hp hproto hbody hsame hret
  refine ⟨_, hrun, fun u hu callee receiver args target tables progress w hcallee hargs hcall hid h => ?_⟩
  obtain ⟨hreg, hcompleted⟩ := hlater u hu
  have he := hcompleted.entry
  exact runsBody_call hreg hcallee hargs hcall (hid ▸ he) hbody h

/-- `int f(int x)`, where `x` may be constant. -/
def ofX (constant : Bool) (body : FunctionBody) : FunctionEntry where
  name := "f"
  owner := .global
  type := ⟨.int, [⟨.int, false, constant, false⟩], false⟩
  params := [⟨some "x", none⟩]
  body := body

/-- The function that is called. -/
def calleeOfX : Value := .fresh (.function (ofX true .prototype).type) (.function ⟨"f", .global, none⟩)

/-- The parameter of the prototype is constant. -/
def declaredX : State := (register (ofX true .prototype)).after {} {}

/-- The parameter of the definition is not. -/
def definedX : State := (register (ofX false (.defined (.compound default [])))).after {} declaredX

theorem leads_declaredX : register (ofX true .prototype) {} {} = .ok () declaredX ∧
    ({} : State).Leads true {} declaredX ∧ (declaredX.tables.table .global).overloads "f" =
      [⟨.ofFunction (ofX true .prototype).type, 0, 0, (ofX true .prototype).type⟩] := by
  have hrun : register (ofX true .prototype) {} {} = .ok () declaredX := rfl
  exact ⟨hrun, .single (.register ⟨rfl, rfl⟩ hrun), rfl⟩

/-- The body sees a constant parameter although its definition has none. -/
theorem body_sees_prototype_const :
    let p := ofX true .prototype
    let d := ofX false (.defined (.compound default []))
    register p {} {} = .ok () declaredX ∧ register d {} declaredX = .ok () definedX ∧
      ∃ a place, RunsBody (call calleeOfX [.int .int 1]) {} definedX (completed p d)
          (.compound default []) 1 a ∧
        a.lookup "x" = some place ∧ a.heap.Constant place := by
  intro p d
  obtain ⟨hrun, hs, hoverloads⟩ := leads_declaredX
  obtain ⟨-, t, ht, hlater⟩ := body_sees_prototype (d := d) (p := p)
    (o := ⟨.ofFunction p.type, 0, 0, p.type⟩) hs (hoverloads ▸ List.mem_singleton_self _) rfl rfl
    rfl ⟨rfl, rfl⟩ ⟨rfl, rfl⟩ (by decide +kernel)
  have hdefined : definedX = t := after_ok ht
  subst hdefined
  refine ⟨hrun, ht, ?_⟩
  have hcall : ((CallTarget.ofFunction ⟨({} : Config).numerics, definedX.tables, definedX.cursor⟩
      ⟨"f", .global, none⟩ ([Value.int .int 1].map Value.argument) []).toOption.map
        fun x => x.1.found.id) = some 0 := by
    decide +kernel
  cases htarget : CallTarget.ofFunction ⟨({} : Config).numerics, definedX.tables, definedX.cursor⟩
      ⟨"f", .global, none⟩ ([Value.int .int 1].map Value.argument) [] with
  | error fault =>
    rw [htarget] at hcall
    cases hcall
  | ok found =>
    obtain ⟨target, tables⟩ := found
    rw [htarget] at hcall
    have hid : target.found.id = 0 := Option.some.inj hcall
    have hcalled : (match call calleeOfX [.int .int 1] {} definedX with
        | .ok .. => true
        | .error .. => false) = true := by
      decide +kernel
    cases hprogress : call calleeOfX [.int .int 1] {} definedX with
    | error fault w =>
      rw [hprogress] at hcalled
      cases hcalled
    | ok progress w =>
      obtain ⟨a, hbody, hsees⟩ := hlater definedX .refl calleeOfX none [.int .int 1] target tables
        progress w (.inl ⟨_, rfl, rfl⟩) (by simp [Signature.LegibleArgs]; decide) htarget hid hprogress
      obtain ⟨_, place, -, -, hlookup, hconstant⟩ :=
        hsees a (.nil a) 0 ⟨some "x", none⟩ "x" ⟨.int, false, true, false⟩ rfl rfl rfl rfl
      exact ⟨a, place, hbody, hlookup, hconstant rfl⟩

end RunM

/-- The message of the fault that the run has ended with. -/
def Run.faultMessage? (r : Run) : Option String :=
  match r.rest with
  | .ended (.error fault) => some fault.message
  | _ => none

/-- `int f(int x); int f(int x) { x = 2; return x; } int main() { return f(1); }`, where the
parameters may be constant. -/
def Program.ofX (prototype definition : Bool) : Program where
  includes := []
  items :=
    let spec : TypeSpec := ⟨[], ["int"], default⟩
    let f (constant : Bool) : Declarator := .mk default [] false (.named "f") [.params
      [.mk default ⟨if constant then ["const"] else [], ["int"], default⟩
        (.mk default [] false (.named "x") []) none] false]
    let x : Expr := .identifier default "x"
    let literal (n : Nat) : Expr := .literal default (.int n 10 false false)
    [.declaration default ⟨spec, [⟨f prototype, none⟩]⟩,
      .function default (.mk spec (f definition) (.compound default
        [.expression default (some (.assign default none x (literal 2))),
          .returnJump default (some x)])),
      .function default (.mk spec (.mk default [] false (.named "main") [.params [] false])
        (.compound default
          [.returnJump default (some (.call default (.identifier default "f") [literal 1]))]))]

/-- The definition may assign to its parameter if the prototype has no constant one, whatever the
definition itself says. -/
theorem constness_of_prototype :
    let run (prototype definition : Bool) : Run :=
      (Run.ofProgram {} (.ofX prototype definition) {} {}).steps 30
    (run false false).exitStatus? = some 2 ∧ (run false true).exitStatus? = some 2 ∧
      (run true false).faultMessage? = some "assignment of read-only variable 1" := by
  decide +kernel

end Stepwise
