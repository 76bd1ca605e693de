import Stepwise.Machine.Declare
import Stepwise.Proofs.Closure.Questions

/-! # Properties of computations

What a run does is put together from operators, questions and changes of single parts of the
state. A property that these have, and that is kept when they follow one another, is a
property of everything that is made of them. The computations here do not read the console
and define no structs.
-/

namespace Stepwise

theorem RunM.declare_apply (name : String) (p : Place) (c : Config) (s : State) :
    RunM.declare name p c s = (match s.scopes.define? name p with
      | some scopes => set { s with scopes }
      | none => RunM.fail (.name (.alreadyDefined name s.scopes.current.name)) : RunM Unit) c s := rfl

theorem RunM.readCharacter_apply (c : Config) (s : State) :
    readCharacter c s = (match s.console.read.1 with
      | .ready x => intResult x.toNat
      | .endOfInput => intResult endOfFile
      | .pending => return .paused .input .nil : RunM (Progress .value)) c
        { s with console := s.console.read.2 } := rfl

/-- A change that leaves the heap, the structs and the console as they are. -/
structure State.Change (h : State → State) : Prop where
  heap : ∀ s, (h s).heap = s.heap
  structs : ∀ s, (h s).structs = s.structs
  console : ∀ s console, h { s with console } = { h s with console }

/-- A change that commutes with setting the console keeps it. -/
theorem State.Change.console_eq {h : State → State} (hh : State.Change h) (s : State) :
    (h s).console = s.console := by
  have hset : h s = { h s with console := s.console } := hh.console s s.console
  rw [hset]

/-- A change that also leaves functions and the names of types as they are. -/
structure State.Aside (h : State → State) : Prop extends State.Change h where
  tables : ∀ s, (h s).tables = s.tables
  functions : ∀ s, (h s).functions = s.functions
  typedefs : ∀ s, (h s).typedefs = s.typedefs

theorem OverloadTable.isCommon_resolve {t : OverloadTable} {m : Matcher} {name : String}
    {args : List ArgSig} {templates : List Ty} {cause : NameFault}
    (h : t.resolve m name args templates = .error cause) :
    (FaultCause.name cause).isCommon = true := by
  unfold resolve at h
  cases hs : t.set? name with
  | none =>
    rw [hs] at h
    cases h
  | some set =>
    simp only [hs, OverloadSet.resolve] at h
    split at h
    · cases h
    · cases hf : set.resolveFresh name m (.ofCall args) (templates.map .ofType) with
      | ok answer =>
        rw [hf] at h
        cases h
      | error cause' =>
        rw [hf] at h
        cases h
        unfold OverloadSet.resolveFresh at hf
        split at hf
        · cases hf
        · cases hf
        · cases hf
          rfl

/-- The only reason not to add a function. -/
theorem OverloadTable.redeclared_of_add {t : OverloadTable} {name : String} {type : FunctionTy}
    {id slots : Nat} {cause : NameFault} (h : t.add name type id slots = .error cause) :
    cause = .redeclared name := by
  unfold add OverloadSet.add at h
  dsimp only at h
  split at h
  · cases h
    rfl
  · cases h

/-- A call that cannot be resolved is not about objects or declarations. -/
theorem isCommon_resolve {ctx : OperatorContext} {heap : Heap} {f : Value} {args : List ArgSig}
    {templates : List Ty} {fault : Fault}
    (h : CallTarget.resolve ctx heap f args templates = .error fault) :
    fault.cause.isCommon = true := by
  have hfunction {f : FunctionRef} (h : CallTarget.ofFunction ctx f args templates = .error fault) :
      fault.cause.isCommon = true := by
    unfold CallTarget.ofFunction at h
    split at h
    · cases h
      exact OverloadTable.isCommon_resolve ‹_›
    · cases h
      rfl
    · cases h
  unfold CallTarget.resolve at h
  dsimp only at h
  split at h
  · exact hfunction h
  · exact hfunction h
  all_goals
    cases h
    rfl

namespace Progress

variable {k : Completion}

/-- The computation does not wait for input. -/
def Proceeds : Progress k → Prop
  | .done _ => True
  | .paused .input _ => False
  | .paused _ _ => True

end Progress

namespace RunM

/-- The function that a value is called for, which the overload tables remember. -/
def resolveCall (f : Value) (args : List Value) : RunM CallTarget := do
  let config ← read
  let s ← get
  let ctx : OperatorContext := ⟨config.numerics, s.tables, s.cursor⟩
  match CallTarget.resolve ctx s.heap f (args.map Value.argument) [] with
  | .error fault => throw fault
  | .ok (target, tables) =>
    modify fun s => { s with tables }
    return target

theorem resolveCall_apply (f : Value) (args : List Value) (c : Config) (s : State) :
    resolveCall f args c s = match CallTarget.resolve ⟨c.numerics, s.tables, s.cursor⟩ s.heap f
        (args.map Value.argument) [] with
      | .error fault => .error fault s
      | .ok (target, tables) => .ok target { s with tables } := by
  have hread (g : Config → RunM CallTarget) : (read >>= g) c s = g c c s := rfl
  have hget (g : State → RunM CallTarget) : (get >>= g) c s = g s c s := rfl
  rw [resolveCall, hread, hget]
  cases CallTarget.resolve ⟨c.numerics, s.tables, s.cursor⟩ s.heap f (args.map Value.argument) [] <;>
    rfl

theorem call_eq_resolveCall (f : Value) (args : List Value) :
    call f args = resolveCall f args >>= fun target => invoke target args := by
  unfold call resolveCall
  rw [bind_assoc]
  refine bind_congr fun config => ?_
  rw [bind_assoc]
  refine bind_congr fun s => ?_
  dsimp only
  cases CallTarget.resolve ⟨config.numerics, s.tables, s.cursor⟩ s.heap f
    (args.map Value.argument) [] with
  | error fault => rfl
  | ok found => rfl

/-- `T` is kept when computations follow one another and when the state is asked. The second
argument says what is known of results. -/
structure Sequential (T : (α : Type) → RunM α → (α → Prop) → Prop) : Prop where
  pure : ∀ {α : Type} {Q : α → Prop} {a : α}, Q a → T α (pure a) Q
  bind : ∀ {α β : Type} {x : RunM α} {f : α → RunM β} {R : α → Prop} {Q : β → Prop},
    T α x R → (∀ a, R a → T β (f a) Q) → T β (x >>= f) Q
  raise : ∀ {α : Type} {Q : α → Prop} (fault : Fault), fault.cause.isCommon = true →
    T α (throw fault) Q
  read_bind : ∀ {β : Type} {f : Config → RunM β} {Q : β → Prop},
    (∀ c, T β (f c) Q) → T β (read >>= f) Q
  get_bind : ∀ {β : Type} {f : State → RunM β} {Q : β → Prop},
    (∀ s console, f { s with console } = f s) → (∀ s, T β (f s) Q) → T β (get >>= f) Q
  ask : ∀ {α : Type} {x : ReadM α}, (∀ U, ReadM.Closed U → U α x) → T α (ask x) fun _ => True

/-- `T` is a property of what makes values out of others and moves the cursor, and of what is made
of computations with the property. -/
structure Reading (T : (α : Type) → RunM α → (α → Prop) → Prop) : Prop extends Sequential T where
  setCursor : ∀ node, T Unit (setCursor node) fun _ => True
  alloc : ∀ cells, T BlockId (alloc cells) fun _ => True
  operate : ∀ {α : Type} {x : OperatorM α}, (∀ U, OperatorM.Copying U → U α x) →
    T α (operate x) fun _ => True

/-- `T` is also a property of what opens scopes and names cells in them. -/
structure Plain (T : (α : Type) → RunM α → (α → Prop) → Prop) : Prop extends Reading T where
  change : ∀ {h : State → State}, State.Aside h → T Unit (modify h) fun _ => True

/-- `T` is a property of the computations of which a run is made, but for those that write to
cells, and of what is made of computations with the property. -/
structure Quiet (T : (α : Type) → RunM α → (α → Prop) → Prop) : Prop extends Plain T where
  declare : ∀ name p, T Unit (declare name p) fun _ => True
  writeConsole : ∀ text, T Unit (writeConsole text) fun _ => True
  register : ∀ entry, T Unit (register entry) fun _ => True
  resolveCall : ∀ f args, T CallTarget (resolveCall f args) fun _ => True
  nameArith : ∀ name k, T Unit (defineTypedef name (.arith k)) fun _ => True
  defineTypedefs : ∀ decl, T Unit (defineTypedefs decl) fun _ => True
  /-- A fault is passed on after some more work. -/
  rescue : ∀ {α β : Type} {x : RunM α} {f : Except Fault α → RunM β} {y : RunM Unit} {R : α → Prop}
    {Q : β → Prop}, T α x R → (∀ a, R a → T β (f (.ok a)) Q) → T Unit y (fun _ => True) →
      (∀ fault, f (.error fault) = do y; throw fault) → T β (outcome x >>= f) Q

/-- `T` is a property of all computations of which a run is made. -/
structure Closed (T : (α : Type) → RunM α → (α → Prop) → Prop) : Prop extends Quiet T where
  write : ∀ {α : Type} {x : OperatorM α}, (∀ U, OperatorM.Closed U → U α x) →
    T α (RunM.operate x) fun _ => True

namespace Sequential

variable {T : (α : Type) → RunM α → (α → Prop) → Prop} {α β : Type} {Q : α → Prop}

theorem ite {p : Prop} [Decidable p] {x y : RunM α} (hx : T α x Q) (hy : T α y Q) :
    T α (if p then x else y) Q := by
  split
  · exact hx
  · exact hy

variable (hT : Sequential T)

include hT

theorem mono {R : α → Prop} {x : RunM α} (hx : T α x R) (hr : ∀ a, R a → Q a) : T α x Q := by
  have h := hT.bind hx (f := Pure.pure) fun a ha => hT.pure (hr a ha)
  rwa [bind_pure] at h

theorem fail (cause : FaultCause) (hc : cause.isCommon = true) :
    T α (fail cause) Q :=
  hT.get_bind (fun _ _ => rfl) fun _ => hT.raise _ hc

/-- A check that may end the computation. -/
theorem check {p : Prop} [Decidable p] {R : PUnit → Prop} {x : RunM PUnit} {f : PUnit → RunM α}
    (hx : T _ x R) (hf : T α (f ⟨⟩) Q) : T α (if p then x >>= f else f ⟨⟩) Q := by
  split
  · exact hT.bind hx fun _ _ => hf
  · exact hf

theorem inspect_bind {h : State → β} {f : β → RunM α}
    (hc : ∀ s console, h { s with console } = h s) (hf : ∀ b, T α (f b) Q) :
    T α (RunM.inspect h >>= f) Q := by
  have hg : ∀ s console, f (h { s with console }) = f (h s) := fun s console => by rw [hc]
  exact hT.get_bind (f := fun s => f (h s)) hg fun s => hf (h s)

theorem inspect {h : State → β} (hc : ∀ s console, h { s with console } = h s) :
    T β (inspect h) fun _ => True :=
  hT.get_bind (fun s console => by rw [hc]) fun _ => hT.pure trivial

theorem text_bind {f : String → RunM α} (v : Value) (hf : ∀ text, T α (f text) Q) :
    T α (text v >>= f) Q := hT.inspect_bind (fun _ _ => rfl) hf

theorem map {x : RunM α} {R : α → Prop} {g : α → β} (hx : T α x R) :
    T β (g <$> x) fun _ => True := by
  rw [← bind_pure_comp]
  exact hT.bind hx fun _ _ => hT.pure trivial

theorem discard {x : RunM α} {R : α → Prop} (hx : T α x R) :
    T _ (Functor.discard x) fun _ => True := hT.map hx

/-- A loop that works through a list. -/
theorem forIn {as : List β} {body : β → PUnit → RunM (ForInStep PUnit)}
    (hb : ∀ a, T _ (body a ⟨⟩) fun step => step = .yield ⟨⟩) :
    T _ (forIn as PUnit.unit body) fun _ => True := by
  induction as with
  | nil => exact hT.pure trivial
  | cons a as ih =>
    rw [List.forIn_cons]
    refine hT.bind (hb a) fun step hstep => ?_
    subst hstep
    exact ih

theorem forM {as : List β} {body : β → RunM PUnit} (hb : ∀ a, T _ (body a) fun _ => True) :
    T _ (as.forM body) fun _ => True := by
  induction as with
  | nil => exact hT.pure trivial
  | cons a as ih => exact hT.bind (hb a) fun _ _ => ih

theorem nameOf (d : Declared) (what : String) : T _ (nameOf d what) fun _ => True := by
  unfold RunM.nameOf
  split
  · exact hT.pure trivial
  · exact hT.fail _ rfl

section Functions

theorem function (id : Nat) : T _ (function id) fun _ => True := by
  refine hT.get_bind (fun _ _ => rfl) fun s => ?_
  split
  · exact hT.pure trivial
  · exact hT.fail _ rfl

variable (hc : ∀ {h : State → State}, State.Change h → (∀ s, (h s).typedefs = s.typedefs) →
  T Unit (modify h) fun _ => True)

include hc

theorem complete_of_change (hr : ∀ name, T Unit (redeclared name) fun _ => True) (id : Nat)
    (entry : FunctionEntry) : T _ (complete id entry) fun _ => True := by
  refine hT.bind (hT.function id) fun existing _ => hT.check (hr _) ?_
  dsimp only
  split
  · exact hT.pure trivial
  · exact hc ⟨fun _ => rfl, fun _ => rfl, fun _ _ => rfl⟩ fun _ => rfl
  · exact hr _

theorem register_of_change (hr : ∀ name, T Unit (redeclared name) fun _ => True)
    (entry : FunctionEntry) : T _ (register entry) fun _ => True := by
  refine hT.get_bind (fun _ _ => rfl) fun s => ?_
  dsimp only
  split
  · exact hT.complete_of_change hc hr _ entry
  · split
    · rename_i hadd
      rw [OverloadTable.redeclared_of_add hadd]
      exact hr _
    · exact hc ⟨fun _ => rfl, fun _ => rfl, fun _ _ => rfl⟩ fun _ => rfl

theorem resolveCall_of_change (f : Value) (args : List Value) :
    T _ (resolveCall f args) fun _ => True := by
  refine hT.read_bind fun c => hT.get_bind (fun _ _ => rfl) fun s => ?_
  dsimp only
  split
  · exact hT.raise _ (isCommon_resolve ‹_›)
  · refine hT.bind (hc ?_ fun _ => rfl) fun _ _ => hT.pure trivial
    exact ⟨fun _ => rfl, fun _ => rfl, fun _ _ => rfl⟩

end Functions

theorem defineTypedefs_of_names (hn : ∀ name ty, T Unit (defineTypedef name ty) fun _ => True)
    (decl : Declaration) : T _ (defineTypedefs decl) fun _ => True := by
  refine hT.bind (hT.ask fun _ hU => hU.baseType _) fun base _ => ?_
  refine hT.bind (hT.forIn fun item => ?_) fun _ _ => hT.pure trivial
  refine hT.bind (hT.ask fun _ hU => hU.declarator _ _ _) fun d _ => ?_
  refine hT.bind (hT.nameOf d _) fun name _ => ?_
  exact hT.bind (hn _ _) fun _ _ => hT.pure rfl

end Sequential

namespace Reading

variable {T : (α : Type) → RunM α → (α → Prop) → Prop} {j k : Completion} (hT : Reading T)

include hT

section Operators

theorem newSlot (v : Value) : T _ (onHeap (HeapM.newSlot v)) fun _ => True :=
  hT.bind (hT.alloc #[v]) fun _ _ => hT.pure trivial

theorem convert (v : Value) (ty : Ty) (explicit : Bool) :
    T _ (RunM.operate (OperatorM.convert v ty explicit)) fun _ => True :=
  hT.operate fun _ hU => hU.convert v ty explicit

theorem copy (v : Value) (ty : Ty) : T _ (RunM.operate (OperatorM.copy v ty)) fun _ => True :=
  hT.operate fun _ hU => hU.copy v ty

theorem condition (v : Value) : T _ (RunM.operate (OperatorM.condition v)) fun _ => True :=
  hT.operate fun _ hU => hU.condition v

theorem reads (op : Operator) (hop : op.writes = false) (l : Value) (r : Option Value) :
    T _ (RunM.operate (op.apply l r)) fun _ => True :=
  hT.operate fun _ hU => hU.reads_apply hop l r

end Operators

section Visits

/-- A visit pauses in front of its expression. -/
theorem visit_of {Q : Progress k → Prop} (e : Expr) (hint : Option StructTy)
    (next : Frames .value k)
    (hq : ∀ previous, Q (.paused (.expr e hint) (.cons (.leave e.node previous) next))) :
    T _ (visit e hint next) Q :=
  hT.get_bind (fun _ _ => rfl) fun _ => hT.bind (hT.setCursor _) fun _ _ => hT.pure (hq _)

theorem visit (e : Expr) (hint : Option StructTy) (next : Frames .value k) :
    T _ (visit e hint next) Progress.Proceeds := hT.visit_of e hint next fun _ => trivial

theorem visitStmt (s : Stmt) (inSwitch : Bool) (next : Frames .flow k) :
    T _ (visitStmt s inSwitch next) Progress.Proceeds :=
  hT.get_bind (fun _ _ => rfl) fun _ => hT.bind (hT.setCursor _) fun _ _ => hT.pure trivial

/-- A part of a computation that a frame waits for. -/
theorem andThen {p : Progress j} {frame : Frame j k} {f : j.Result → RunM (Progress k)}
    (hp : p.Proceeds) (hf : ∀ r, T _ (f r) Progress.Proceeds) :
    T _ (p.andThen frame f) Progress.Proceeds := by
  cases p with
  | done r => exact hf r
  | paused p path => exact hT.pure (by cases p <;> trivial)

end Visits

end Reading

namespace Plain

variable {T : (α : Type) → RunM α → (α → Prop) → Prop} {j k : Completion} (hT : Plain T)

include hT

theorem onScopes (f : Scopes Place → Scopes Place) : T _ (onScopes f) fun _ => True :=
  hT.change ⟨⟨fun _ => rfl, fun _ => rfl, fun _ _ => rfl⟩, fun _ => rfl, fun _ => rfl, fun _ => rfl⟩

theorem pushScope (name : String) : T _ (pushScope name) fun _ => True := hT.onScopes _

theorem popScope : T _ popScope fun _ => True := hT.onScopes _

theorem defineFunctionName (name : String) (type : FunctionTy) :
    T _ (defineFunctionName name type) fun _ => True :=
  hT.bind (hT.newSlot _) fun _ _ => hT.onScopes _

end Plain

theorem Quiet.defineVariable {T : (α : Type) → RunM α → (α → Prop) → Prop} (hT : Quiet T)
    (name : String) (v : Value) : T _ (RunM.defineVariable name v) fun _ => True :=
  hT.bind (hT.newSlot v) fun p _ => hT.declare name p

/-- Properties of all the computations are closed together. -/
theorem Closed.forall {ι : Type} {T : ι → (α : Type) → RunM α → (α → Prop) → Prop}
    (hT : ∀ i, Closed (T i)) : Closed fun α x Q => ∀ i, T i α x Q where
  pure ha i := (hT i).pure ha
  bind hx hf i := (hT i).bind (hx i) fun a ha => hf a ha i
  raise fault hf i := (hT i).raise fault hf
  read_bind hf i := (hT i).read_bind fun c => hf c i
  get_bind hc hf i := (hT i).get_bind hc fun s => hf s i
  ask hx i := (hT i).ask hx
  setCursor node i := (hT i).setCursor node
  change hh i := (hT i).change hh
  declare name p i := (hT i).declare name p
  writeConsole text i := (hT i).writeConsole text
  alloc cells i := (hT i).alloc cells
  operate hx i := (hT i).operate hx
  write hx i := (hT i).write hx
  register entry i := (hT i).register entry
  resolveCall f args i := (hT i).resolveCall f args
  nameArith name k i := (hT i).nameArith name k
  defineTypedefs decl i := (hT i).defineTypedefs decl
  rescue hx hf hy hr i := (hT i).rescue (hx i) (fun a ha => hf a ha i) (hy i) hr

end RunM

end Stepwise
