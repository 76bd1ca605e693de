import Stepwise.Proofs.Binding.Passing
import Stepwise.Proofs.Binding.Prototypes
import Stepwise.Proofs.Constants.Declarations

/-! # Arguments and initializers

A call converts an argument as a declaration converts the initializer of a variable, but
only if overload resolution lets the type of the argument pass for that of the parameter.
-/

namespace Stepwise

namespace OperatorM

variable {α β : Type} {x : OperatorM α} {f : α → OperatorM β}

/-- The operator does not ask for overloads. -/
def IgnoresTables (x : OperatorM α) : Prop :=
  ∀ ctx tables heap, x { ctx with tables } heap = x ctx heap

namespace IgnoresTables

theorem pure (a : α) : IgnoresTables (pure a) := fun _ _ _ => rfl

theorem bind (hx : IgnoresTables x) (hf : ∀ a, IgnoresTables (f a)) : IgnoresTables (x >>= f) := by
  intro ctx tables heap
  simp only [Bind.bind, ReaderT.bind, EStateM.bind, hx ctx tables heap]
  cases x ctx heap with
  | ok a heap => exact hf a ctx tables heap
  | error fault heap => rfl

theorem ite {p : Prop} [Decidable p] {y : OperatorM α} (hx : IgnoresTables x)
    (hy : IgnoresTables y) : IgnoresTables (if p then x else y) := by
  split
  · exact hx
  · exact hy

theorem cannotConvert (v : Value) (target : Ty) : IgnoresTables (cannotConvert v target) :=
  fun _ _ _ => rfl

theorem number (k : ArithKind) (x : Number) : IgnoresTables (number k x) := by
  intro ctx tables heap
  change ofExcept (ctx.numerics.value k x) { ctx with tables } heap =
    ofExcept (ctx.numerics.value k x) ctx heap
  cases ctx.numerics.value k x <;> rfl

theorem heap (x : HeapM α) : IgnoresTables (x : OperatorM α) := fun _ _ _ => rfl

theorem converts (a b : Ty) : IgnoresTables (converts a b) := fun _ _ _ => rfl

theorem convertPointer (v : Value) (target : Ty) (explicit : Bool) :
    IgnoresTables (convertPointer v target explicit) := by
  unfold OperatorM.convertPointer
  split
  · exact cannotConvert _ _
  · exact ite (bind (pure _) fun _ => ite (pure _) (cannotConvert _ _))
      (bind (converts _ _) fun _ => ite (pure _) (cannotConvert _ _))
  · exact ite (bind (pure _) fun _ => ite (pure _) (cannotConvert _ _))
      (bind (converts _ _) fun _ => ite (pure _) (cannotConvert _ _))
  · exact ite (pure _) (cannotConvert _ _)
  · exact cannotConvert _ _

theorem convertFunctionPointer (v : Value) (target : Ty) :
    IgnoresTables (convertFunctionPointer v target) := by
  unfold OperatorM.convertFunctionPointer
  split
  · exact pure _
  · exact pure _
  · exact ite (pure _) (cannotConvert _ _)
  · exact ite (pure _) (cannotConvert _ _)
  · exact ite (pure _) (cannotConvert _ _)
  · exact cannotConvert _ _

theorem convertArith (v : Value) (k : ArithKind) (explicit : Bool) :
    IgnoresTables (convertArith v k explicit) := by
  unfold OperatorM.convertArith
  split
  · exact number _ _
  · exact ite (pure _) (ite (number _ _) (cannotConvert _ _))

theorem convert (v : Value) (target : Ty) (explicit : Bool) :
    IgnoresTables (convert v target explicit) := by
  unfold OperatorM.convert
  refine ite (pure _) ?_
  cases target with
  | void => exact pure _
  | arith k => exact convertArith v k explicit
  | pointer | array => exact convertPointer v _ explicit
  | functionPointer f => exact convertFunctionPointer v _
  | function f =>
    dsimp only
    split
    · exact pure _
    · exact cannotConvert _ _
  | struct | marker => exact cannotConvert _ _

theorem copy (v : Value) (target : Ty) : IgnoresTables (copy v target) := by
  refine bind (convert v target false) fun converted => ?_
  split
  · exact heap _
  · exact pure _

end IgnoresTables

end OperatorM

/-- The type of a value as it is passed by value: an array as a pointer to its elements, constant
ones if the array is. -/
def Value.passedType (v : Value) : Ty :=
  match v.ty with
  | .array element _ => .pointer element v.readonly
  | ty => ty

/-- The signature of a call tells the type of the value: constness in it stands only before types
that have names, and not before a pointer. -/
structure Value.Tells (v : Value) : Prop where
  constNamed : v.passedType.constNamed = true
  pointer : v.readonly = true → ∀ target c, v.ty ≠ .pointer target c

namespace Matcher

open Shape

variable {m : Matcher} {v : Value} {p : ParamTy} {f : FunctionTy}

theorem convertShape_unqualified (a s : Shape) :
    m.convertShape a.unqualified s = m.convertShape a s := by
  cases a <;> rfl

/-- The shape of an argument converts as that of its type as it is passed. -/
theorem exists_argument_shape (h : v.Tells) : ∃ s a, v.ty.shape? v.readonly = some s ∧
    v.passedType.shape? false = some a ∧ ∀ s', m.convertShape s s' = m.convertShape a s' := by
  obtain ⟨ty, data, place, readonly⟩ := v
  obtain ⟨a, ha, -⟩ := Ty.exists_shape? false _ h.constNamed (absurd · Bool.false_ne_true)
  have hpointer := h.pointer
  simp only [Value.passedType] at ha hpointer ⊢
  cases ty with
  | void | marker | arith | struct =>
    cases ha
    exact ⟨_, _, rfl, rfl, fun s' => (convertShape_unqualified _ s').symm⟩
  | functionPointer | function => exact ⟨a, a, ha, ha, fun _ => rfl⟩
  | array element n =>
    refine ⟨a, a, ?_, ha, fun _ => rfl⟩
    rw [Ty.shape?, Bool.false_and, if_neg Bool.false_ne_true, Bool.false_or] at ha
    exact ha
  | pointer target c =>
    cases readonly with
    | false => exact ⟨a, a, ha, ha, fun _ => rfl⟩
    | true => exact absurd rfl (hpointer rfl target c)

/-- A function of one parameter by value accepts the values that pass for it. -/
theorem matchFunction_one (hv : v.Tells) (hparams : f.params = [p]) (hvalue : p.reference = false)
    (hp : p.ty.constNamed = true) :
    (v.passedType.Passes p.ty → ∃ action, action ≠ .share ∧
      m.matchFunction (.ofCall [v.argument]) (.ofFunction f) [] = some [action]) ∧
    (¬ v.passedType.Passes p.ty → m.matchFunction (.ofCall [v.argument]) (.ofFunction f) [] = none) := by
  obtain ⟨s, a, hs, ha, hconvert⟩ := exists_argument_shape (m := m) hv
  obtain ⟨s', hs', hspelled'⟩ := Ty.exists_shape? false p.ty hp (absurd · Bool.false_ne_true)
  obtain ⟨a', ha', hspelled⟩ := Ty.exists_shape? false _ hv.constNamed (absurd · Bool.false_ne_true)
  obtain rfl : a = a' := Option.some.inj (ha.symm.trans ha')
  obtain ⟨ty, isReference, readonly, isOptional⟩ := p
  obtain rfl : isReference = false := hvalue
  have hparam : Ty.paramShapes? f.params = some [(s', isOptional)] := by
    rw [hparams, Ty.paramShapes?, Ty.paramShape?, Bool.and_false, hs']
    rfl
  have harg : [v.argument].mapM ArgSig.shape? =
      some [if v.isLvalue then Shape.reference s else s] := by
    rw [List.mapM_cons, ArgSig.shape?]
    simp only [Value.argument, hs]
    rfl
  have hbyValue : m.convert [] (if v.isLvalue then Shape.reference s else s) s' =
      m.convertShape s s' := convert_byValue hs hs' v.isLvalue
  have hmatch : m.matchFunction (.ofCall [v.argument]) (.ofFunction f) [] =
      (m.convertShape a s').map ([·]) := by
    rw [matchFunction_ofCall, harg, hparam, ← hconvert, ← hbyValue]
    change (m.convert [] _ s').bind _ = _
    cases m.convert [] (if v.isLvalue then Shape.reference s else s) s' <;> rfl
  have hpasses := passes_of_convertShape (m := m) hspelled hspelled'
  rw [hmatch]
  refine ⟨fun h => ?_, fun h => ?_⟩
  · obtain ⟨action, haction⟩ := Option.isSome_iff_exists.mp
      (convertShape_of_passes (m := m) hv.constNamed hp ha hs' h)
    refine ⟨action, ?_, by rw [haction, Option.map_some]⟩
    rintro rfl
    exact convertShape_ne_share _ _ haction
  · rw [Option.not_isSome_iff_eq_none.mp fun hsome => h (hpasses hsome), Option.map_none]

end Matcher

namespace RunM

/-- A call whose arguments are bound: what is called, and the values for its parameters. -/
structure Bound where
  entry : FunctionEntry
  receiver : Option Receiver
  args : List Value

/-- Resolves a call and binds its arguments. -/
def bindCall (f : Value) (args : List Value) : RunM Bound := do
  let config ← read
  let s ← get
  let ctx : OperatorContext := ⟨config.numerics, s.tables, s.cursor⟩
  match CallTarget.resolve ctx s.heap f (args.map Value.argument) [] with
  | .error fault => throw fault
  | .ok (target, tables) =>
    modify fun s => { s with tables }
    let entry ← function target.found.id
    return ⟨entry, target.function.receiver,
      ← boundArguments args target.found.actions entry.type.params⟩

/-- Runs the body of a call whose arguments are bound. -/
def runBound (b : Bound) : RunM (Progress .value) := do
  match b.entry.body with
  | .library f => callLibrary f b.args
  | .prototype => fail (.name (.noBody b.entry.name))
  | .defined body => enterBody b.entry b.receiver body b.args

/-- A call binds its arguments, and then it runs a body. -/
theorem call_eq (f : Value) (args : List Value) : call f args = bindCall f args >>= runBound := by
  unfold call bindCall
  rw [bind_assoc]
  refine bind_congr fun config => ?_
  rw [bind_assoc]
  refine bind_congr fun s => ?_
  dsimp only
  cases CallTarget.resolve ⟨config.numerics, s.tables, s.cursor⟩ s.heap f
    (args.map Value.argument) [] with
  | error fault => rfl
  | ok answer =>
    simp only [bind_assoc, pure_bind, invoke]
    rfl

theorem bindCall_apply (f : Value) (args : List Value) (c : Config) (s : State) :
    bindCall f args c s = (match CallTarget.resolve ⟨c.numerics, s.tables, s.cursor⟩ s.heap f
        (args.map Value.argument) [] with
      | .error fault => throw fault
      | .ok (target, tables) => do
        modify fun s => { s with tables }
        let entry ← function target.found.id
        return ⟨entry, target.function.receiver,
          ← boundArguments args target.found.actions entry.type.params⟩ : RunM Bound) c s := rfl

theorem bindCall_of_resolve {c : Config} {s : State} {f : Value} (args : List Value)
    {target : CallTarget} {tables : OwnerTables} {e : FunctionEntry}
    (h : CallTarget.resolve ⟨c.numerics, s.tables, s.cursor⟩ s.heap f (args.map Value.argument) [] =
      .ok (target, tables)) (he : s.functions[target.found.id]? = some e) :
    bindCall f args c s = (do
      let bound ← boundArguments args target.found.actions e.type.params
      return (⟨e, target.function.receiver, bound⟩ : Bound)) c { s with tables } := by
  have he : ({ s with tables } : State).functions[target.found.id]? = some e := he
  rw [← bind_ok (f := fun entry => do
    let bound ← boundArguments args target.found.actions entry.type.params
    return (⟨entry, target.function.receiver, bound⟩ : Bound)) (function_eq he c)]
  rw [bindCall_apply, h]
  rfl

theorem bindCall_of_fault {c : Config} {s : State} {f : Value} {args : List Value} {fault : Fault}
    (h : CallTarget.resolve ⟨c.numerics, s.tables, s.cursor⟩ s.heap f (args.map Value.argument) [] =
      .error fault) : bindCall f args c s = .error fault s := by
  rw [bindCall_apply, h]
  rfl

/-- The value of a variable or a parameter from that of its initializer or its argument. -/
def initialized (ty : Ty) (readonly : Bool) (v : Value) : RunM Value := do
  return (← operate (OperatorM.copy v ty)).withReadonly readonly

/-- A declaration goes on with the value of its initializer. -/
theorem resumeFrame_convert (ty : Ty) (readonly : Bool) (v : Value) (c : Config) (s : State) :
    resumeFrame (.convert ty readonly) v c s = (do
      return Progress.done (← initialized ty readonly v)) c s := by
  simp only [initialized, bind_assoc, pure_bind]
  rfl

/-- A call with one argument goes on with its value. -/
theorem resumeFrame_argument (f : Value) (hint : Option StructTy) (v : Value) :
    resumeFrame (.argument f [] [] hint) v = bindCall f [v] >>= runBound :=
  call_eq f [v]

variable {doubled : Bool} {c : Config} {s : State} {o : Overload} {e : FunctionEntry}
  {callee v : Value} {f : FunctionRef} {p : ParamTy} {ty : Ty} {readonly : Bool}

/-- Initializing does not ask for overloads, and leaves them as they are. -/
theorem initialized_tables (tables : OwnerTables) :
    (∀ w t, initialized ty readonly v c s = .ok w t →
      initialized ty readonly v c { s with tables } = .ok w { t with tables }) ∧
    ∀ fault t, initialized ty readonly v c s = .error fault t →
      initialized ty readonly v c { s with tables } = .error fault { t with tables } := by
  have hcopy := OperatorM.IgnoresTables.copy v ty ⟨c.numerics, s.tables, s.cursor⟩ tables s.heap
  simp only [initialized, operate, ReaderT.run, EStateM.run, Bind.bind, ReaderT.bind, EStateM.bind]
  simp only at hcopy
  rw [hcopy]
  cases OperatorM.copy v ty ⟨c.numerics, s.tables, s.cursor⟩ s.heap with
  | ok w heap =>
    refine ⟨fun w t h => ?_, fun fault t h => ?_⟩
    · cases h
      rfl
    · cases h
  | error fault heap =>
    refine ⟨fun w t h => ?_, fun fault t h => ?_⟩
    · cases h
    · cases h
      rfl

/-- The value of a variable is detached from the cell that its initializer came from. -/
theorem initialized_detached {w : Value} {t : State} (h : initialized ty readonly v c s = .ok w t) :
    w.place = none := by
  obtain ⟨copied, u, hcopy, h⟩ := bind_eq_ok h
  cases h
  have hdetached : copied.place = none := operate_copy hcopy
  exact hdetached

theorem boundArguments_one {action : ArgAction} (ha : action ≠ .share) :
    boundArguments [v] [action] [p] = (do return [← initialized p.ty p.readonly v]) := by
  have hshare : (([action].head? == some ArgAction.share && v.isLvalue) : Bool) = false := by
    cases action with
    | share => exact absurd rfl ha
    | _ => rfl
  unfold boundArguments
  simp only [hshare, Bool.false_eq_true, if_false, bind_assoc, pure_bind, initialized]
  rfl

/-- A call of which no overload takes the arguments. -/
theorem ofFunction_of_none (ctx : OperatorContext) (f : FunctionRef) {args : List ArgSig}
    (hargs : Signature.LegibleArgs doubled args)
    (hfaithful : (ctx.tables.table f.owner).Faithful doubled ctx.numerics.matcher)
    (hnone : ∀ o ∈ (ctx.tables.table f.owner).overloads f.name,
      o.match? ctx.numerics.matcher (.ofCall args) [] = none) :
    CallTarget.ofFunction ctx f args [] =
      .error ⟨.name (.noMatch f.name (args.map ArgSig.ty)), ctx.node⟩ := by
  have hq : Query.Legible doubled ⟨args, []⟩ := ⟨hargs, nofun⟩
  have hres := (OverloadTable.resolution_resolve hfaithful f.name hq).unique (.none hnone)
  dsimp only at hres
  unfold CallTarget.ofFunction
  cases hr : (ctx.tables.table f.owner).resolve ctx.numerics.matcher f.name args [] with
  | error cause =>
    rw [hr] at hres
    cases hres
  | ok answer =>
    obtain ⟨answer, table⟩ := answer
    rw [hr] at hres
    cases hres
    rfl

section One

variable (hs : s.Registered doubled c.numerics.matcher) (hcallee : callee.Calls f)
  (hone : (s.tables.table f.owner).overloads f.name = [o])
  (he : s.functions[o.id]? = some e) (hparams : e.type.params = [p])
  (hvalue : p.reference = false) (hp : p.ty.constNamed = true) (hv : v.Tells)
  (hlegible : v.ty.legible doubled = true)

section Match

include hs hone he

/-- How the only overload of a name accepts a call. -/
theorem match?_one (args : List ArgSig) : o.match? c.numerics.matcher (.ofCall args) [] =
    (c.numerics.matcher.matchFunction (.ofCall args) (.ofFunction e.type) []).map
      fun actions => ⟨o.id, e.type, actions⟩ := by
  have ho : o ∈ (s.tables.table f.owner).overloads f.name := hone ▸ List.mem_singleton_self o
  obtain ⟨e', he', -, -, htype⟩ := hs.filed f.owner f.name o ho
  obtain rfl : e = e' := Option.some.inj (he.symm.trans he')
  obtain ⟨rs, hkept⟩ := hs.keptApart f.owner f.name
  have hnone : ([] : List Signature).length ≤ o.templateSlots := Nat.zero_le _
  rw [Overload.match?, if_pos hnone, hkept.signature o ho, htype]

end Match

include hs hcallee hone he hparams hvalue hp hv hlegible

/-- A function of one parameter, without other overloads, is given the value that a variable of the
parameter's type would have, if its argument passes for the parameter. -/
theorem bindCall_of_passes (h : v.passedType.Passes p.ty) : ∃ tables,
    bindCall callee [v] c s = (do
      let w ← initialized p.ty p.readonly v
      return (⟨e, f.receiver, [w]⟩ : Bound)) c { s with tables } := by
  obtain ⟨action, ha, hactions⟩ :=
    (Matcher.matchFunction_one (m := c.numerics.matcher) hv hparams hvalue hp).1 h
  have hmatch := match?_one hs hone he [v.argument]
  rw [hactions, Option.map_some] at hmatch
  have htied : tied c.numerics.matcher (.ofCall [v.argument]) []
      ((s.tables.table f.owner).overloads f.name) = [o] := by
    rw [hone]
    refine tied_eq_singleton (List.nodup_singleton o) (List.mem_singleton_self o) hmatch ?_
    intro q hq hne
    exact absurd (List.mem_singleton.mp hq) hne
  have hargs : Signature.LegibleArgs doubled [v.argument] := List.forall_mem_singleton.mpr hlegible
  obtain ⟨tables, hcall⟩ := CallTarget.ofFunction_of_tied ⟨c.numerics, s.tables, s.cursor⟩ f hargs
    rfl (hs.faithful f.owner) hmatch htied
  refine ⟨tables, ?_⟩
  have hresolve := CallTarget.resolve_of_calls hcallee ⟨c.numerics, s.tables, s.cursor⟩ s.heap
    [v.argument] []
  rw [hcall] at hresolve
  have hbound : (do
      let bound ← boundArguments [v] [action] e.type.params
      return (⟨e, f.receiver, bound⟩ : Bound)) = (do
      let w ← initialized p.ty p.readonly v
      return (⟨e, f.receiver, [w]⟩ : Bound)) := by
    rw [hparams, boundArguments_one ha, bind_assoc]
    rfl
  have hcalled := bindCall_of_resolve [v] hresolve he
  rw [← hbound]
  exact hcalled

theorem bindCall_of_not_passes (h : ¬ v.passedType.Passes p.ty) :
    bindCall callee [v] c s = .error ⟨.name (.noMatch f.name [v.ty]), s.cursor⟩ s := by
  have hnone : ∀ q ∈ (s.tables.table f.owner).overloads f.name,
      q.match? c.numerics.matcher (.ofCall [v.argument]) [] = none := by
    intro q hq
    obtain rfl := List.mem_singleton.mp (hone ▸ hq)
    rw [match?_one hs hone he [v.argument],
      (Matcher.matchFunction_one (m := c.numerics.matcher) hv hparams hvalue hp).2 h, Option.map_none]
  have hargs : Signature.LegibleArgs doubled [v.argument] := List.forall_mem_singleton.mpr hlegible
  have hcall := ofFunction_of_none ⟨c.numerics, s.tables, s.cursor⟩ f hargs (hs.faithful f.owner)
    hnone
  have hresolve := CallTarget.resolve_of_calls hcallee ⟨c.numerics, s.tables, s.cursor⟩ s.heap
    [v.argument] []
  rw [hcall] at hresolve
  exact bindCall_of_fault hresolve

end One

/-- The computations end alike, with states that differ in overload tables at most. -/
theorem bindCall_eq_ok {b : Bound} {t : State} {tables : OwnerTables}
    (h : (do
      let w ← initialized ty readonly v
      return (⟨e, f.receiver, [w]⟩ : Bound)) c { s with tables } = .ok b t) :
    ∃ w u, initialized ty readonly v c s = .ok w u ∧ b = ⟨e, f.receiver, [w]⟩ ∧
      t = { u with tables } := by
  obtain ⟨w, u, hw, h⟩ := bind_eq_ok h
  cases h
  cases hi : initialized ty readonly v c s with
  | ok w' u' =>
    cases hw.symm.trans ((initialized_tables tables).1 w' u' hi)
    exact ⟨w, u', rfl, rfl, rfl⟩
  | error fault u' => cases hw.symm.trans ((initialized_tables tables).2 fault u' hi)

/-- The initializer of a variable is visited, and its value is converted to the variable's type. -/
theorem initialValue_expr {d : Declared} (harray : d.type.isArray = false)
    (hbound : d.openBound = false) (name : String) (x : Expr) (c : Config) (s : State) :
    initialValue name d (some (.expr x)) c s =
      visit x (s.structOf? d.type) (.one (.convert d.type d.readonly)) c s := by
  have hmake : initialValue name d (some (.expr x)) c s = (if d.type.isArray then
      visit x none (.one (.arrayFrom d.type d.readonly))
    else do
      visit x (← inspect fun s => s.structOf? d.type) (.one (.convert d.type d.readonly)) :
        RunM (Progress .value)) c s := by
    unfold initialValue
    rw [hbound]
    rfl
  rw [hmake, harray]
  rfl

/-- Passing an argument is initializing a variable, if the type of the argument passes for that of
the parameter: the call of a function with one parameter by value, and no other overloads, binds
the parameter exactly if the declaration of a variable of its type succeeds besides, and the two
get the same value. A call whose argument does not pass for the parameter has no match. -/
theorem bindCall_iff_initialized (hs : s.Registered doubled c.numerics.matcher)
    (hcallee : callee.Calls f) (hone : (s.tables.table f.owner).overloads f.name = [o])
    (he : s.functions[o.id]? = some e) (hparams : e.type.params = [p])
    (hvalue : p.reference = false) (harray : p.ty.isArray = false)
    (hp : p.ty.constNamed = true) (hv : v.Tells) (hlegible : v.ty.legible doubled = true) :
    (∀ hint, resumeFrame (.argument callee [] [] hint) v = bindCall callee [v] >>= runBound) ∧
    (∀ name d x s, d.type = p.ty → d.openBound = false → d.readonly = p.readonly →
      initialValue name d (some (.expr x)) c s =
        visit x (s.structOf? p.ty) (.one (.convert p.ty p.readonly)) c s) ∧
    ((∃ b t, bindCall callee [v] c s = .ok b t) ↔ v.passedType.Passes p.ty ∧
      ∃ w t, resumeFrame (.convert p.ty p.readonly) v c s = .ok (.done w) t) ∧
    (∀ b t, bindCall callee [v] c s = .ok b t → ∃ w u,
      resumeFrame (.convert p.ty p.readonly) v c s = .ok (.done w) u ∧ b.entry = e ∧ b.args = [w] ∧
      t.heap = u.heap ∧ ∀ name, bindParameter (some name) w = bind (.name name) w) ∧
    (¬ v.passedType.Passes p.ty →
      bindCall callee [v] c s = .error ⟨.name (.noMatch f.name [v.ty]), s.cursor⟩ s) := by
  have hrefused := bindCall_of_not_passes hs hcallee hone he hparams hvalue hp hv hlegible
  have hdeclared : ∀ w t, initialized p.ty p.readonly v c s = .ok w t →
      resumeFrame (.convert p.ty p.readonly) v c s = .ok (.done w) t := by
    intro w t h
    rw [resumeFrame_convert, bind_ok h]
    rfl
  have hcalled : ∀ b t, bindCall callee [v] c s = .ok b t → v.passedType.Passes p.ty ∧ ∃ w u,
      initialized p.ty p.readonly v c s = .ok w u ∧ b.entry = e ∧ b.args = [w] ∧
        t.heap = u.heap := by
    intro b t h
    have hpasses : v.passedType.Passes p.ty := by
      by_contra hn
      cases h.symm.trans (hrefused hn)
    obtain ⟨tables, hcall⟩ :=
      bindCall_of_passes hs hcallee hone he hparams hvalue hp hv hlegible hpasses
    obtain ⟨w, u, hw, rfl, rfl⟩ := bindCall_eq_ok (hcall.symm.trans h)
    exact ⟨hpasses, w, u, hw, rfl, rfl, rfl⟩
  refine ⟨fun hint => resumeFrame_argument callee hint v, fun name d x s htype hbound hreadonly => ?_,
    ⟨fun ⟨b, t, h⟩ => ?_, fun ⟨hpasses, w, t, h⟩ => ?_⟩, fun b t h => ?_, hrefused⟩
  · rw [initialValue_expr (htype ▸ harray) hbound, htype, hreadonly]
  · obtain ⟨hpasses, w, u, hw, -⟩ := hcalled b t h
    exact ⟨hpasses, w, u, hdeclared w u hw⟩
  · obtain ⟨tables, hcall⟩ :=
      bindCall_of_passes hs hcallee hone he hparams hvalue hp hv hlegible hpasses
    rw [resumeFrame_convert] at h
    obtain ⟨w', u, hw, -⟩ := bind_eq_ok h
    exact ⟨_, _, hcall.trans (bind_ok ((initialized_tables tables).1 w' u hw))⟩
  · obtain ⟨-, w, u, hw, hentry, hargs, hheap⟩ := hcalled b t h
    refine ⟨w, u, hdeclared w u hw, hentry, hargs, hheap, fun name => ?_⟩
    unfold bindParameter
    rw [initialized_detached hw]
    rfl

/-- `void f(T p)`. -/
def taking (ty : Ty) : FunctionEntry :=
  ⟨"f", .global, ⟨.void, [.plain ty], false⟩, [⟨some "p", none⟩], .defined (.compound default [])⟩

theorem register_taking (ty : Ty) (hexact : Signature.Exact true (taking ty).type) :
    ∃ s, register (taking ty) {} {} = .ok () s ∧
      s.Registered true ({} : Config).numerics.matcher ∧ s.functions[0]? = some (taking ty) ∧
      (s.tables.table .global).overloads "f" =
        [⟨.ofFunction (taking ty).type, 0, 0, (taking ty).type⟩] := by
  have hs := State.registered_start true ({} : Config).numerics.matcher
  obtain ⟨s, hrun, hfunctions, hoverloads⟩ := register_beside hs hexact nofun
  exact ⟨s, hrun, (State.Advances.register hexact hrun).registered hs, by rw [hfunctions]; rfl,
    hoverloads⟩

/-- A declaration that converts the value of its initializer, unless it is a struct. -/
theorem resumeFrame_of_convert {w : Value}
    (h : ∀ ctx heap, OperatorM.convert v ty false ctx heap = .ok w heap)
    (hw : ∀ name members, w.ty ≠ .struct name members) (c : Config) (s : State) :
    resumeFrame (.convert ty readonly) v c s = .ok (.done (w.withReadonly readonly)) s := by
  have hcopy (ctx : OperatorContext) (heap : Heap) :
      OperatorM.copy v ty ctx heap = .ok w heap := by
    simp only [OperatorM.copy, Bind.bind, ReaderT.bind, EStateM.bind, h]
    cases hty : w.ty with
    | struct name members => exact absurd hty (hw name members)
    | _ => rfl
  rw [resumeFrame_convert]
  simp only [initialized, operate, ReaderT.run, EStateM.run, Bind.bind, ReaderT.bind, EStateM.bind,
    hcopy]
  rfl

/-- An `int` for an `int`. -/
theorem bindCall_iff_initialized_int :
    ∃ s, register (taking .int) {} {} = .ok () s ∧
      ∃ b t, bindCall (functionValue "f" (taking .int).type) [.int .int 3] {} s = .ok b t := by
  obtain ⟨s, hrun, hs, he, hone⟩ := register_taking .int ⟨rfl, rfl⟩
  have hv : (Value.int .int 3).Tells := ⟨rfl, nofun⟩
  have hconvert (ctx : OperatorContext) (heap : Heap) :
      OperatorM.convert (.int .int 3) .int false ctx heap = .ok (Value.int .int 3).rvalue heap := by
    unfold OperatorM.convert
    rw [if_pos (by decide +kernel)]
    rfl
  exact ⟨s, hrun, (bindCall_iff_initialized (f := ⟨"f", .global, none⟩) (p := .plain .int) hs
    (.inl ⟨_, rfl, rfl⟩) hone he rfl rfl rfl rfl hv rfl).2.2.1.mpr
      ⟨.same rfl, _, _, resumeFrame_of_convert hconvert nofun {} s⟩⟩

/-- A variable of the type can be initialized with the value, but a function that takes the type
has no match for it. -/
def Refuses (ty : Ty) (v : Value) : Prop :=
  ∃ s, register (taking ty) {} {} = .ok () s ∧
    (∃ w, resumeFrame (.convert ty false) v {} s = .ok (.done w) s) ∧
    bindCall (functionValue "f" (taking ty).type) [v] {} s =
      .error ⟨.name (.noMatch "f" [v.ty]), s.cursor⟩ s

theorem refuses_of_not_passes {w : Value} (hexact : Signature.Exact true (taking ty).type)
    (hty : ty.constNamed = true) (hv : v.Tells) (hlegible : v.ty.legible true = true)
    (hpasses : ¬ v.passedType.Passes ty)
    (h : ∀ ctx heap, OperatorM.convert v ty false ctx heap = .ok w heap)
    (hw : ∀ name members, w.ty ≠ .struct name members) : Refuses ty v := by
  obtain ⟨s, hrun, hs, he, hone⟩ := register_taking ty hexact
  exact ⟨s, hrun, ⟨_, resumeFrame_of_convert h hw {} s⟩,
    bindCall_of_not_passes (f := ⟨"f", .global, none⟩) (p := .plain ty) hs (.inl ⟨_, rfl, rfl⟩) hone
      he rfl rfl hty hv hlegible hpasses⟩

/-- A zero initializes a pointer, a pointer initializes a `bool`, and pointers are initialized with
pointers to constants and with functions of other types, but none of them can be passed. -/
theorem refuses_initializers :
    Refuses (.pointerTo .int) (.int .int 0) ∧ Refuses .bool (.null (.pointerTo .int)) ∧
      Refuses (.pointerTo .int) (.null (.constPointerTo .int)) ∧
      Refuses (.functionPointer ⟨.void, [], false⟩) (.null (.functionPointer ⟨.int, [], false⟩)) := by
  refine ⟨refuses_of_not_passes (w := .null (.pointerTo .int)) ⟨rfl, rfl⟩ rfl ⟨rfl, nofun⟩ rfl
      (fun h => ?_) (fun ctx heap => ?_) nofun,
    refuses_of_not_passes (w := .bool false) ⟨rfl, rfl⟩ rfl ⟨rfl, nofun⟩ rfl
      (fun h => ?_) (fun ctx heap => ?_) nofun,
    refuses_of_not_passes (w := .null (.pointerTo .int)) ⟨rfl, rfl⟩ rfl ⟨rfl, nofun⟩ rfl
      (fun h => ?_) (fun ctx heap => ?_) nofun,
    refuses_of_not_passes (w := .null (.functionPointer ⟨.void, [], false⟩)) ⟨rfl, rfl⟩ rfl
      ⟨rfl, nofun⟩ rfl (fun h => ?_) (fun ctx heap => ?_) nofun⟩
  -- the types do not pass for one another, and the initializer converts
  all_goals first
    | (obtain h | ⟨ha, ht⟩ | ⟨ha, ht⟩ | ⟨ha, ht⟩ | ⟨ha, ht⟩ | ⟨ha, ht⟩ := h <;>
        first
          | cases h
          | (cases ha <;> cases ht))
    | (unfold OperatorM.convert
       rw [if_neg (by decide +kernel)]
       rfl)

end RunM

end Stepwise
