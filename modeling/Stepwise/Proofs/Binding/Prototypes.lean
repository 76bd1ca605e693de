import Stepwise.Machine.Call
import Stepwise.Proofs.Binding.Viable
import Stepwise.Proofs.Closure.Questions
import Stepwise.Proofs.Overload.Registry
import Mathlib.Data.List.Nodup

/-! # Prototypes and their definitions

A definition completes the prototype that has its signature, and the marks of default
arguments are a part of signatures. Once it is complete, calls that leave out arguments
run the body with the defaults of the definition.
-/

namespace Stepwise

/-- The parameter without the mark of its default argument. -/
def ParamOf.unmarked (p : ParamOf Ty) : ParamOf Ty := { p with optional := false }

/-- The parameters have the same types and are references alike. -/
def SameTypes (f g : FunctionTy) : Prop :=
  Ty.decayedParams (f.params.map ParamOf.unmarked) =
    Ty.decayedParams (g.params.map ParamOf.unmarked) ∧ f.variadic = g.variadic

/-- The same parameters have default arguments. -/
def SameDefaults (f g : FunctionTy) : Prop :=
  f.params.map ParamOf.optional = g.params.map ParamOf.optional

theorem decayedParam_eq_iff (p q : ParamOf Ty) : Ty.decayedParam p = Ty.decayedParam q ↔
    Ty.decayedParam p.unmarked = Ty.decayedParam q.unmarked ∧ p.optional = q.optional := by
  obtain ⟨ty, isReference, readonly, optional⟩ := p
  obtain ⟨ty', isReference', readonly', optional'⟩ := q
  simp [Ty.decayedParam, ParamOf.unmarked, and_assoc]

theorem decayedParams_eq_iff (ps qs : List (ParamOf Ty)) :
    Ty.decayedParams ps = Ty.decayedParams qs ↔
      Ty.decayedParams (ps.map ParamOf.unmarked) = Ty.decayedParams (qs.map ParamOf.unmarked) ∧
        ps.map ParamOf.optional = qs.map ParamOf.optional := by
  induction ps generalizing qs with
  | nil => cases qs <;> simp [Ty.decayedParams]
  | cons p ps ih =>
    cases qs with
    | nil => simp [Ty.decayedParams]
    | cons q qs =>
      simp only [Ty.decayedParams, List.map_cons, List.cons.injEq, decayedParam_eq_iff p q, ih qs]
      tauto

/-- What pairs a definition with a prototype. -/
theorem sameParams_iff {f g : FunctionTy} : SameParams f g ↔ SameTypes f g ∧ SameDefaults f g := by
  rw [SameParams, SameTypes, SameDefaults, decayedParams_eq_iff]
  tauto

namespace Matcher

variable {m : Matcher} {f : FunctionTy} {args : List ArgSig}

/-- The arguments of a call convert to the parameters, and what is left out has a default. -/
structure Takes (m : Matcher) (f : FunctionTy) (args : List ArgSig) : Prop where
  arguments : ∀ a ∈ args, a.shape?.isSome = true
  params : ∀ p ∈ f.params, (Ty.paramShape? p).isSome = true
  room : args.length ≤ f.params.length ∨ f.variadic = true
  omitted : ∀ p ∈ f.params.drop args.length, p.optional = true
  converts : ∀ (i : Nat) (a : ArgSig) (p : ParamTy) (s : Shape) (q : Shape × Bool),
    args[i]? = some a → f.params[i]? = some p → a.shape? = some s → Ty.paramShape? p = some q →
      (m.convert [] s q.1).isSome = true

theorem isSome_bindAll_iff {bindings : List Shape} {variadic : Bool} {as ps : List (Shape × Bool)} :
    (m.bindAll bindings variadic as ps).isSome = true ↔
      (as.length ≤ ps.length ∨ variadic = true) ∧ (∀ p ∈ ps.drop as.length, p.2 = true) ∧
        ∀ (i : Nat) (a p : Shape × Bool), as[i]? = some a → ps[i]? = some p →
          (m.convert bindings a.1 p.1).isSome = true := by
  induction as generalizing ps with
  | nil => simp [bindAll]
  | cons a as ih =>
    cases ps with
    | nil => simp [bindAll]
    | cons p ps =>
      have hbind : (m.bindAll bindings variadic (a :: as) (p :: ps)).isSome = true ↔
          (m.convert bindings a.1 p.1).isSome = true ∧
            (m.bindAll bindings variadic as ps).isSome = true := by
        rw [bindAll]
        cases m.convert bindings a.1 p.1 <;> cases m.bindAll bindings variadic as ps <;> simp
      rw [hbind, ih, List.length_cons, List.length_cons, Nat.add_le_add_iff_right, List.drop_succ_cons]
      constructor
      · rintro ⟨hfirst, hroom, homitted, hrest⟩
        refine ⟨hroom, homitted, fun i b q hb hq => ?_⟩
        cases i with
        | zero =>
          cases hb
          cases hq
          exact hfirst
        | succ i => exact hrest i b q hb hq
      · rintro ⟨hroom, homitted, hall⟩
        exact ⟨hall 0 _ _ rfl rfl, hroom, homitted, fun i b q hb hq => hall (i + 1) b q hb hq⟩

theorem exists_mapM {α β : Type} {g : α → Option β} {l : List α} (h : ∀ a ∈ l, (g a).isSome = true) :
    ∃ l', l.mapM g = some l' := by
  induction l with
  | nil => exact ⟨[], rfl⟩
  | cons a l ih =>
    obtain ⟨ha, hl⟩ := List.forall_mem_cons.mp h
    obtain ⟨b, hb⟩ := Option.isSome_iff_exists.mp ha
    obtain ⟨bs, hbs⟩ := ih hl
    exact ⟨b :: bs, by rw [List.mapM_cons, hb, hbs]; rfl⟩

theorem mapM_getElem? {α β : Type} {g : α → Option β} {l : List α} {l' : List β}
    (h : l.mapM g = some l') {i : Nat} {b : β} (hb : l'[i]? = some b) :
    ∃ a, l[i]? = some a ∧ g a = some b := by
  obtain ⟨hi, -⟩ := List.getElem?_eq_some_iff.mp hb
  have ha := List.getElem?_eq_getElem ((mapM_eq_some_iff.mp h).length_eq ▸ hi : i < l.length)
  obtain ⟨b', hb', hi'⟩ := getElem?_of_mapM h ha
  rw [hb, Option.some.injEq] at hi'
  exact ⟨_, ha, hi' ▸ hb'⟩

theorem paramShape?_optional {p : ParamTy} {q : Shape × Bool} (h : Ty.paramShape? p = some q) :
    q.2 = p.optional := by
  obtain ⟨ty, isReference, readonly, optional⟩ := p
  rw [Ty.paramShape?] at h
  obtain ⟨s, -, h⟩ := Option.bind_eq_some_iff.mp h
  cases h
  rfl

/-- A function accepts the calls that it takes. -/
theorem Takes.isSome_matchFunction (h : m.Takes f args) :
    (m.matchFunction (.ofCall args) (.ofFunction f) []).isSome = true := by
  obtain ⟨ss, hss⟩ := exists_mapM h.arguments
  obtain ⟨qs, hqs⟩ := exists_mapM h.params
  have hlength : ss.length = args.length := (mapM_eq_some_iff.mp hss).length_eq.symm
  rw [matchFunction_ofCall, hss, Ty.paramShapes?_eq_mapM, hqs]
  refine isSome_bindAll_iff.mpr ⟨?_, fun q hq => ?_, fun i s q hs hq => ?_⟩
  · rw [List.length_map, hlength, ← (mapM_eq_some_iff.mp hqs).length_eq]
    exact h.room
  · obtain ⟨i, hi⟩ := List.mem_iff_getElem?.mp hq
    rw [List.length_map, hlength, List.getElem?_drop] at hi
    obtain ⟨p, hp, hshape⟩ := mapM_getElem? hqs hi
    rw [paramShape?_optional hshape]
    refine h.omitted p (List.mem_iff_getElem?.mpr ⟨i, ?_⟩)
    rw [List.getElem?_drop, hp]
  · rw [List.getElem?_map] at hs
    obtain ⟨t, ht, rfl⟩ := Option.map_eq_some_iff.mp hs
    obtain ⟨a, ha, hshape⟩ := mapM_getElem? hss ht
    obtain ⟨p, hp, hshape'⟩ := mapM_getElem? hqs hq
    exact h.converts i a p t q ha hp hshape hshape'

end Matcher

namespace ReadM

variable {q : Config × State}

theorem marks_of_parameters {only defaulted : Bool} {ps : List Param}
    {xs : List (ParamTy × ParamInfo)} (h : parameters only defaulted ps q = .ok xs) :
    ∀ x ∈ xs, x.2.default.isSome = x.1.optional := by
  induction ps generalizing defaulted xs with
  | nil =>
    cases h
    exact nofun
  | cons p ps ih =>
    obtain ⟨span, spec, d, default⟩ := p
    rw [parameters] at h
    obtain ⟨base, -, h⟩ := of_bind_eq_ok h
    split at h
    · cases h
      exact nofun
    · obtain ⟨declared, -, hrest⟩ := of_bind_eq_ok h
      dsimp only at hrest
      split at hrest
      · obtain ⟨_, hfail, -⟩ := of_bind_eq_ok hrest
        cases hfail
      · obtain ⟨rest, hmore, hxs⟩ := of_bind_eq_ok hrest
        cases hxs
        exact List.forall_mem_cons.mpr ⟨rfl, ih hmore⟩

end ReadM

namespace RunM

/-- Parameters that have names and default arguments. -/
def Defaulted (rest : List (ParamInfo × ParamTy)) : Prop :=
  ∀ x ∈ rest, x.1.name.isSome = true ∧ x.1.default.isSome = true

/-- A body whose parameters have default arguments is run, or the first of these is evaluated for
it. -/
theorem runDefaults_of_defaulted {rest : List (ParamInfo × ParamTy)} (h : Defaulted rest)
    (entry : FunctionEntry) (body : Stmt) :
    rest = [] ∧ runDefaults entry body rest = visitStmt body false .nil ∨
      ∃ name default param rest', rest = (⟨some name, some default⟩, param) :: rest' ∧
        Defaulted rest' ∧ runDefaults entry body rest =
          visit default none (.one (.defaultArgument entry body name param rest')) := by
  cases rest with
  | nil => exact .inl ⟨rfl, rfl⟩
  | cons x rest =>
    obtain ⟨hx, hrest⟩ := List.forall_mem_cons.mp h
    obtain ⟨⟨name, default⟩, param⟩ := x
    obtain ⟨name, rfl⟩ := Option.isSome_iff_exists.mp hx.1
    obtain ⟨default, rfl⟩ := Option.isSome_iff_exists.mp hx.2
    exact .inr ⟨name, default, param, rest, rfl, hrest, rfl⟩

end RunM

/-- The value is a function, or a pointer to it. -/
def Value.Calls (v : Value) (f : FunctionRef) : Prop :=
  (∃ sig, v.ty = .function sig ∧ v.data = .function f) ∨
    ∃ sig, v.ty = .functionPointer sig ∧ v.data = .functionPointer (some f)

theorem CallTarget.resolve_of_calls {v : Value} {f : FunctionRef} (h : v.Calls f)
    (ctx : OperatorContext) (heap : Heap) (args : List ArgSig) (templates : List Ty) :
    resolve ctx heap v args templates = ofFunction ctx f args templates := by
  unfold resolve
  obtain ⟨sig, hty, hdata⟩ | ⟨sig, hty, hdata⟩ := h <;> rw [hty, hdata]

section Resolved

variable {doubled : Bool} {m : Matcher} {call : Signature} {templates : List Signature}
  {os : List Overload} {o : Overload} {found : FunctionMatch}

/-- An overload that needs fewer casts than all others is the only one to choose. -/
theorem tied_eq_singleton (hos : os.Nodup) (ho : o ∈ os)
    (hfound : o.match? m call templates = some found)
    (hothers : ∀ p ∈ os, p ≠ o → ∀ other, p.match? m call templates = some other →
      found.casts < other.casts) : tied m call templates os = [o] := by
  refine List.perm_singleton.mp ((List.perm_ext_iff_of_nodup (hos.filter _)
    (List.nodup_singleton o)).mpr fun p => ?_)
  rw [List.mem_singleton]
  constructor
  · intro hp
    obtain ⟨hp, other, hother, hleast⟩ := mem_tied.mp hp
    by_contra hne
    exact absurd (hleast o ho found hfound) (Nat.not_le.mpr (hothers p hp hne other hother))
  · rintro rfl
    refine mem_tied.mpr ⟨ho, found, hfound, fun p' hp' other hother => ?_⟩
    by_cases hne : p' = p
    · subst hne
      rw [hfound, Option.some.injEq] at hother
      rw [hother]
    · exact (hothers p' hp' hne other hother).le

theorem KeptApart.nodup {rs : List TableRequest} {name : String} (h : KeptApart doubled rs name os) :
    os.Nodup := by
  refine List.Pairwise.imp (fun {a b} hp heq => hp ?_) h.apart
  rw [heq]
  exact ⟨rfl, rfl⟩

/-- A call that goes to an overload. -/
theorem CallTarget.ofFunction_of_tied (ctx : OperatorContext) (f : FunctionRef)
    {args : List ArgSig} (hargs : Signature.LegibleArgs doubled args)
    (hm : ctx.numerics.matcher = m)
    (hfaithful : (ctx.tables.table f.owner).Faithful doubled m)
    (hfound : o.match? m (.ofCall args) [] = some found)
    (htied : tied m (.ofCall args) [] ((ctx.tables.table f.owner).overloads f.name) = [o]) :
    ∃ tables, ofFunction ctx f args [] = .ok (⟨f, found⟩, tables) := by
  have hq : Query.Legible doubled ⟨args, []⟩ := ⟨hargs, nofun⟩
  have hres := (OverloadTable.resolution_resolve hfaithful f.name hq).unique (.only htied hfound)
  dsimp only at hres
  subst hm
  unfold ofFunction
  cases hr : (ctx.tables.table f.owner).resolve ctx.numerics.matcher f.name args [] with
  | error cause =>
    rw [hr] at hres
    cases hres
  | ok answer =>
    obtain ⟨answer, table⟩ := answer
    rw [hr] at hres
    cases hres
    exact ⟨_, rfl⟩

end Resolved

namespace RunM

variable {doubled : Bool} {c : Config} {s : State} {o : Overload} {p d e : FunctionEntry}
  {body : Stmt}

theorem call_apply (f : Value) (args : List Value) (c : Config) (s : State) :
    call f args c s = (match CallTarget.resolve ⟨c.numerics, s.tables, s.cursor⟩ s.heap f
        (args.map Value.argument) [] with
      | .error fault => throw fault
      | .ok (target, tables) => do
        modify fun s => { s with tables }
        invoke target args : RunM (Progress .value)) c s := rfl

/-- A call that goes to a function with a body runs it. -/
theorem call_of_ofFunction {v : Value} {f : FunctionRef} {args : List Value} {target : CallTarget}
    {tables : OwnerTables} (hv : v.Calls f)
    (h : CallTarget.ofFunction ⟨c.numerics, s.tables, s.cursor⟩ f (args.map Value.argument) [] =
      .ok (target, tables))
    (he : s.functions[target.found.id]? = some e) (hbody : e.body = .defined body) :
    call v args c s = (do
      let bound ← boundArguments args target.found.actions e.type.params
      enterBody e target.function.receiver body bound : RunM _) c { s with tables } := by
  have hrun : call v args c s = invoke target args c { s with tables } := by
    rw [call_apply, CallTarget.resolve_of_calls hv, h]
    rfl
  have he' : ({ s with tables } : State).functions[target.found.id]? = some e := he
  rw [hrun, invoke, bind_ok (function_eq he' c)]
  simp only [hbody]

/-- A function that was completed: it keeps its entry, and calls of it run its body. -/
structure Completed (doubled : Bool) (c : Config) (o : Overload) (e : FunctionEntry) (body : Stmt)
    (s : State) : Prop where
  overload : o ∈ (s.tables.table e.owner).overloads e.name
  entry : s.functions[o.id]? = some e
  /-- A call that the function takes, and others with more casts at most, goes to its body. -/
  calls : ∀ (v : Value) (receiver : Option Receiver) (args : List Value),
    v.Calls ⟨e.name, e.owner, receiver⟩ →
    Signature.LegibleArgs doubled (args.map Value.argument) →
    c.numerics.matcher.Takes e.type (args.map Value.argument) →
    (∀ p ∈ (s.tables.table e.owner).overloads e.name, p ≠ o → ∀ found other,
      o.match? c.numerics.matcher (.ofCall (args.map Value.argument)) [] = some found →
      p.match? c.numerics.matcher (.ofCall (args.map Value.argument)) [] = some other →
        found.casts < other.casts) →
    ∃ found tables,
      CallTarget.ofFunction ⟨c.numerics, s.tables, s.cursor⟩ ⟨e.name, e.owner, receiver⟩
        (args.map Value.argument) [] = .ok (⟨⟨e.name, e.owner, receiver⟩, found⟩, tables) ∧
      found.id = o.id ∧
      call v args c s = (do
        let bound ← boundArguments args found.actions e.type.params
        enterBody e receiver body bound : RunM _) c { s with tables }

theorem completed_of_registered (hs : s.Registered doubled c.numerics.matcher)
    (ho : o ∈ (s.tables.table e.owner).overloads e.name) (he : s.functions[o.id]? = some e)
    (hbody : e.body = .defined body) : Completed doubled c o e body s where
  overload := ho
  entry := he
  calls v receiver args hv hargs htakes hothers := by
    obtain ⟨e', he', -, -, htype⟩ := hs.filed e.owner e.name o ho
    obtain rfl : e = e' := Option.some.inj (he.symm.trans he')
    obtain ⟨rs, hkept⟩ := hs.keptApart e.owner e.name
    have hsome := htakes.isSome_matchFunction
    obtain ⟨actions, hactions⟩ := Option.isSome_iff_exists.mp hsome
    have hnone : ([] : List Signature).length ≤ o.templateSlots := Nat.zero_le _
    have hfound : o.match? c.numerics.matcher (.ofCall (args.map Value.argument)) [] =
        some ⟨o.id, o.type, actions⟩ := by
      rw [Overload.match?, if_pos hnone, hkept.signature o ho, ← htype, hactions]
      rfl
    have htied := tied_eq_singleton hkept.nodup ho hfound fun p hp hne other hother =>
      hothers p hp hne _ other hfound hother
    obtain ⟨tables, hcall⟩ := CallTarget.ofFunction_of_tied ⟨c.numerics, s.tables, s.cursor⟩
      ⟨e.name, e.owner, receiver⟩ hargs rfl (hs.faithful e.owner) hfound htied
    exact ⟨_, tables, hcall, rfl, call_of_ofFunction hv hcall he hbody⟩

/-- The definition gives a name to each parameter, and a default argument to those that are
marked. -/
def Spelled (d : FunctionEntry) : Prop :=
  List.Forall₂ (fun info p => info.name.isSome = true ∧ info.default.isSome = p.optional) d.params
    d.type.params

/-- The parameters that a declarator gives are marked as its default arguments say. -/
theorem forall₂_of_suffixes {q : Config × State} {ty t : Ty} {first isVariadic openBound : Bool}
    {ps : List Param} {rest : List DeclaratorSuffix} {infos : List ParamInfo}
    (h : ReadM.suffixes ty first (.params ps isVariadic :: rest) q = .ok (t, openBound, infos)) :
    ∃ sig, t = .function sig ∧
      List.Forall₂ (fun info p => info.default.isSome = p.optional) infos sig.params := by
  rw [ReadM.suffixes] at h
  obtain ⟨⟨ret, _, _⟩, -, h⟩ := ReadM.of_bind_eq_ok h
  obtain ⟨params, hparams, h⟩ := ReadM.of_bind_eq_ok h
  cases h
  refine ⟨_, rfl, ?_⟩
  rw [List.forall₂_map_left_iff, List.forall₂_map_right_iff, List.forall₂_same]
  exact ReadM.marks_of_parameters hparams

/-- The parameters that are left out of a call of the completed function have default arguments. -/
theorem defaulted_of_takes {m : Matcher} (hd : Spelled d) (hdefaults : SameDefaults p.type d.type)
    {args : List ArgSig} (h : m.Takes p.type args) :
    Defaulted (((completed p d).params.zip (completed p d).type.params).drop args.length) := by
  rintro ⟨info, param⟩ hx
  obtain ⟨i, hi⟩ := List.mem_iff_getElem?.mp hx
  rw [List.getElem?_drop, List.getElem?_zip_eq_some] at hi
  obtain ⟨hinfo, hparam⟩ := hi
  have homitted : param.optional = true := by
    refine h.omitted param (List.mem_iff_getElem?.mpr ⟨i, ?_⟩)
    rw [List.getElem?_drop]
    exact hparam
  have hmarks := congrArg (·[args.length + i]?) hdefaults
  simp only [List.getElem?_map] at hmarks
  rw [show p.type.params[args.length + i]? = some param from hparam, Option.map_some, homitted] at hmarks
  obtain ⟨q, hq, hoptional⟩ := Option.map_eq_some_iff.mp hmarks.symm
  obtain ⟨hi, rfl⟩ := List.getElem?_eq_some_iff.mp (hinfo : d.params[args.length + i]? = some info)
  obtain ⟨hi', rfl⟩ := List.getElem?_eq_some_iff.mp hq
  have hnamed := List.Forall₂.get hd hi hi'
  exact ⟨hnamed.1, hnamed.2.trans hoptional⟩

section Registering

variable (hs : s.Registered doubled c.numerics.matcher) (hexact : Signature.Exact doubled d.type)

include hs hexact

/-- A definition completes the prototype with its parameters. -/
theorem register_paired (ho : o ∈ (s.tables.table d.owner).overloads d.name)
    (hp : s.functions[o.id]? = some p) (hproto : p.body = .prototype)
    (hbody : d.body = .defined body) (hsame : SameParams o.type d.type)
    (hret : (p.type.ret == d.type.ret) = true) :
    register d c s = .ok () { s with functions := s.functions.modify o.id (completed · d) } := by
  obtain ⟨rs, hkept⟩ := hs.keptApart d.owner d.name
  have hpairs := pairs c (OverloadTable.identifies hkept hexact)
  exact (hpairs.completes o ho hsame).trans (complete_prototype hp hret hproto hbody c)

/-- A function is filed beside those with other parameters. -/
theorem register_beside
    (hnone : ∀ o ∈ (s.tables.table d.owner).overloads d.name, ¬ SameParams o.type d.type) :
    ∃ t, register d c s = .ok () t ∧ t.functions = s.functions.push d ∧
      (t.tables.table d.owner).overloads d.name = (s.tables.table d.owner).overloads d.name ++
        [⟨.ofFunction d.type, s.functions.size, 0, d.type⟩] := by
  obtain ⟨rs, hkept⟩ := hs.keptApart d.owner d.name
  have hidentifies := OverloadTable.identifies hkept hexact
  obtain ⟨table, hadd, hrun⟩ := (pairs c hidentifies).files hnone
  obtain ⟨table', hadd', hoverloads⟩ := hidentifies.added s.functions.size 0 hnone
  obtain rfl : table = table' := Except.ok.inj (hadd.symm.trans hadd')
  refine ⟨_, hrun, rfl, ?_⟩
  rw [OwnerTables.table_put, beq_self_eq_true, if_pos rfl, hoverloads]

end Registering

/-- A definition that completes a prototype; later calls go to its body. -/
theorem register_completed (hs : ({} : State).Leads doubled c s)
    (hexact : Signature.Exact doubled d.type)
    (ho : o ∈ (s.tables.table d.owner).overloads d.name) (hp : s.functions[o.id]? = some p)
    (hproto : p.body = .prototype) (hbody : d.body = .defined body)
    (hsame : SameParams p.type d.type) (hret : (p.type.ret == d.type.ret) = true) :
    let t := { s with functions := s.functions.modify o.id (completed · d) }
    register d c s = .ok () t ∧ ∀ u, t.Leads doubled c u →
      u.Registered doubled c.numerics.matcher ∧ Completed doubled c o (completed p d) body u := by
  intro t
  have hreg := hs.registered (State.registered_start doubled c.numerics.matcher)
  obtain ⟨e, he, hname, howner, htype⟩ := hreg.filed d.owner d.name o ho
  obtain rfl : p = e := Option.some.inj (hp.symm.trans he)
  have hrun := register_paired hreg hexact ho hp hproto hbody (htype ▸ hsame) hret
  refine ⟨hrun, fun u hu => ?_⟩
  have hadvance : s.Advances doubled c t := .register hexact hrun
  have hcompleted : t.functions[o.id]? = some (completed p d) := by
    rw [Array.getElem?_modify, if_pos rfl, hp, Option.map_some]
  obtain ⟨e', he', hc⟩ := hu.continues.entry o.id _ hcompleted
  have hdefined : (completed p d).body = .defined body := hbody
  obtain rfl := hc.defined (by rw [hdefined]; simp)
  have hu' := hu.registered (hadvance.registered hreg)
  refine ⟨hu', completed_of_registered hu' ?_ he' hdefined⟩
  change o ∈ (u.tables.table p.owner).overloads p.name
  rw [howner, hname]
  exact (hu.continues.trans hadvance.continues).overloads d.owner d.name o ho

/-- A definition whose parameters have the types of those of a prototype completes it if they have
default arguments alike. From then on every call that the function takes runs the body, and the
definition has a default argument for all that such a call leaves out. If they do not, then the
definition is a function of its own beside the prototype. -/
theorem register_completes (hs : ({} : State).Leads doubled c s)
    (ho : o ∈ (s.tables.table d.owner).overloads d.name) (hp : s.functions[o.id]? = some p)
    (hproto : p.body = .prototype) (hbody : d.body = .defined body)
    (hexact : Signature.Exact doubled d.type) (htypes : SameTypes p.type d.type)
    (hret : (p.type.ret == d.type.ret) = true) :
    (SameDefaults p.type d.type → ∃ t, register d c s = .ok () t ∧ t.tables = s.tables ∧
      t.functions = s.functions.modify o.id (completed · d) ∧
      (∀ u, t.Leads doubled c u → Completed doubled c o (completed p d) body u) ∧
      (Spelled d → ∀ args, c.numerics.matcher.Takes p.type args →
        Defaulted (((completed p d).params.zip p.type.params).drop args.length))) ∧
    (¬ SameDefaults p.type d.type →
      (∀ o' ∈ (s.tables.table d.owner).overloads d.name, ¬ SameParams o'.type d.type) →
      ∃ t, register d c s = .ok () t ∧ t.functions = s.functions.push d ∧
        t.functions[o.id]? = some p ∧ (t.tables.table d.owner).overloads d.name =
          (s.tables.table d.owner).overloads d.name ++
            [⟨.ofFunction d.type, s.functions.size, 0, d.type⟩]) := by
  refine ⟨fun hdefaults => ?_, fun hdefaults hnone => ?_⟩
  · obtain ⟨hrun, hlater⟩ := register_completed hs hexact ho hp hproto hbody
      (sameParams_iff.mpr ⟨htypes, hdefaults⟩) hret
    exact ⟨_, hrun, rfl, rfl, fun u hu => (hlater u hu).2,
      fun hd args h => defaulted_of_takes hd hdefaults h⟩
  · have hreg := hs.registered (State.registered_start doubled c.numerics.matcher)
    obtain ⟨t, hrun, hfunctions, hoverloads⟩ := register_beside hreg hexact hnone
    refine ⟨t, hrun, hfunctions, ?_, hoverloads⟩
    obtain ⟨hi, hp⟩ := Array.getElem?_eq_some_iff.mp hp
    rw [hfunctions, Array.getElem?_push_lt hi, hp]

/-- `int f(int a, int b = 1)`, with the default argument if it is `marked`. -/
def sample (marked : Bool) (body : FunctionBody) : FunctionEntry where
  name := "f"
  owner := .global
  type := ⟨.int, [.plain .int, ⟨.int, false, false, marked⟩], false⟩
  params := [⟨some "a", none⟩,
    ⟨some "b", if marked then some (.literal default (.int 1 10 false false)) else none⟩]
  body := body

/-- The sample as a prototype, in a state where nothing else is declared. -/
theorem register_sample (c : Config) : ∃ s, register (sample true .prototype) c {} = .ok () s ∧
    ({} : State).Leads true c s ∧ s.functions = #[sample true .prototype] ∧
    (s.tables.table .global).overloads "f" =
      [⟨.ofFunction (sample true .prototype).type, 0, 0, (sample true .prototype).type⟩] := by
  have hexact : Signature.Exact true (sample true .prototype).type := ⟨rfl, rfl⟩
  obtain ⟨s, hrun, hfunctions, hoverloads⟩ := register_beside
    (State.registered_start true c.numerics.matcher) hexact nofun
  exact ⟨s, hrun, .single (.register hexact hrun), hfunctions, hoverloads⟩

/-- A definition that repeats the default argument completes the prototype. -/
theorem register_completes_sample :
    let d := sample true (.defined (.compound default []))
    ∃ s t, register (sample true .prototype) {} {} = .ok () s ∧ register d {} s = .ok () t ∧
      t.functions = s.functions.modify 0 (completed · d) := by
  intro d
  obtain ⟨s, hrun, hs, hfunctions, hoverloads⟩ := register_sample {}
  obtain ⟨t, ht, -, hcompleted, -⟩ := (register_completes (d := d) (p := sample true .prototype)
    (o := ⟨.ofFunction d.type, 0, 0, d.type⟩) hs
    (hoverloads ▸ List.mem_singleton_self _) (by rw [hfunctions]; rfl) rfl rfl ⟨rfl, rfl⟩ ⟨rfl, rfl⟩
    (by decide +kernel)).1 rfl
  exact ⟨s, t, hrun, ht, hcompleted⟩

/-- A definition that leaves the default argument to its prototype does not complete it, and calls
that pass all arguments cannot choose between the two. -/
theorem definition_beside_prototype :
    let p := sample true .prototype
    let d := sample false (.defined (.compound default []))
    SameTypes p.type d.type ∧ ∃ s t, register p {} {} = .ok () s ∧ register d {} s = .ok () t ∧
      t.functions = #[p, d] ∧
      (((t.tables.table .global).resolve ({} : Config).numerics.matcher "f"
        [.rvalue .int, .rvalue .int] []).map Prod.fst) =
          .error (.ambiguous "f" [(Signature.ofFunction p.type).text,
            (Signature.ofFunction d.type).text]) := by
  intro p d
  refine ⟨⟨rfl, rfl⟩, ?_⟩
  obtain ⟨s, hrun, hs, hfunctions, hoverloads⟩ := register_sample {}
  have hreg := hs.registered (State.registered_start true ({} : Config).numerics.matcher)
  have hexact : Signature.Exact true d.type := ⟨rfl, rfl⟩
  have hnone : ∀ o ∈ (s.tables.table d.owner).overloads d.name, ¬ SameParams o.type d.type := by
    intro o ho hsame
    obtain rfl := List.mem_singleton.mp (hoverloads ▸ ho)
    have hdefaults : SameDefaults p.type d.type := (sameParams_iff.mp hsame).2
    cases hdefaults
  obtain ⟨t, ht, hpush, happend⟩ := register_beside hreg hexact hnone
  refine ⟨s, t, hrun, ht, by rw [hpush, hfunctions]; rfl, ?_⟩
  have hreg' : t.Registered true ({} : Config).numerics.matcher :=
    (State.Advances.register hexact ht).registered hreg
  have hres := OverloadTable.resolution_resolve (hreg'.faithful .global) "f"
    (q := ⟨[.rvalue .int, .rvalue .int], []⟩)
    ⟨by simp [Signature.LegibleArgs, ArgSig.rvalue]; decide, nofun⟩
  have hos : (t.tables.table .global).overloads "f" =
      [⟨.ofFunction p.type, 0, 0, p.type⟩, ⟨.ofFunction d.type, 1, 0, d.type⟩] := by
    refine happend.trans ?_
    change (s.tables.table .global).overloads "f" ++ _ = _
    rw [hoverloads, hfunctions]
    rfl
  rw [hos] at hres
  have htied : tied ({} : Config).numerics.matcher (.ofCall [.rvalue .int, .rvalue .int]) []
      [⟨.ofFunction p.type, 0, 0, p.type⟩, ⟨.ofFunction d.type, 1, 0, d.type⟩] =
        [⟨.ofFunction p.type, 0, 0, p.type⟩, ⟨.ofFunction d.type, 1, 0, d.type⟩] :=
    List.filter_eq_self.mpr (List.all_eq_true.mp (by decide +kernel))
  refine hres.unique ?_
  have hseveral : Resolution ({} : Config).numerics.matcher (.ofCall [.rvalue .int, .rvalue .int]) []
    [⟨.ofFunction p.type, 0, 0, p.type⟩, ⟨.ofFunction d.type, 1, 0, d.type⟩] "f" _ :=
    .several (by rw [htied]; decide)
  rw [htied] at hseveral
  exact hseveral

end RunM

end Stepwise
