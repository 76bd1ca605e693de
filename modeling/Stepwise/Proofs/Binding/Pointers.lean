import Stepwise.Proofs.Binding.Ranking
import Stepwise.Proofs.Repetition.Prototypes

/-! # Pointers to functions

A pointer to a function holds a name, and each call through it is resolved anew, by the types of
its arguments. The function that runs is an overload of the name, but it need not be the one whose
type the pointer has: another overload may take the arguments better.
-/

namespace Stepwise

namespace OverloadSet

/-- Every function that is remembered as an answer is an overload. -/
def Recalls (s : OverloadSet) : Prop :=
  ∀ text found, (text, some found) ∈ s.answers → ∃ o ∈ s.overloads, o.id = found.id

variable {s u : OverloadSet} {m : Matcher} {name : String} {q : Query} {found : FunctionMatch}

theorem exists_of_resolveFresh {call : Signature} {templates : List Signature}
    (h : s.resolveFresh name m call templates = .ok (some found)) :
    ∃ o ∈ s.overloads, o.id = found.id := by
  have hres : Resolution m call templates s.overloads name _ := resolution_resolveFresh s name
  rw [h] at hres
  cases hres with
  | only ho hfound =>
    rename_i o
    obtain ⟨-, hfound⟩ := Option.ite_none_right_eq_some.mp hfound
    obtain ⟨actions, -, rfl⟩ := Option.map_eq_some_iff.mp hfound
    exact ⟨o, (mem_tied.mp (ho ▸ List.mem_singleton_self o)).1, rfl⟩

namespace Recalls

theorem exists_of_resolve (hs : s.Recalls)
    (h : s.resolve name m q.call q.templateArgs = .ok (some found, u)) :
    ∃ o ∈ s.overloads, o.id = found.id := by
  unfold OverloadSet.resolve at h
  dsimp only at h
  split at h
  · rename_i answer hl
    cases h
    obtain ⟨before, after, hl, -⟩ := List.lookup_eq_some_iff.mp hl
    exact hs _ found (hl ▸ List.mem_append_cons_self)
  · cases hf : s.resolveFresh name m q.call q.templateArgs with
    | error cause =>
      rw [hf] at h
      cases h
    | ok answer =>
      rw [hf] at h
      cases h
      exact exists_of_resolveFresh hf

theorem resolve {answer : Option FunctionMatch} (hs : s.Recalls)
    (h : s.resolve name m q.call q.templateArgs = .ok (answer, u)) : u.Recalls := by
  rcases resolve_cases h with rfl | ⟨hf, rfl⟩
  · exact hs
  · rintro text found (_ | ⟨_, hmem⟩)
    · exact exists_of_resolveFresh hf
    · exact hs text found hmem

end Recalls

end OverloadSet

namespace OverloadTable

def Recalls (t : OverloadTable) : Prop := ∀ name s, t.set? name = some s → s.Recalls

namespace Recalls

variable {t u : OverloadTable} {m : Matcher} {name : String} {q : Query} {found : FunctionMatch}

theorem put (ht : t.Recalls) {s : OverloadSet} (hs : s.Recalls) : (t.put name s).Recalls := by
  intro other u hu
  rw [set?_put] at hu
  split at hu
  · cases hu
    exact hs
  · exact ht other u hu

theorem serve (ht : t.Recalls) (m : Matcher) (r : TableRequest) : (t.serve m r).Recalls := by
  unfold OverloadTable.serve
  cases r with
  | add name type id slots =>
    dsimp only
    rw [add_eq]
    split
    · exact ht.put fun _ _ h => nomatch h
    · exact ht
  | resolve name q =>
    dsimp only
    cases hs : t.set? name with
    | none =>
      rw [resolve_of_set?_none hs]
      exact ht
    | some s =>
      rw [resolve_of_set?_some hs]
      cases ha : s.resolve name m q.call q.templateArgs with
      | error => exact ht
      | ok answer => exact ht.put ((ht name s hs).resolve ha)

/-- The answer to a call is an overload of its name, whatever was asked before. -/
theorem exists_of_resolve (ht : t.Recalls)
    (h : t.resolve m name q.args q.templates = .ok (some found, u)) :
    ∃ o ∈ t.overloads name, o.id = found.id := by
  cases hs : t.set? name with
  | none =>
    rw [resolve_of_set?_none hs] at h
    cases h
  | some s =>
    rw [resolve_of_set?_some hs] at h
    cases ha : s.resolve name m q.call q.templateArgs with
    | error cause =>
      rw [ha] at h
      cases h
    | ok answer =>
      obtain ⟨answer, set⟩ := answer
      rw [ha] at h
      cases h
      rw [overloads_of_set? hs]
      exact (ht name s hs).exists_of_resolve ha

end Recalls

end OverloadTable

section Castless

variable {m : Matcher} {call : Signature} {templates : List Signature} {os : List Overload}
  {name : String} {o : Overload} {found taken : FunctionMatch}

/-- If an overload takes a call without a cast, then the call goes to it or is ambiguous. -/
theorem Resolution.eq_of_castless (h : Resolution m call templates os name (.ok (some found)))
    (ho : o ∈ os) (htaken : o.match? m call templates = some taken) (hcasts : taken.casts = 0) :
    found = taken := by
  cases h with
  | only hone hfound =>
    rename_i p
    have htied : o ∈ tied m call templates os :=
      mem_tied.mpr ⟨ho, taken, htaken, fun _ _ _ _ => hcasts ▸ Nat.zero_le _⟩
    obtain rfl := List.mem_singleton.mp (hone ▸ htied)
    exact Option.some.inj (hfound.symm.trans htaken)

end Castless

namespace Matcher

variable {m : Matcher} {f sig : FunctionTy} {args : List ArgSig}

/-- A function of the type takes the arguments without a cast. -/
def TakesAsIs (m : Matcher) (f : FunctionTy) (args : List ArgSig) : Prop :=
  ∃ actions, m.matchFunction (.ofCall args) (.ofFunction f) [] = some actions ∧ .cast ∉ actions

/-- Arguments of exactly the types of parameters by value are taken without a cast. -/
theorem takesAsIs_of_exact (ha : ∀ a ∈ args, a.Plain)
    (hp : ∀ p ∈ f.params, p.reference = false ∧ p.ty.constNamed = true)
    (h : List.Forall₂ (fun a p => a.ty.decayed = p.ty.decayed) args f.params) :
    m.TakesAsIs f args := by
  have hexact : (⟨f, 0, 0⟩ : Registration).IsExact args [] := ⟨Nat.le_refl 0, h⟩
  have hpass : AllPassAsIs m f.variadic args f.params := hexact.takesAsIs.2
  have hnone : ∀ t ∈ ([] : List Ty), t.constNamed = true := nofun
  exact ⟨_, (matchFunction_asIs_iff hnone ha hp).mpr ⟨rfl, hpass⟩⟩

/-- A function or a pointer to one is accepted for a pointer to a function only if their signatures
are read alike. -/
theorem functionShape?_of_matchFunction {g : FunctionTy} {templates : List Signature}
    {actions : List ArgAction}
    (h : m.matchFunction (.ofCall args) (.ofFunction f) templates = some actions) {i : Nat}
    {a : ArgSig} {p : ParamTy} (ha : args[i]? = some a) (hp : f.params[i]? = some p)
    (hty : p.ty = .functionPointer sig) (hg : a.ty = .function g ∨ a.ty = .functionPointer g) :
    Ty.functionShape? g = Ty.functionShape? sig := by
  obtain ⟨bindings, s, q, action, hs, hq, hconvert, -⟩ := exists_convert_of_matchFunction h ha hp
  obtain ⟨t, ht, rfl⟩ := Option.map_eq_some_iff.mp hs
  obtain ⟨ty, isReference, readonly, optional⟩ := p
  obtain rfl : ty = .functionPointer sig := hty
  rw [Ty.paramShape?] at hq
  obtain ⟨t', ht', hq⟩ := Option.bind_eq_some_iff.mp hq
  cases hq
  have hsome : (m.convertShape t t').isSome = true := by
    obtain ⟨-, -, -, hsame⟩ | hshape := convert_cases ht ht' hconvert
    · unfold convertShape
      rw [if_pos (beq_iff_eq.mpr hsame)]
      rfl
    · rw [hshape]
      rfl
  obtain ⟨y, hy, rfl⟩ := Option.map_eq_some_iff.mp ht'
  obtain ⟨ret, params, rfl⟩ := Ty.functionShape?_eq_some hy
  rcases hg with hg | hg <;> rw [hg] at ht
  · have hfunction : Ty.functionShape? g = some t := ht
    rw [hfunction, hy]
    obtain ⟨ret', params', rfl⟩ := Ty.functionShape?_eq_some hfunction
    obtain hsame | ⟨j, k, harith, -⟩ | ⟨x, x', hpointer, -⟩ | ⟨_, _, _, -, hpointer⟩ :=
      m.cases_of_convertShape hsome
    · cases hsame
    · cases harith
    · cases hpointer
    · rw [Shape.pointer.inj hpointer]
  · obtain ⟨x, hx, rfl⟩ := Option.map_eq_some_iff.mp ht
    rw [hx, hy]
    obtain ⟨ret', params', rfl⟩ := Ty.functionShape?_eq_some hx
    rw [convertShape_pointer] at hsome
    simpa [Shape.isVoid, Shape.unqualified, Shape.isReadonly] using hsome

end Matcher

/-- Signatures that are read alike are those of one function type. -/
theorem Ty.decayedFunction_eq_of_shape {f g : FunctionTy} (hf : constNamedFunction f = true)
    (hg : constNamedFunction g = true) (h : functionShape? f = functionShape? g) :
    decayedFunction f = decayedFunction g := by
  obtain ⟨x, hx, hxf⟩ := exists_functionShape? f hf
  obtain ⟨y, hy, hyg⟩ := exists_functionShape? g hg
  rw [hx, hy, Option.some.injEq] at h
  rw [h, hyg, Prod.mk.injEq, Ty.function.injEq] at hxf
  exact hxf.1.symm

namespace State

variable {c : Config} {s t u : State} {owner : Owner} {name : String}

/-- The overload has the signature of its type, and an entry of its name and type. -/
structure Files (s : State) (owner : Owner) (name : String) (o : Overload) : Prop where
  signature : o.signature = .ofFunction o.type
  entry : ∃ e, s.functions[o.id]? = some e ∧ e.name = name ∧ e.owner = owner ∧ e.type = o.type

/-- The overloads have entries, and calls are answered with overloads. -/
structure Filed (s : State) : Prop where
  files : ∀ owner name, ∀ o ∈ (s.tables.table owner).overloads name, s.Files owner name o
  recalls : ∀ owner, (s.tables.table owner).Recalls

theorem Files.continues {o : Overload} (h : s.Files owner name o) (ht : t.Continues s) :
    t.Files owner name o where
  signature := h.signature
  entry := by
    obtain ⟨e, he, hname, howner, htype⟩ := h.entry
    obtain ⟨e', he', hc⟩ := ht.entry o.id e he
    exact ⟨e', he', hc.name.trans hname, hc.owner.trans howner, hc.type.trans htype⟩

theorem filed_start (console : Console) (files : FileSystem) :
    ({ console, files } : State).Filed where
  files _ _ _ ho := nomatch ho
  recalls _ _ _ hs := nomatch hs

namespace Filed

theorem of_tables (hs : s.Filed) (htables : t.tables = s.tables) (ht : t.Continues s) :
    t.Filed where
  files owner name o ho := (hs.files owner name o (htables ▸ ho)).continues ht
  recalls owner := htables ▸ hs.recalls owner

theorem stays (hs : s.Filed) (htables : t.tables = s.tables)
    (hfunctions : t.functions = s.functions) : t.Filed :=
  hs.of_tables htables (Retains.of_eq htables hfunctions).toContinues

/-- A request leaves what was filed, if what it declares has an entry. -/
theorem of_serves {m : Matcher} {r : TableRequest} (hs : s.Filed) (h : Serves m owner r s t)
    (ht : t.Continues s)
    (hnew : ∀ name, ∀ o ∈ TableRequest.declare (s.tables.table owner).overloads r name,
      o ∈ (s.tables.table owner).overloads name ∨ t.Files owner name o) : t.Filed where
  files other name o ho := by
    rw [h.overloads] at ho
    split at ho
    · rename_i howner
      subst howner
      obtain ho | ho := hnew name o ho
      · exact (hs.files other name o ho).continues ht
      · exact ho
    · exact (hs.files other name o ho).continues ht
  recalls other := by
    by_cases howner : other = owner
    · subst howner
      exact h.table ▸ (hs.recalls other).serve m r
    · exact h.others other howner ▸ hs.recalls other

theorem register {entry : FunctionEntry} (hs : s.Filed)
    (h : RunM.register entry c s = .ok () t) : t.Filed := by
  obtain ⟨id, hcomplete⟩ | ⟨table, hadd, rfl⟩ := RunM.register_eq_ok h
  · obtain rfl | ⟨existing, hid, hproto, rfl⟩ := RunM.complete_eq_ok hcomplete
    · exact hs
    · exact hs.of_tables rfl (continues_completed hid hproto)
  · have hserves := serves_register (m := c.numerics.matcher) hadd
    refine hs.of_serves hserves (hserves.continues fun id e he => ?_) fun name o ho => ?_
    · obtain ⟨hi, he⟩ := Array.getElem?_eq_some_iff.mp he
      rw [Array.getElem?_push_lt hi, he]
    · rw [TableRequest.declare] at ho
      split at ho
      · rename_i hname
        obtain ⟨rfl, -⟩ := hname
        obtain ho | ho := List.mem_append.mp ho
        · exact .inl ho
        · obtain rfl := List.mem_singleton.mp ho
          exact .inr ⟨rfl, entry, Array.getElem?_push_size, rfl, rfl, rfl⟩
      · exact .inl ho

theorem call {f : FunctionRef} {args : List ArgSig} {templates : List Ty} {target : CallTarget}
    {tables : OwnerTables} (hs : s.Filed)
    (h : CallTarget.ofFunction ⟨c.numerics, s.tables, s.cursor⟩ f args templates =
      .ok (target, tables)) : { s with tables }.Filed :=
  hs.of_serves (serves_call h) ((serves_call h).continues fun _ _ he => he) fun _ _ ho => .inl ho

end Filed

end State

namespace RunM

variable {c : Config} {s t : State}

/-- What is called is a function or a pointer to one, and its overloads are asked. -/
theorem exists_of_resolveCall {f : Value} {args : List Value} {target : CallTarget}
    (h : resolveCall f args c s = .ok target t) :
    ∃ g tables, f.Calls g ∧ t = { s with tables } ∧
      CallTarget.ofFunction ⟨c.numerics, s.tables, s.cursor⟩ g (args.map Value.argument) [] =
        .ok (target, tables) := by
  rw [resolveCall_apply] at h
  cases hr : CallTarget.resolve ⟨c.numerics, s.tables, s.cursor⟩ s.heap f
      (args.map Value.argument) [] with
  | error fault =>
    rw [hr] at h
    cases h
  | ok found =>
    obtain ⟨target', tables⟩ := found
    rw [hr] at h
    cases h
    unfold CallTarget.resolve at hr
    split at hr
    · exact ⟨_, tables, .inl ⟨_, ‹_›, ‹_›⟩, rfl, hr⟩
    · exact ⟨_, tables, .inr ⟨_, ‹_›, ‹_›⟩, rfl, hr⟩
    all_goals cases hr

theorem invariant_filed (c : Config) : Invariant State.Filed (fun _ => True) c where
  raises _ _ := trivial
  orAt _ := trivial
  change hh _ hs := hs.stays (hh.tables _) (hh.functions _)
  alloc _ hs := hs.stays rfl rfl
  write _ hs := hs.stays rfl rfl
  register entry s hs := by
    cases h : register entry c s with
    | ok a t => exact ⟨hs.register h, trivial⟩
    | error fault t => exact ⟨register_eq_error h ▸ hs, trivial⟩
  resolveCall f args s hs := by
    cases h : resolveCall f args c s with
    | ok target t =>
      obtain ⟨g, tables, -, rfl, hg⟩ := exists_of_resolveCall h
      exact ⟨hs.call hg, trivial⟩
    | error fault t =>
      rw [resolveCall_apply] at h
      split at h <;> cases h
      exact ⟨hs, trivial⟩
  nameArith _ _ := .modify fun _ hs => hs.stays rfl rfl
  defineTypedefs := (sequential_maintains fun _ _ => trivial).defineTypedefs_of_names fun _ _ =>
    .modify fun _ hs => hs.stays rfl rfl

end RunM

namespace State

variable {c : Config} {s t : State}

/-- At any time in a run, the overloads have entries and calls are answered with overloads. -/
theorem Evolves.filed (h : s.Evolves c t) (hs : s.Filed) : t.Filed :=
  h.maintained (RunM.closed_maintains (RunM.invariant_filed c) fun _ hs => hs.stays rfl rfl)
    (fun _ hs => hs.stays rfl rfl) (fun _ hs => hs.stays rfl rfl) hs

/-- The name has an overload of the type. -/
def Offers (s : State) (f : FunctionRef) (sig : FunctionTy) : Prop :=
  ∃ o ∈ (s.tables.table f.owner).overloads f.name, o.type = sig

theorem Offers.retained {f : FunctionRef} {sig : FunctionTy} (h : s.Offers f sig)
    (ht : t.Retains s) : t.Offers f sig := by
  obtain ⟨o, ho, htype⟩ := h
  exact ⟨o, ht.overloads f.owner f.name o ho, htype⟩

end State

theorem Value.Calls.eq {v : Value} {f g : FunctionRef} (hf : v.Calls f) (hg : v.Calls g) :
    f = g := by
  obtain ⟨_, -, hf⟩ | ⟨_, -, hf⟩ := hf <;> obtain ⟨_, -, hg⟩ | ⟨_, -, hg⟩ := hg <;>
    rw [hf] at hg <;> cases hg <;> rfl

namespace RunM

/-- A call of the value is resolved, and goes to the function. -/
def Runs (v : Value) (args : List Value) (c : Config) (s : State) (entry : FunctionEntry) : Prop :=
  ∃ target t, resolveCall v args c s = .ok target t ∧ t.functions[target.found.id]? = some entry

variable {c : Config} {s t : State} {v : Value} {args : List Value} {f : FunctionRef}
  {entry : FunctionEntry} {sig : FunctionTy}

/-- A call that does not fail goes to a function. -/
theorem exists_runs_of_call {p : Progress .value} (h : call v args c s = .ok p t) :
    ∃ entry, Runs v args c s entry := by
  rw [call_eq_resolveCall] at h
  obtain ⟨target, u, hr, hinvoke⟩ := bind_eq_ok h
  obtain ⟨entry, w, he, -⟩ := bind_eq_ok hinvoke
  exact ⟨entry, target, u, hr, (of_function_eq_ok he).1⟩

namespace Runs

/-- The function is found in the overloads by its number. -/
theorem exists_of_calls (h : Runs v args c s entry) (hv : v.Calls f) :
    ∃ found table, (s.tables.table f.owner).resolve c.numerics.matcher f.name
        (args.map Value.argument) [] = .ok (some found, table) ∧
      s.functions[found.id]? = some entry := by
  obtain ⟨target, t, hr, he⟩ := h
  obtain ⟨g, tables, hg, rfl, hfunction⟩ := exists_of_resolveCall hr
  obtain rfl := hg.eq hv
  unfold CallTarget.ofFunction at hfunction
  split at hfunction
  · cases hfunction
  · cases hfunction
  · rename_i found table hfound
    cases hfunction
    exact ⟨found, table, hfound, he⟩

/-- The function that runs is an overload of the name. -/
theorem exists_overload (h : Runs v args c s entry) (hs : s.Filed) (hv : v.Calls f) :
    entry.name = f.name ∧ entry.owner = f.owner ∧
      ∃ o ∈ (s.tables.table f.owner).overloads f.name, o.type = entry.type := by
  obtain ⟨found, table, hfound, he⟩ := h.exists_of_calls hv
  obtain ⟨o, ho, hid⟩ :=
    (hs.recalls f.owner).exists_of_resolve (q := ⟨args.map Value.argument, []⟩) hfound
  obtain ⟨e, he', hname, howner, htype⟩ := (hs.files f.owner f.name o ho).entry
  rw [hid, he, Option.some.injEq] at he'
  subst he'
  exact ⟨hname, howner, o, ho, htype.symm⟩

/-- It has the type of the only overload of the name. -/
theorem type_eq_of_single (h : Runs v args c s entry) (hs : s.Filed) (hv : v.Calls f)
    (hsig : s.Offers f sig) (hone : ((s.tables.table f.owner).overloads f.name).length = 1) :
    entry.type = sig := by
  obtain ⟨-, -, o, ho, htype⟩ := h.exists_overload hs hv
  obtain ⟨p, hp, rfl⟩ := hsig
  obtain ⟨x, hx⟩ := List.length_eq_one_iff.mp hone
  rw [hx] at ho hp
  rw [← htype, List.mem_singleton.mp ho, List.mem_singleton.mp hp]

/-- It is the overload that takes the arguments without a cast, whatever else there is. -/
theorem type_eq_of_takesAsIs {doubled : Bool} (h : Runs v args c s entry) (hs : s.Filed)
    (hv : v.Calls f) (hsig : s.Offers f sig)
    (hfaithful : (s.tables.table f.owner).Faithful doubled c.numerics.matcher)
    (hargs : Signature.LegibleArgs doubled (args.map Value.argument))
    (htakes : c.numerics.matcher.TakesAsIs sig (args.map Value.argument)) : entry.type = sig := by
  obtain ⟨found, table, hfound, he⟩ := h.exists_of_calls hv
  obtain ⟨o, ho, rfl⟩ := hsig
  obtain ⟨actions, hactions, hcast⟩ := htakes
  obtain ⟨hsignature, e, he', -, -, htype⟩ := hs.files f.owner f.name o ho
  have hq : Query.Legible doubled ⟨args.map Value.argument, []⟩ := ⟨hargs, nofun⟩
  have hres := OverloadTable.resolution_resolve hfaithful f.name hq
  dsimp only at hres
  rw [hfound] at hres
  have htaken : o.match? c.numerics.matcher (.ofCall (args.map Value.argument)) [] =
      some ⟨o.id, o.type, actions⟩ := by
    have hroom : ([] : List Signature).length ≤ o.templateSlots := Nat.zero_le _
    rw [Overload.match?, if_pos hroom, hsignature, hactions]
    rfl
  have hcasts : FunctionMatch.casts ⟨o.id, o.type, actions⟩ = 0 := List.count_eq_zero.mpr hcast
  obtain rfl := Resolution.eq_of_castless hres ho htaken hcasts
  rw [he, Option.some.injEq] at he'
  rw [he', htype]

end Runs

theorem addressOf_apply {g : Value} (hty : g.ty = .function sig) (hdata : g.data = .function f)
    (ctx : OperatorContext) (heap : Heap) :
    Operator.addrOf.apply g none ctx heap =
      match (ctx.tables.table f.owner).single? f.name with
      | .error cause => .error ⟨.name cause, none⟩ heap
      | .ok none => .error ⟨.name (.undefined f.name), ctx.node⟩ heap
      | .ok (some (_, sig')) =>
        .ok (.fresh (.functionPointer sig') (.functionPointer (some f))) heap := by
  have happly : Operator.addrOf.apply g none = OperatorM.addressOfFunction g none := by
    simp only [Operator.apply, Operator.ofType?, hty]
  have hread (x : OperatorContext → OperatorM Value) : (read >>= x) ctx heap = x ctx ctx heap := rfl
  rw [happly, OperatorM.addressOfFunction]
  simp only [Option.isSome_none, Bool.false_eq_true, if_false, hdata, hread]
  rcases (ctx.tables.table f.owner).single? f.name with cause | _ | ⟨id, sig'⟩ <;> rfl

/-- The address of a function has the type of its only overload. -/
theorem offers_addressOf {g : Value} {heap heap' : Heap} (hty : g.ty = .function sig)
    (hdata : g.data = .function f)
    (h : Operator.addrOf.apply g none ⟨c.numerics, s.tables, s.cursor⟩ heap = .ok v heap') :
    ∃ sig', v.ty = .functionPointer sig' ∧ v.data = .functionPointer (some f) ∧
      s.Offers f sig' ∧ ((s.tables.table f.owner).overloads f.name).length = 1 := by
  rw [addressOf_apply hty hdata] at h
  split at h
  · cases h
  · cases h
  · rename_i id sig' hsingle
    cases h
    refine ⟨sig', rfl, rfl, ?_⟩
    have hsingle : (s.tables.table f.owner).single? f.name = .ok (some (id, sig')) := hsingle
    unfold OverloadTable.single? at hsingle
    cases hset : (s.tables.table f.owner).set? f.name with
    | none =>
      rw [hset] at hsingle
      cases hsingle
    | some set =>
      rw [hset] at hsingle
      unfold State.Offers
      rw [OverloadTable.overloads_of_set? hset]
      obtain ⟨overloads, answers⟩ := set
      rcases overloads with _ | ⟨o, _ | ⟨o', rest⟩⟩ <;> cases hsingle
      exact ⟨⟨o, List.mem_singleton_self o, rfl⟩, rfl⟩

/-- At any time in a run, a call through a pointer to a function, if it does not fail, goes to an
overload of the name that the pointer holds. This has the type of the pointer, if some overload
does, as long as it is the only one, or if it takes the arguments without a cast, whichever others
there are and as long as no answer is remembered for a wrong call. Some overload does if the pointer
is the address of a function, which had no other overload then, at any later time. A function of
another type is not accepted as an argument for a parameter of the type. -/
theorem call_of_functionPointer {console : Console} {files : FileSystem}
    (hs : ({ console, files } : State).Evolves c s) :
    (∀ (v : Value) (sig : FunctionTy) (f : FunctionRef) (args : List Value),
      v.ty = .functionPointer sig → v.data = .functionPointer (some f) →
      (∀ p t, call v args c s = .ok p t → ∃ entry, Runs v args c s entry) ∧
      ∀ entry, Runs v args c s entry →
        entry.name = f.name ∧ entry.owner = f.owner ∧ s.Offers f entry.type ∧
        (s.Offers f sig → ((s.tables.table f.owner).overloads f.name).length = 1 →
          entry.type = sig) ∧
        ∀ doubled, (s.tables.table f.owner).Faithful doubled c.numerics.matcher →
          Signature.LegibleArgs doubled (args.map Value.argument) → s.Offers f sig →
          c.numerics.matcher.TakesAsIs sig (args.map Value.argument) → entry.type = sig) ∧
    (∀ (g v : Value) (sig : FunctionTy) (f : FunctionRef) (heap : Heap),
      g.ty = .function sig → g.data = .function f →
      Operator.addrOf.apply g none ⟨c.numerics, s.tables, s.cursor⟩ s.heap = .ok v heap →
      ∃ sig', v.ty = .functionPointer sig' ∧ v.data = .functionPointer (some f) ∧
        ((s.tables.table f.owner).overloads f.name).length = 1 ∧
        ∀ t, s.Evolves c t → t.Offers f sig') ∧
    ∀ (m : Matcher) (callee sig g : FunctionTy) (args : List ArgSig) (actions : List ArgAction)
        (i : Nat) (a : ArgSig) (p : ParamTy),
      m.matchFunction (.ofCall args) (.ofFunction callee) [] = some actions →
      args[i]? = some a → callee.params[i]? = some p → p.ty = .functionPointer sig →
      (a.ty = .function g ∨ a.ty = .functionPointer g) →
      Ty.functionShape? g = Ty.functionShape? sig ∧
        (Ty.constNamedFunction g = true → Ty.constNamedFunction sig = true →
          Ty.decayedFunction g = Ty.decayedFunction sig) := by
  have hfiled := hs.filed (State.filed_start console files)
  refine ⟨fun v sig f args hty hdata => ⟨fun p t => exists_runs_of_call, fun entry h => ?_⟩,
    fun g v sig f heap hty hdata h => ?_,
    fun m callee sig g args actions i a p h ha hp hty hg => ?_⟩
  · have hv : v.Calls f := .inr ⟨sig, hty, hdata⟩
    obtain ⟨hname, howner, hoffers⟩ := h.exists_overload hfiled hv
    refine ⟨hname, howner, hoffers, h.type_eq_of_single hfiled hv, ?_⟩
    exact fun doubled hfaithful hargs hsig => h.type_eq_of_takesAsIs hfiled hv hsig hfaithful hargs
  · obtain ⟨sig', hty', hdata', hoffers, hone⟩ := offers_addressOf hty hdata h
    exact ⟨sig', hty', hdata', hone, fun t ht => hoffers.retained ht.retains⟩
  · have hshape := Matcher.functionShape?_of_matchFunction h ha hp hty hg
    exact ⟨hshape, fun hcg hcs => Ty.decayedFunction_eq_of_shape hcg hcs hshape⟩

/-- The declaration of a function `int f` with a parameter. -/
def declareF (parameter : String) : RunM (Option (Binding × Progress .value)) :=
  declareOne ⟨[], ["int"], default⟩ ⟨.mk default [] false (.named "f")
    [.params [.mk default ⟨[], [parameter], default⟩ (.mk default [] false .anonymous []) none]
      false], none⟩

/-- The type of `f` with a parameter. -/
def typeOfF (k : ArithKind) : FunctionTy := ⟨.int, [.plain (.arith k)], false⟩

/-- The state in which `f` takes an `int`. -/
def single : State := (declareF "int").after {} {}

/-- The state in which there is an `f` of `double`, too. -/
def overloaded : State := (declareF "double").after {} single

/-- The address of the first one. -/
def addressOfF : Value :=
  .fresh (.functionPointer (typeOfF .int)) (.functionPointer (some ⟨"f", .global, none⟩))

theorem evolves_single : ({} : State).Evolves {} single := .declarator _ _ .refl

theorem evolves_overloaded : single.Evolves {} overloaded := .declarator _ _ .refl

theorem addressOf_single :
    Operator.addrOf.apply (functionValue "f" (typeOfF .int)) none ⟨{}, single.tables, single.cursor⟩
      single.heap = .ok addressOfF single.heap := by
  rw [addressOf_apply rfl rfl]
  rfl

/-- A call goes to the function with the number that the table answers. -/
theorem runs_of_resolve {id : Nat} (hv : v.Calls f)
    (h : (((s.tables.table f.owner).resolve c.numerics.matcher f.name (args.map Value.argument)
      []).toOption.map fun answer => answer.1.map FunctionMatch.id) = some (some id))
    (he : s.functions[id]? = some entry) : Runs v args c s entry := by
  cases hr : (s.tables.table f.owner).resolve c.numerics.matcher f.name
      (args.map Value.argument) [] with
  | error cause =>
    rw [hr] at h
    cases h
  | ok answer =>
    obtain ⟨_ | found, table⟩ := answer <;> rw [hr] at h <;> cases h
    refine ⟨⟨f, found⟩, { s with tables := s.tables.put f.owner table }, ?_, he⟩
    rw [resolveCall_apply, CallTarget.resolve_of_calls hv, CallTarget.ofFunction]
    dsimp only
    rw [hr]

theorem calls_addressOfF : addressOfF.Calls ⟨"f", .global, none⟩ := .inr ⟨_, rfl, rfl⟩

theorem faithful_overloaded : (overloaded.tables.table .global).Faithful true
    ({} : Config).numerics.matcher := by
  have hsets : ((overloaded.tables.table .global).sets.all
      fun e => e.2.answers.isEmpty) = true := by decide +kernel
  intro name s hs text answer hanswer
  obtain ⟨before, after, hmem, -⟩ := List.lookup_eq_some_iff.mp hs
  have hempty := List.all_eq_true.mp hsets (name, s) (hmem ▸ List.mem_append_cons_self)
  rw [List.isEmpty_iff.mp hempty] at hanswer
  cases hanswer

/-- The second declaration leaves calls with an `int` where they are. -/
theorem call_of_functionPointer_int :
    ∃ entry, Runs addressOfF [.int .int 4] {} overloaded entry ∧ entry.type = typeOfF .int := by
  have hsingle := call_of_functionPointer (c := {}) evolves_single
  obtain ⟨sig, hsig, -, -, hoffers⟩ := hsingle.2.1 _ _ _ _ _ rfl rfl addressOf_single
  cases hsig
  have hoverloaded := call_of_functionPointer (evolves_single.trans evolves_overloaded)
  obtain ⟨entry, hentry⟩ : ∃ entry, overloaded.functions[0]? = some entry := ⟨_, rfl⟩
  have hruns : Runs addressOfF [.int .int 4] {} overloaded entry :=
    runs_of_resolve calls_addressOfF (by decide +kernel) hentry
  have hargs : ∀ a ∈ [(Value.int .int 4).argument], a.Plain ∧ a.ty.legible true = true := by
    intro a ha
    obtain rfl := List.mem_singleton.mp ha
    exact ⟨⟨rfl, nofun⟩, rfl⟩
  have htakes : ({} : Config).numerics.matcher.TakesAsIs (typeOfF .int)
      [(Value.int .int 4).argument] := by
    refine Matcher.takesAsIs_of_exact (fun a ha => (hargs a ha).1) ?_ (.cons rfl .nil)
    intro p hp
    obtain rfl := List.mem_singleton.mp hp
    exact ⟨rfl, rfl⟩
  obtain ⟨-, -, -, -, hexact⟩ := (hoverloaded.1 _ _ _ _ rfl rfl).2 entry hruns
  exact ⟨entry, hruns, hexact true faithful_overloaded (fun a ha => (hargs a ha).2)
    (hoffers _ evolves_overloaded) htakes⟩

/-- With a `double` the call goes to the second function, although the pointer is to functions of
`int`; and a pointer to functions of `double` becomes one to functions of `int` on the quiet. -/
theorem call_of_functionPointer_double :
    let x : Value := .fresh (.arith .double) (.float (.ofFloat 2.5))
    let other : Value := .fresh (.functionPointer (typeOfF .double)) addressOfF.data
    addressOfF.ty = .functionPointer (typeOfF .int) ∧ ({} : State).Evolves {} overloaded ∧
      (∃ entry, Runs addressOfF [x] {} overloaded entry ∧ entry.type = typeOfF .double) ∧
      OperatorM.convert other addressOfF.ty false ⟨{}, overloaded.tables, overloaded.cursor⟩
        overloaded.heap = .ok addressOfF overloaded.heap := by
  intro x other
  refine ⟨rfl, evolves_single.trans evolves_overloaded, ?_, ?_⟩
  · obtain ⟨entry, hentry⟩ : ∃ entry, overloaded.functions[1]? = some entry := ⟨_, rfl⟩
    refine ⟨entry, runs_of_resolve calls_addressOfF (by decide +kernel) hentry, ?_⟩
    cases hentry
    rfl
  · have hne : ¬ (other.ty == addressOfF.ty) = true := by decide +kernel
    unfold OperatorM.convert
    rw [if_neg hne]
    rfl

end RunM

end Stepwise
