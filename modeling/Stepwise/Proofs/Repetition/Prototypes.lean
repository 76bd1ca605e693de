import Stepwise.Proofs.Operator.Layout
import Stepwise.Proofs.Overload.Registry
import Stepwise.Proofs.Repetition.Refusals
import Stepwise.Proofs.Session.Evolution

/-! # Prototypes

A run only adds overloads behind those that are there, and an overload keeps its type. A
prototype that was accepted finds its overload ever after, and is accepted again as long as its
words mean the same types.
-/

namespace Stepwise

namespace Signature

mutual

/-- A signature does not tell the members of structs. -/
theorem ofType_named : ∀ t : Ty, ofType t.named = ofType t
  | .pointer a _ => by simp only [Ty.named, ofType, ofType_named a]
  | .array a _ => by simp only [Ty.named, ofType, ofType_named a]
  | .functionPointer f => by simp only [Ty.named, ofType, ofFunctionType_named f]
  | .function f => by simp only [Ty.named, ofType, ofFunctionType_named f]
  | .struct .. | .void | .marker | .arith _ => rfl

theorem ofFunctionType_named : ∀ f : FunctionOf Ty,
    ofFunctionType (Ty.namedFunction f) = ofFunctionType f
  | ⟨ret, params, _⟩ => by
    simp only [Ty.namedFunction, ofFunctionType, ofType_named ret, ofParams_named params]

theorem ofParams_named : ∀ ps : List (ParamOf Ty), ofParams (Ty.namedParams ps) = ofParams ps
  | [] => rfl
  | p :: ps => by simp only [Ty.namedParams, ofParams, ofParam_named p, ofParams_named ps]

theorem ofParam_named : ∀ p : ParamOf Ty, ofParam (Ty.namedParam p) = ofParam p
  | ⟨ty, _, _, _⟩ => by simp only [Ty.namedParam, ofParam, ofType_named ty]

end

theorem ofFunction_congr {f g : FunctionTy} (h : Ty.namedFunction f = Ty.namedFunction g) :
    ofFunction f = ofFunction g := by
  obtain ⟨ret, params, variadic⟩ := f
  obtain ⟨ret', params', variadic'⟩ := g
  obtain ⟨-, hp, rfl⟩ := FunctionOf.mk.inj h
  simp only [ofFunction, ← ofParams_named params, ← ofParams_named params', hp]

end Signature

namespace State

variable {s t u : State} {c : Config}

/-- Overloads were added behind those that were there, and entries kept their types. -/
structure Retains (t s : State) : Prop extends t.Continues s where
  order : ∀ owner name,
    (s.tables.table owner).overloads name <+: (t.tables.table owner).overloads name

namespace Retains

theorem trans (hu : u.Retains t) (ht : t.Retains s) : u.Retains s :=
  ⟨hu.toContinues.trans ht.toContinues, fun owner name =>
    (ht.order owner name).trans (hu.order owner name)⟩

theorem of_eq (ht : t.tables = s.tables) (hf : t.functions = s.functions) : t.Retains s :=
  ⟨⟨fun _ _ _ ho => ht ▸ ho, fun _ e he => ⟨e, hf ▸ he, .refl e⟩⟩, fun _ _ =>
    ht ▸ List.prefix_refl _⟩

theorem refl (s : State) : s.Retains s := .of_eq rfl rfl

theorem stays (h : t.Retains s) (ht : u.tables = t.tables) (hf : u.functions = t.functions) :
    u.Retains s := (of_eq ht hf).trans h

theorem of_serves {m : Matcher} {owner : Owner} {r : TableRequest} (h : Serves m owner r s t)
    (hentry : ∀ (id : Nat) (e : FunctionEntry),
      s.functions[id]? = some e → t.functions[id]? = some e) : t.Retains s where
  toContinues := h.continues hentry
  order other name := by
    rw [h.overloads]
    split
    · rename_i ho
      rw [ho]
      cases r with
      | resolve => exact List.prefix_refl _
      | add name' type id slots =>
        rw [TableRequest.declare]
        split
        · rename_i hn
          rw [hn.1]
          exact List.prefix_append _ _
        · exact List.prefix_refl _
    · exact List.prefix_refl _

theorem register (entry : FunctionEntry) (c : Config) (s : State) :
    ((RunM.register entry).after c s).Retains s := by
  cases h : RunM.register entry c s with
  | ok a t =>
    rw [RunM.after_ok h]
    obtain ⟨id, hc⟩ | ⟨table, hadd, rfl⟩ := RunM.register_eq_ok h
    · obtain rfl | ⟨existing, hid, hproto, rfl⟩ := RunM.complete_eq_ok hc
      · exact .refl _
      · exact ⟨continues_completed hid hproto, fun _ _ => List.prefix_refl _⟩
    · refine .of_serves (serves_register (m := c.numerics.matcher) hadd) fun id e he => ?_
      obtain ⟨hi, he⟩ := Array.getElem?_eq_some_iff.mp he
      rw [Array.getElem?_push_lt hi, he]
  | error fault t =>
    rw [RunM.after_error h, RunM.register_eq_error h]
    exact .refl s

theorem resolveCall (f : Value) (args : List Value) (c : Config) (s : State) :
    ((RunM.resolveCall f args).after c s).Retains s := by
  have hresolve {target : CallTarget} {tables : OwnerTables}
      (h : CallTarget.resolve ⟨c.numerics, s.tables, s.cursor⟩ s.heap f (args.map Value.argument) [] =
        .ok (target, tables)) : { s with tables }.Retains s := by
    have hf {g : FunctionRef} (h : CallTarget.ofFunction ⟨c.numerics, s.tables, s.cursor⟩ g
        (args.map Value.argument) [] = .ok (target, tables)) : { s with tables }.Retains s :=
      .of_serves (serves_call h) fun _ _ he => he
    unfold CallTarget.resolve at h
    split at h
    · exact hf h
    · exact hf h
    all_goals cases h
  have happly := RunM.resolveCall_apply f args c s
  cases h : CallTarget.resolve ⟨c.numerics, s.tables, s.cursor⟩ s.heap f
      (args.map Value.argument) [] with
  | error fault =>
    rw [h] at happly
    rw [RunM.after_error happly]
    exact .refl s
  | ok found =>
    rw [h] at happly
    rw [RunM.after_ok happly]
    exact hresolve h

end Retains

end State

namespace RunM

open State

variable {c : Config} {s t : State}

theorem maintains_of_after {α : Type} {x : RunM α} {s₀ : State}
    (h : ∀ s, (x.after c s).Retains s) :
    x.Maintains (Retains · s₀) (fun _ => True) c fun _ => True := by
  intro s hs
  have h := h s
  cases hx : x c s with
  | ok a t => exact ⟨(after_ok hx ▸ h).trans hs, trivial⟩
  | error fault t => exact ⟨(after_error hx ▸ h).trans hs, trivial⟩

theorem invariant_retains (c : Config) (s₀ : State) :
    Invariant (Retains · s₀) (fun _ => True) c where
  raises _ _ := trivial
  orAt _ := trivial
  change hh _ hs := hs.stays (hh.tables _) (hh.functions _)
  alloc _ hs := hs.stays rfl rfl
  write _ hs := hs.stays rfl rfl
  register entry := maintains_of_after fun s => .register entry c s
  resolveCall f args := maintains_of_after fun s => .resolveCall f args c s
  nameArith _ _ := .modify fun _ hs => hs.stays rfl rfl
  defineTypedefs := (sequential_maintains fun _ _ => trivial).defineTypedefs_of_names fun _ _ =>
    .modify fun _ hs => hs.stays rfl rfl

end RunM

namespace State

variable {s t : State} {c : Config} {name : String} {sig sig' : FunctionTy}

/-- No function is lost in a run. -/
theorem Evolves.retains (h : s.Evolves c t) : t.Retains s :=
  h.maintained (RunM.closed_maintains (RunM.invariant_retains c s) fun _ hs => hs.stays rfl rfl)
    (fun _ hs => hs.stays rfl rfl) (fun _ hs => hs.stays rfl rfl) (.refl s)

/-- The overload that a global function would complete is there, and has its return type. -/
def Knows (s : State) (name : String) (sig : FunctionTy) : Prop :=
  ∃ id e, (s.tables.table .global).declared? name sig = some id ∧ s.functions[id]? = some e ∧
    e.type.ret.named = sig.ret.named

theorem Knows.retained (h : s.Knows name sig) (ht : t.Retains s) : t.Knows name sig := by
  obtain ⟨id, e, hd, he, hr⟩ := h
  obtain ⟨e', he', hc⟩ := ht.entry id e he
  refine ⟨id, e', ?_, he', hc.type ▸ hr⟩
  rw [OverloadTable.declared?_eq, Option.map_eq_some_iff] at hd ⊢
  obtain ⟨o, ho, rfl⟩ := hd
  exact ⟨o, (ht.order .global name).find?_eq_some ho, rfl⟩

theorem Knows.congr (h : s.Knows name sig) (hn : Ty.namedFunction sig' = Ty.namedFunction sig) :
    s.Knows name sig' := by
  obtain ⟨id, e, hd, he, hr⟩ := h
  refine ⟨id, e, ?_, he, ?_⟩
  · rwa [OverloadTable.declared?_eq, Signature.ofFunction_congr hn, ← OverloadTable.declared?_eq]
  · obtain ⟨ret, params, variadic⟩ := sig
    obtain ⟨ret', params', variadic'⟩ := sig'
    exact hr.trans (FunctionOf.mk.inj hn).1.symm

end State

namespace RunM

open State

variable {c : Config} {s t u : State} {name : String} {sig : FunctionTy}
  {params : List ParamInfo} {spec : TypeSpec} {item : InitDeclarator} {D D' : Declared}

theorem register_known (h : s.Knows name sig) (params : List ParamInfo) (c : Config) :
    register ⟨name, .global, sig, params, .prototype⟩ c s = .ok () s := by
  obtain ⟨id, e, hd, he, hr⟩ := h
  have hret : (e.type.ret == sig.ret) = true := Ty.beq_iff_named.mpr hr
  rw [register_eq]
  dsimp only
  rw [hd, registerAs, complete, bind_ok (function_eq he c), hret]
  cases e.body <;> rfl

theorem knows_of_register
    (h : register ⟨name, .global, sig, params, .prototype⟩ c s = .ok () t) : t.Knows name sig := by
  rw [register_eq] at h
  dsimp only at h
  cases hd : (s.tables.table .global).declared? name sig with
  | some id =>
    rw [hd, registerAs, complete] at h
    obtain ⟨e, u, hf, hrest⟩ := bind_eq_ok h
    obtain ⟨he, rfl⟩ := of_function_eq_ok hf
    cases hret : e.type.ret == sig.ret with
    | false =>
      rw [hret] at hrest
      cases hrest
    | true =>
      rw [hret] at hrest
      cases hb : e.body <;> rw [hb] at hrest <;> cases hrest
      all_goals exact ⟨id, e, hd, he, Ty.beq_iff_named.mp hret⟩
  | none =>
    rw [hd, registerAs] at h
    dsimp only at h
    rw [OverloadTable.add_eq] at h
    by_cases hnew : ∀ o ∈ (s.tables.table .global).overloads name,
        o.signature.text ≠ (Signature.ofFunction sig).text
    · rw [if_pos hnew] at h
      cases h
      refine ⟨s.functions.size, _, ?_, Array.getElem?_push_size, rfl⟩
      rw [OwnerTables.table_put, beq_self_eq_true, if_pos rfl, OverloadTable.declared?_eq,
        OverloadTable.overloads_put, beq_self_eq_true, if_pos rfl, List.find?_append,
        List.find?_eq_none.mpr fun o ho => by simpa using hnew o ho]
      simp
    · rw [if_neg hnew] at h
      cases h

theorem knows_of_declarePrototype (h : declarePrototype name sig params c s = .ok () t) :
    t.Knows name sig := by
  obtain ⟨a, u, hr, hd⟩ := bind_eq_ok h
  cases hd
  exact (knows_of_register hr).retained (.of_eq rfl rfl)

/-- A function that is declared is declared again. -/
theorem declarePrototype_known (h : s.Knows name sig) (params : List ParamInfo) (c : Config) :
    ∃ t, declarePrototype name sig params c s = .ok () t :=
  ⟨_, (bind_ok (register_known h params c)).trans rfl⟩

/-- Nothing is left to do for a prototype. -/
theorem prototype_of_declareOne (h : declareOne spec item c s = .ok none t) :
    spec.isAuto = false ∧ ∃ D sig name, ReadM.declared spec item.declarator (c, s) = .ok D ∧
      D.type = .function sig ∧ D.name = some name ∧
      declarePrototype name sig D.params c s = .ok () t := by
  obtain ⟨y, hy, hone⟩ | ⟨hauto, D, sig, name, hD, hty, hn⟩ := declareOne_apply spec item c s
  · rw [hone] at h
    cases hy with
    | fault fault hr => cases h
    | value binding x hx hn =>
      obtain ⟨p, u, -, hp⟩ := bind_eq_ok h
      cases hp
  · rw [declareOne_function hauto hD hty hn] at h
    obtain ⟨a, u, hp, hret⟩ := bind_eq_ok h
    cases hret
    exact ⟨hauto, D, sig, name, hD, hty, hn, hp⟩

/-- A prototype that was accepted is accepted again, if it means the same types. -/
theorem prototype_again (h : declareOne spec item c s = .ok none t) (hu : t.Evolves c u)
    (hD : ReadM.declared spec item.declarator (c, s) = .ok D)
    (hD' : ReadM.declared spec item.declarator (c, u) = .ok D')
    (hn : D'.type.named = D.type.named) : ∃ v, declareOne spec item c u = .ok none v := by
  obtain ⟨hauto, D₀, sig, name, hD₀, hty, hname, hp⟩ := prototype_of_declareOne h
  cases hD.symm.trans hD₀
  have hname' : D'.name = some name := by
    rw [ReadM.name_of_declared hD', ← ReadM.name_of_declared hD, hname]
  rw [hty] at hn
  cases hty' : D'.type with
  | function sig' =>
    rw [hty'] at hn
    have hknown := ((knows_of_declarePrototype hp).retained hu.retains).congr (Ty.function.inj hn)
    obtain ⟨v, hv⟩ := declarePrototype_known hknown D'.params c
    exact ⟨v, (declareOne_function hauto hD' hty' hname').trans (bind_ok hv)⟩
  | _ =>
    rw [hty'] at hn
    cases hn

end RunM

end Stepwise
