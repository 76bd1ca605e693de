import Stepwise.Proofs.Closure.Invariants
import Stepwise.Proofs.Constants.Declarations

/-! # Refused definitions

A definition is refused for an earlier one in two cases. A variable is refused if the innermost
scope has its name, and a function if its overload is there and does not stand another
declaration. Names of types, struct types without methods and the values of initializers are
refused for other reasons only.
-/

namespace Stepwise

/-- The fault refuses a definition because of an earlier one. -/
def Fault.refuses (fault : Fault) : Bool := !fault.cause.isNew

theorem Fault.refuses_of_isCommon {fault : Fault} (h : fault.cause.isCommon = true) :
    fault.refuses = false := by
  rw [refuses, (Bool.and_eq_true_iff.mp h).2, Bool.not_true]

/-- The name that is bound to a value. -/
def Binding.name? : Binding → Option String
  | name x | reference x _ => some x
  | auto _ d => d.name?

namespace RunM

variable {α β : Type} {c : Config} {s t : State}

section Tolerant

/-- The computation refuses no definition. -/
def Tolerates (x : RunM α) : Prop :=
  ∀ c s fault t, x c s = .error fault t → fault.refuses = false

namespace Tolerates

theorem of_maintains {x : RunM α} {Q : α → Prop}
    (h : ∀ c, x.Maintains (fun _ => True) (fun fault => fault.refuses = false) c Q) :
    x.Tolerates :=
  fun c _ _ _ hx => ((h c).of_error trivial hx).2

theorem pure (a : α) : (pure a : RunM α).Tolerates := fun _ _ _ _ h => by cases h

theorem bind {x : RunM α} {f : α → RunM β} (hx : x.Tolerates) (hf : ∀ a, (f a).Tolerates) :
    (x >>= f).Tolerates := fun c s fault t h => by
  obtain h | ⟨a, u, -, h⟩ := bind_eq_error h
  · exact hx c s fault t h
  · exact hf a c u fault t h

theorem ask {x : ReadM α} (hx : ∀ U, ReadM.Closed U → U α x) : (ask x).Tolerates :=
  .of_maintains fun _ => .ask (fun _ => Fault.refuses_of_isCommon) hx

end Tolerates

theorem plain_tolerates (c : Config) : Plain fun _ x Q =>
    x.Maintains (fun _ => True) (fun fault => fault.refuses = false) c Q :=
  plain_maintains (fun _ => Fault.refuses_of_isCommon) (fun _ _ _ => trivial) fun _ _ => trivial

/-- Names of types are defined again and again. -/
theorem tolerates_defineTypedefs (decl : Declaration) : (defineTypedefs decl).Tolerates :=
  .of_maintains fun c => (plain_tolerates c).defineTypedefs_of_names
    (fun _ _ => .modify fun _ _ => trivial) decl

/-- A struct type without methods is defined again and again. -/
theorem tolerates_defineStructType (name : String) (fields : List MemberDecl) :
    (defineStructType name fields []).Tolerates := by
  have hdefine (d : StructTy) : (defineStruct d).Tolerates :=
    fun _ _ _ _ h => by cases h
  have hmembers : (structMembers name fields []).Tolerates :=
    .of_maintains fun c => (plain_tolerates c).structMembers name fields []
  exact .bind (hdefine _) fun _ => .bind hmembers fun _ => .bind (hdefine _) fun _ => .pure _

theorem tolerates_visit (e : Expr) (hint : Option StructTy) {k : Completion}
    (next : Frames .value k) : (visit e hint next).Tolerates :=
  .of_maintains fun c => (plain_tolerates c).visit e hint next

theorem tolerates_initialValue (name : String) (d : Declared) (init : Option Initializer) :
    (initialValue name d init).Tolerates := by
  refine .of_maintains fun c => (plain_tolerates c).initialValue (fun m => ?_) name d init
  have hT := plain_tolerates c
  refine hT.inspect_bind (fun _ _ => rfl) fun depth => hT.makeWithin (fun m => ?_) depth m
  exact fun _ _ => ⟨trivial, rfl⟩

/-- What a declarator does that declares no function: it fails, or its name waits for a value. -/
inductive Values (found : Option String) : RunM (Option (Binding × Progress .value)) → Prop
  | fault (fault : Fault) (h : fault.refuses = false) : Values found (throw fault)
  | value (binding : Binding) (x : RunM (Progress .value)) (hx : x.Tolerates)
    (hn : binding.name? = found) : Values found (do return some (binding, ← x))

theorem nameOf_eq {d : Declared} {name : String} (h : d.name = some name) (what : String) :
    nameOf d what c s = .ok name s := by
  rw [nameOf, h]
  rfl

theorem declareOne_function {spec : TypeSpec} {item : InitDeclarator} {D : Declared}
    {sig : FunctionTy} {name : String} (hauto : spec.isAuto = false)
    (hD : ReadM.declared spec item.declarator (c, s) = .ok D) (hty : D.type = .function sig)
    (hn : D.name = some name) :
    declareOne spec item c s = (do
      declarePrototype name sig D.params
      return none) c s := by
  rw [declareOne, hauto, if_neg Bool.false_ne_true, bind_ok (ask_ok hD), bind_ok (nameOf_eq hn _),
    hty]

/-- A declarator declares a function, or a name for a value. -/
theorem declareOne_apply (spec : TypeSpec) (item : InitDeclarator) (c : Config) (s : State) :
    (∃ y, Values item.declarator.name? y ∧ declareOne spec item c s = y c s) ∨
      spec.isAuto = false ∧ ∃ D sig name, ReadM.declared spec item.declarator (c, s) = .ok D ∧
        D.type = .function sig ∧ D.name = some name := by
  obtain ⟨d, init⟩ := item
  have hfail (cause : FaultCause) (h : cause.isCommon = true) :
      ∃ y, Values d.name? y ∧ (fail cause : RunM (Option (Binding × Progress .value))) c s = y c s :=
    ⟨_, .fault ⟨cause, s.cursor⟩ (Fault.refuses_of_isCommon h), rfl⟩
  unfold declareOne
  cases hauto : spec.isAuto with
  | true =>
    rw [if_pos rfl]
    cases init with
    | none => exact .inl (hfail _ rfl)
    | some init =>
      cases init with
      | expr e => exact .inl ⟨_, .value (.auto spec d) _ (tolerates_visit e none .nil) rfl, rfl⟩
      | list span items => exact .inl (hfail _ rfl)
  | false =>
    rw [if_neg Bool.false_ne_true]
    cases ha : ReadM.declared spec d (c, s) with
    | error fault =>
      have hf := ReadM.closed_common.declared spec d (c, s) fault ha
      have hask : ask (ReadM.declared spec d) c s = .error fault s := by rw [ask, ha]
      exact .inl ⟨_, .fault fault (Fault.refuses_of_isCommon hf), bind_error hask⟩
    | ok D =>
      rw [bind_ok (ask_ok ha)]
      cases hn : D.name with
      | none =>
        have hname : nameOf D "declarator" c s =
            .error ⟨.declaration (.missingName "declarator"), s.cursor⟩ s := by
          rw [nameOf, hn]
          rfl
        exact .inl ⟨_, .fault _ rfl, bind_error hname⟩
      | some name =>
        have hd : some name = d.name? := hn ▸ ReadM.name_of_declared ha
        rw [bind_ok (nameOf_eq hn _)]
        cases hty : D.type with
        | function sig => exact .inr ⟨rfl, D, sig, name, rfl, hty, hn⟩
        | _ =>
          refine .inl ?_
          cases hr : D.reference with
          | false => exact ⟨_, .value (.name name) _ (tolerates_initialValue name D init) hd, rfl⟩
          | true =>
            cases init with
            | none => exact hfail _ rfl
            | some init =>
              cases init with
              | expr e =>
                exact ⟨_, .value (.reference name D) _ (tolerates_visit e none .nil) hd, rfl⟩
              | list span items => exact hfail _ rfl

/-- A declarator is refused at once only if it declares a function. -/
theorem function_of_refused {spec : TypeSpec} {item : InitDeclarator} {fault : Fault}
    (h : declareOne spec item c s = .error fault t) (hf : fault.refuses = true) :
    spec.isAuto = false ∧ ∃ D sig,
      ReadM.declared spec item.declarator (c, s) = .ok D ∧ D.type = .function sig := by
  obtain ⟨y, hy, hone⟩ | ⟨hauto, D, sig, -, hD, hty, -⟩ := declareOne_apply spec item c s
  · rw [hone] at h
    cases hy with
    | fault fault hr =>
      cases h
      rw [hr] at hf
      cases hf
    | value binding x hx hn =>
      rw [Tolerates.bind hx (fun _ => .pure _) c s fault t h] at hf
      cases hf
  · exact ⟨hauto, D, sig, hD, hty⟩

/-- What is declared and waits for a value is no function. -/
theorem not_function_of_declareOne {spec : TypeSpec} {item : InitDeclarator}
    {r : Binding × Progress .value} (h : declareOne spec item c s = .ok (some r) t)
    (hauto : spec.isAuto = false) : ∃ D, ReadM.declared spec item.declarator (c, s) = .ok D ∧
      ∀ sig, D.type ≠ .function sig := by
  have hask := h
  rw [declareOne, hauto, if_neg Bool.false_ne_true] at hask
  obtain ⟨D, u, ha, hrest⟩ := bind_eq_ok hask
  obtain ⟨ha, rfl⟩ := ask_eq_ok ha
  obtain ⟨name, w, hn, -⟩ := bind_eq_ok hrest
  refine ⟨D, ha, fun sig hty => ?_⟩
  rw [declareOne_function hauto ha hty (nameOf_eq_ok hn).1] at h
  obtain ⟨_, v, -, hret⟩ := bind_eq_ok h
  cases hret

/-- What waits for a value has the name of its declarator. -/
theorem name_of_declareOne {spec : TypeSpec} {item : InitDeclarator} {binding : Binding}
    {p : Progress .value} (h : declareOne spec item c s = .ok (some (binding, p)) t) :
    binding.name? = item.declarator.name? := by
  obtain ⟨y, hy, hone⟩ | ⟨hauto, D, sig, name, hD, hty, hn⟩ := declareOne_apply spec item c s
  · rw [hone] at h
    cases hy with
    | fault fault hr => cases h
    | value binding' x hx hn =>
      obtain ⟨p', u, -, hp⟩ := bind_eq_ok h
      cases hp
      exact hn
  · rw [declareOne_function hauto hD hty hn] at h
    obtain ⟨a, u, -, hp⟩ := bind_eq_ok h
    cases hp

end Tolerant

section Naming

/-- The computation leaves the scopes as they are, and refuses no definition. -/
def Prepares (x : RunM α) : Prop := ∀ c s,
  match x c s with
  | .ok _ t => t.scopes = s.scopes
  | .error fault _ => fault.refuses = false

/-- The computation gives a name to a cell, and refuses to if the innermost scope has the name. -/
def Names (found : Option String) (x : RunM Unit) (c : Config) (s : State) : Prop :=
  match x c s with
  | .ok _ t => ∃ name p, found = some name ∧ s.scopes.define? name p = some t.scopes
  | .error fault _ => fault.refuses = true →
    ∃ name, found = some name ∧ s.scopes.current.contains name = true

theorem prepares_onHeap (x : HeapM α) : (onHeap x).Prepares := fun _ _ => rfl

theorem prepares_copy (v : Value) (ty : Ty) : (operate (OperatorM.copy v ty)).Prepares := by
  intro c s
  have ht : (operate (OperatorM.copy v ty)).Tolerates :=
    .of_maintains fun c => (plain_tolerates c).copy v ty
  cases h : operate (OperatorM.copy v ty) c s with
  | error fault t => exact ht c s fault t h
  | ok a t =>
    unfold operate at h
    dsimp only at h
    split at h <;> cases h
    rfl

theorem prepares_ask {x : ReadM α} (hx : ∀ U, ReadM.Closed U → U α x) : (ask x).Prepares := by
  intro c s
  have ht := Tolerates.ask hx
  cases h : ask x c s with
  | error fault t => exact ht c s fault t h
  | ok a t => rw [(ask_eq_ok h).2]

theorem prepares_nameOf (d : Declared) (what : String) : (nameOf d what).Prepares := by
  intro c s
  have ht : (nameOf d what).Tolerates := .of_maintains fun c => (plain_tolerates c).nameOf d what
  cases h : nameOf d what c s with
  | error fault t => exact ht c s fault t h
  | ok a t => rw [(nameOf_eq_ok h).2]

namespace Names

variable {found : Option String}

theorem declare (name : String) (p : Place) : (declare name p).Names (some name) c s := by
  unfold Names
  rw [declare_apply]
  cases hd : s.scopes.define? name p with
  | some scopes => exact ⟨name, p, rfl, hd⟩
  | none =>
    refine fun _ => ⟨name, rfl, ?_⟩
    unfold Scopes.define? at hd
    split at hd
    · assumption
    · split at hd <;> cases hd

/-- What is done before a name is given. -/
theorem after {x : RunM α} {f : α → RunM Unit} (hx : x.Prepares)
    (hf : ∀ a t, x c s = .ok a t → (f a).Names found c t) : (x >>= f).Names found c s := by
  have hx := hx c s
  unfold Names
  cases h : x c s with
  | error fault t =>
    rw [h] at hx
    rw [bind_error h]
    intro hr
    rw [hx] at hr
    cases hr
  | ok a t =>
    rw [h] at hx
    have hf := hf a t h
    unfold Names at hf
    rw [bind_ok h, ← hx]
    exact hf

theorem fail {cause : FaultCause} (h : cause.isCommon = true) :
    (fail cause : RunM Unit).Names found c s := by
  intro hr
  rw [Fault.refuses_of_isCommon h] at hr
  cases hr

theorem defineVariable (name : String) (v : Value) :
    (defineVariable name v).Names (some name) c s :=
  .after (prepares_onHeap _) fun p _ _ => .declare name p

theorem copied (name : String) (v : Value) (ty : Ty) (readonly : Bool) :
    (do RunM.defineVariable name ((← operate (OperatorM.copy v ty)).withReadonly readonly)).Names
      (some name) c s :=
  .after (prepares_copy v ty) fun _ _ _ => .defineVariable name _

theorem bindReference (name : String) (d : Declared) (v : Value) :
    (bindReference name d v).Names (some name) c s := by
  have htext : (RunM.text v).Prepares := fun _ _ => rfl
  unfold RunM.bindReference
  split
  · exact .declare name _
  · split
    · exact .copied name v d.type true
    · exact .after htext fun _ _ _ => .fail rfl

/-- What is declared has the name of its declarator. -/
theorem bind (binding : Binding) (v : Value) :
    (RunM.bind binding v).Names binding.name? c s := by
  cases binding with
  | name name => exact .defineVariable name v
  | reference name d => exact .bindReference name d v
  | auto spec d =>
    refine .after (prepares_ask fun _ hU => hU.declarator _ _ d) fun D t hd => ?_
    refine .after (prepares_nameOf D _) fun name u hn => ?_
    have hname : d.name? = some name := by
      rw [← ReadM.name_of_declarator _ _ d (ask_eq_ok hd).1, (nameOf_eq_ok hn).1]
    rw [Binding.name?, hname]
    split
    · exact .bindReference name D v
    · exact .copied name v D.type D.readonly

end Names

end Naming

end RunM

end Stepwise
