import Stepwise.Machine.Loop
import Stepwise.Proofs.Closure.Drives
import Stepwise.Proofs.Closure.Frames
import Stepwise.Proofs.Constants.Objects
import Stepwise.Proofs.Operator.Results

/-! # Arguments for constant parameters

A copy of a value has no cell until a name is bound to it. So an argument that is not shared
takes the constness of its parameter, and not that of the cell it was read from.
-/

namespace Stepwise

namespace RunM

variable {c : Config} {s t : State}

/-- A copy of its own for a parameter, as constant as the parameter. -/
structure IsArgument (param : ParamTy) (v : Value) : Prop where
  readonly : v.readonly = param.readonly
  detached : v.Detached

theorem operate_copy {v w : Value} {ty : Ty}
    (h : operate (OperatorM.copy v ty) c s = .ok w t) : w.Detached := by
  obtain ⟨heap, hx, -⟩ := operate_eq_ok h
  exact (OperatorM.converted_of_copy hx).detached

/-- What is bound to a parameter is a copy of the type of the parameter, unless it is shared. -/
theorem boundArguments_copied {vs bound : List Value} {actions : List ArgAction}
    {params : List ParamTy} (h : boundArguments vs actions params c s = .ok bound t) {i : Nat}
    {v : Value} {param : ParamTy} (hv : bound[i]? = some v) (hp : params[i]? = some param)
    (ha : actions[i]? ≠ some .share) :
    ∃ copied : Value, copied.Converted param.ty ∧ v = copied.withReadonly param.readonly := by
  induction vs generalizing actions params bound i s with
  | nil =>
    cases h
    cases hv
  | cons first vs ih =>
    -- The first value is bound, and then the others, whatever it is bound as.
    have hrest (w : Value) {u : State}
        (hw : i = 0 → ∃ copied : Value, copied.Converted param.ty ∧
          w = copied.withReadonly param.readonly)
        (h : (do return w :: (← boundArguments vs actions.tail params.tail)) c u = .ok bound t) :
        ∃ copied : Value, copied.Converted param.ty ∧ v = copied.withReadonly param.readonly := by
      obtain ⟨ws, u', hws, h⟩ := bind_eq_ok h
      cases h
      cases i with
      | zero =>
        cases hv
        exact hw rfl
      | succ i => exact ih hws hv (by rwa [List.getElem?_tail]) (by rwa [List.getElem?_tail])
    unfold boundArguments at h
    cases params with
    | nil => cases hp
    | cons p ps =>
      dsimp only at h
      split at h
      · refine hrest first (fun hi => absurd ?_ ha) h
        subst hi
        cases actions <;> simp_all
      · obtain ⟨copied, u, hcopy, h⟩ := bind_eq_ok h
        obtain ⟨heap, hx, -⟩ := operate_eq_ok hcopy
        refine hrest (copied.withReadonly p.readonly) (fun hi => ?_) h
        subst hi
        cases hp
        exact ⟨copied, OperatorM.converted_of_copy hx, rfl⟩

theorem boundArguments_isArgument {vs bound : List Value} {actions : List ArgAction}
    {params : List ParamTy} (h : boundArguments vs actions params c s = .ok bound t) {i : Nat}
    {v : Value} {param : ParamTy} (hv : bound[i]? = some v) (hp : params[i]? = some param)
    (ha : actions[i]? ≠ some .share) : IsArgument param v := by
  obtain ⟨copied, hcopied, rfl⟩ := boundArguments_copied h hv hp ha
  exact ⟨rfl, hcopied.detached⟩

end RunM

end Stepwise

/-! ## Constant names

A name that is declared constant stands for a constant cell, whether a declaration, a loop or a
call declares it. Only a reference stands for the cell that it is bound to, whatever that is.
-/

namespace Stepwise

open RunM

namespace Scopes

variable {α : Type} {s t : Scopes α} {name : String} {a : α}

theorem current_mem_visible (s : Scopes α) : ∃ rest, s.visible = s.current :: rest := by
  unfold visible current
  cases s.inner with
  | nil => exact ⟨[], rfl⟩
  | cons scope rest => exact ⟨_, rfl⟩

/-- The innermost scope is where a name is looked up first. -/
theorem lookup_of_current (h : s.current.get? name = some a) : s.lookup name = some a := by
  obtain ⟨rest, hrest⟩ := current_mem_visible s
  rw [lookup, hrest, List.findSome?_cons, h]

theorem get?_current_define? (h : s.define? name a = some t) : t.current.get? name = some a := by
  unfold define? at h
  split at h
  · cases h
  · rename_i hnew
    have hadd : (s.current.add name a).get? name = some a := by
      have hnone : s.current.get? name = none := by
        simpa only [Scope.contains, Bool.not_eq_true, Option.isSome_eq_false_iff,
          Option.isNone_iff_eq_none] using hnew
      unfold Scope.get? at hnone
      simp [Scope.add, Scope.get?, List.lookup_append, hnone]
    have hcurrent : t.current = s.current.add name a := by
      unfold current
      split at h <;> · cases h; simp_all
    rw [hcurrent, hadd]

/-- A name that was just declared stands for what it was declared as. -/
theorem lookup_define? (h : s.define? name a = some t) : t.lookup name = some a :=
  lookup_of_current (get?_current_define? h)

end Scopes

/-- The name stands for a constant cell; if it is to be an array, its elements are constant, too. -/
def State.NamesConstant (s : State) (name : String) (isArray : Bool) : Prop :=
  ∃ p v, s.lookup name = some p ∧ s.load? p = some v ∧ v.readonly = true ∧
    (isArray = true → s.heap.ConstantTargets v)

/-- A declared variable, which is constant and no reference. -/
structure Declared.IsConstant (d : Declared) (name : String) : Prop where
  name : d.name = some name
  readonly : d.readonly = true
  reference : d.reference = false
  object : ∀ sig, d.type ≠ .function sig

namespace RunM

variable {c : Config} {s t : State} {name : String} {isArray : Bool}

theorem declare_eq_ok {p : Place} {a : Unit} (h : declare name p c s = .ok a t) :
    ∃ scopes, s.scopes.define? name p = some scopes ∧ t = { s with scopes } := by
  rw [declare_apply] at h
  cases hd : s.scopes.define? name p with
  | some scopes =>
    rw [hd] at h
    cases h
    exact ⟨scopes, rfl, rfl⟩
  | none =>
    rw [hd] at h
    cases h

/-- A name that is declared for a constant cell. -/
theorem namesConstant_of_declare {p : Place} {a : Unit} (hp : s.heap.Constant p)
    (h : declare name p c s = .ok a t) : t.NamesConstant name false := by
  obtain ⟨scopes, hd, rfl⟩ := declare_eq_ok h
  obtain ⟨v, hv, hr⟩ := hp
  refine ⟨p, v, ?_, hv, hr, nofun⟩
  rw [State.lookup, Scopes.lookup_define? hd]
  rfl

/-- A variable of its own is a new cell. -/
theorem defineVariable_eq_ok {v : Value} {a : Unit} (h : defineVariable name v c s = .ok a t) :
    ∃ scopes, s.scopes.define? name (.slot s.heap.blocks.size) = some scopes ∧
      t = { s with scopes, heap := (s.heap.alloc #[v]).2 } := by
  obtain ⟨p, u, hp, h⟩ := bind_eq_ok h
  cases hp
  exact declare_eq_ok h

theorem load?_new_slot (h : Heap) (v : Value) : (h.alloc #[v]).2.load? (.slot h.blocks.size) =
    some { v with place := some (.slot h.blocks.size) } := by
  have hcells : (h.alloc #[v]).2.cells h.blocks.size = #[v] := by
    rw [Heap.cells_alloc, if_pos rfl]
  rw [Heap.load?, Place.slot, hcells]
  rfl

/-- A variable of its own for a constant object. -/
theorem namesConstant_of_defineVariable {v : Value} {a : Unit}
    (hv : (Progress.done v).Builds isArray s.heap) (h : defineVariable name v c s = .ok a t) :
    t.NamesConstant name isArray := by
  obtain ⟨scopes, hd, rfl⟩ := defineVariable_eq_ok h
  refine ⟨.slot s.heap.blocks.size, { v with place := some (.slot s.heap.blocks.size) }, ?_,
    load?_new_slot s.heap v, hv.1, fun ha => ?_⟩
  · rw [State.lookup, Scopes.lookup_define? hd]
    rfl
  · have ht := (Heap.KeepsConstants.alloc s.heap #[v]).constantTargets (hv.2 ha)
    exact ⟨ht.elements, ht.target⟩

theorem namesConstant_of_readonly {v : Value} {a : Unit} (hr : v.readonly = true)
    (h : defineVariable name v c s = .ok a t) : t.NamesConstant name false :=
  namesConstant_of_defineVariable ⟨hr, nofun⟩ h

/-- A constant copy of a value. -/
theorem namesConstant_of_copy {v : Value} {ty : Ty} {a : Unit} {readonly : Bool}
    (hr : readonly = true)
    (h : (do defineVariable name ((← operate (OperatorM.copy v ty)).withReadonly readonly)) c s =
      .ok a t) : t.NamesConstant name false := by
  obtain ⟨copied, u, -, h⟩ := bind_eq_ok h
  exact namesConstant_of_readonly hr h

/-- A constant reference is an alias of a constant cell, or has a constant copy for its cell. -/
theorem namesConstant_of_bindReference {d : Declared} {v : Value} {a : Unit}
    (hd : d.readonly = true) (hv : ∀ p, v.place = some p → s.heap.Constant p)
    (h : bindReference name d v c s = .ok a t) : t.NamesConstant name false := by
  have hcopy : ∀ {x : RunM Unit}, (if d.readonly then do
        defineVariable name ((← operate (OperatorM.copy v d.type)).withReadonly true)
      else x) c s = .ok a t → t.NamesConstant name false := by
    intro x h
    rw [if_pos hd] at h
    exact namesConstant_of_copy rfl h
  unfold bindReference at h
  cases hp : v.place with
  | none =>
    rw [hp] at h
    exact hcopy h
  | some p =>
    rw [hp] at h
    cases hs : v.ty.sameShape d.type with
    | true =>
      rw [hs] at h
      exact namesConstant_of_declare (hv p hp) h
    | false =>
      rw [hs] at h
      exact hcopy h

/-- What a declarator declares has the name and is constant, and what a reference is bound to has
no cell or a constant one. -/
def DeclaresConstant (c : Config) (s : State) (name : String) (spec : TypeSpec) (d : Declarator)
    (v : Value) : Prop :=
  ∀ base declared, ReadM.declarator base spec.isConst d (c, s) = .ok declared →
    declared.name = some name ∧ declared.readonly = true ∧
      (declared.reference = true → ∀ p, v.place = some p → s.heap.Constant p)

/-- The ways in which names are bound to objects that are to be constant. -/
inductive BindsConstant (c : Config) (s : State) (name : String) : RunM Unit → Prop
  | object {v : Value} (hr : v.readonly = true) : BindsConstant c s name (defineVariable name v)
  | reference {d : Declared} {v : Value} (hd : d.readonly = true)
    (hv : ∀ p, v.place = some p → s.heap.Constant p) :
    BindsConstant c s name (bindReference name d v)
  | auto {spec : TypeSpec} {d : Declarator} {v : Value}
    (hd : DeclaresConstant c s name spec d v) : BindsConstant c s name (bindAuto spec d v)
  | element {spec : TypeSpec} {d : Declarator} {v : Value}
    (hd : DeclaresConstant c s name spec d v) : BindsConstant c s name (bindElement spec d v)
  | parameter {param : ParamTy} {v : Value} (hr : param.readonly = true)
    (hv : IsArgument param v) : BindsConstant c s name (bindParameter (some name) v)
  /-- A reference parameter for a constant argument. -/
  | shared {v : Value} {p : Place} (hv : v.place = some p) (hp : s.heap.Constant p) :
    BindsConstant c s name (bindParameter (some name) v)

theorem ask_eq_ok {α : Type} {x : ReadM α} {a : α} (h : ask x c s = .ok a t) :
    x (c, s) = .ok a ∧ t = s := by
  unfold ask at h
  split at h
  · cases h
    exact ⟨‹_›, rfl⟩
  · cases h

theorem nameOf_eq_ok {d : Declared} {what : String} {x : String}
    (h : nameOf d what c s = .ok x t) : d.name = some x ∧ t = s := by
  unfold nameOf at h
  cases hd : d.name with
  | some name =>
    rw [hd] at h
    cases h
    exact ⟨rfl, rfl⟩
  | none =>
    rw [hd] at h
    cases h

/-- What a declarator declares is bound, as a reference or as a variable of its own. -/
theorem namesConstant_of_declarator {base : Ty} {spec : TypeSpec} {d : Declarator} {v : Value}
    {what : String} {a : Unit} (hd : DeclaresConstant c s name spec d v)
    (h : (do
      let declared ← ask (ReadM.declarator base spec.isConst d)
      let name ← nameOf declared what
      if declared.reference then bindReference name declared v
      else
        defineVariable name
          ((← operate (OperatorM.copy v declared.type)).withReadonly declared.readonly)) c s =
      .ok a t) : t.NamesConstant name false := by
  obtain ⟨declared, u, ha, hask⟩ := bind_eq_ok h
  obtain ⟨ha, rfl⟩ := ask_eq_ok ha
  obtain ⟨x, w, hx, hbind⟩ := bind_eq_ok hask
  obtain ⟨hx', rfl⟩ := nameOf_eq_ok hx
  obtain ⟨hname, hr, halias⟩ := hd base declared ha
  obtain rfl : x = name := Option.some.inj (hx'.symm.trans hname)
  split at hbind
  · exact namesConstant_of_bindReference hr (halias ‹_›) hbind
  · exact namesConstant_of_copy hr hbind

/-- However a name is bound to an object that is to be constant, it stands for a constant cell. -/
theorem BindsConstant.namesConstant {x : RunM Unit} (hx : BindsConstant c s name x) {a : Unit}
    (h : x c s = .ok a t) : t.NamesConstant name false := by
  cases hx with
  | object hr => exact namesConstant_of_readonly hr h
  | reference hd hv => exact namesConstant_of_bindReference hd hv h
  | auto hd => exact namesConstant_of_declarator hd h
  | @element spec d v hd =>
    unfold bindElement at h
    split at h
    · exact namesConstant_of_declarator hd h
    · obtain ⟨base, u, hb, hdecl⟩ := bind_eq_ok h
      obtain ⟨-, rfl⟩ := ask_eq_ok hb
      exact namesConstant_of_declarator hd hdecl
  | parameter hr hv =>
    unfold bindParameter at h
    rw [hv.detached] at h
    exact namesConstant_of_readonly (hv.readonly.trans hr) h
  | shared hv hp =>
    unfold bindParameter at h
    rw [hv] at h
    exact namesConstant_of_declare hp h

/-- Along a drive, a constant object is made to the end. -/
theorem builds_drive {fs : List (Console → Console)} {p : Progress .value} {v : Value}
    (hp : p.Builds isArray s.heap) (h : drive fs p c s = .ok (.done v) t) :
    (Progress.done v).Builds isArray t.heap := by
  induction fs generalizing s p with
  | nil =>
    cases h
    exact hp
  | cons f fs ih =>
    cases p with
    | done v' =>
      cases h
      exact hp
    | paused q path =>
      change (step q path >>= drive fs) c (s.onConsole f) = _ at h
      obtain ⟨p, u, hx, hd⟩ := bind_eq_ok h
      exact ih (builds_step hp q c _ p u hx) hd

theorem Builds.completes {x : RunM (Progress .value)} (hx : x.Builds isArray) {v : Value}
    (h : x.Completes c s v t) : (Progress.done v).Builds isArray t.heap := by
  obtain ⟨fs, hd⟩ := h
  obtain ⟨p, u, hp, hd⟩ := bind_eq_ok hd
  exact builds_drive (hx c s p u hp) hd

/-- The value of a constant variable is made constant, with the bound that its initializer
gives to an array. -/
theorem builds_initialValue {d : Declared} (hr : d.readonly = true) (name : String)
    (init : Option Initializer) :
    (initialValue name d init).Builds (d.openBound || d.type.isArray) := by
  unfold initialValue
  split
  · rename_i hopen
    rw [hopen, Bool.true_or]
    unfold openValue
    split
    · exact .fail _
    · exact .make (.initial (.array _ _) _ _ _) hr rfl
    · exact Builds.visit (by exact ⟨hr, rfl⟩) _ _
    · exact .fail _
  · rename_i hopen
    rw [hopen, Bool.false_or]
    exact .make (.initial _ _ _ _) hr rfl
  · rename_i hopen
    rw [hopen, Bool.false_or]
    exact .make (.default _ _) hr rfl

/-- A variable that is declared has its value made first, and then the declarators after it are
worked off. -/
theorem declareAll_variable {spec : TypeSpec} {item : InitDeclarator} {rest : List InitDeclarator}
    {d : Declared} {flow : Flow} (hauto : spec.isAuto = false)
    (hd : ReadM.declared spec item.declarator (c, s) = .ok d) (hname : d.name = some name)
    (href : d.reference = false) (hobject : ∀ sig, d.type ≠ .function sig)
    (h : (declareAll spec (item :: rest)).Completes c s flow t) :
    ∃ v u a u', (initialValue name d item.init).Completes c s v u ∧
      bind (.name name) v c u = .ok a u' ∧ (declareAll spec rest).Completes c u' flow t := by
  obtain ⟨o, u, ho, h⟩ := completes_bind h
  obtain ⟨p, rfl, hp⟩ : ∃ p, o = some (.name name, p) ∧
      initialValue name d item.init c s = .ok p u := by
    unfold declareOne at ho
    rw [hauto, if_neg Bool.false_ne_true] at ho
    obtain ⟨d', w, ha, hrest⟩ := bind_eq_ok ho
    obtain ⟨ha', rfl⟩ := ask_eq_ok ha
    cases hd.symm.trans ha'
    obtain ⟨x, w', hx, hone⟩ := bind_eq_ok hrest
    obtain ⟨hx', rfl⟩ := nameOf_eq_ok hx
    cases hx'.symm.trans hname
    rw [href] at hone
    cases hty : d.type with
    | function sig => exact absurd hty (hobject sig)
    | _ =>
      rw [hty] at hone
      obtain ⟨p, w, hp, hret⟩ := bind_eq_ok hone
      cases hret
      exact ⟨p, rfl, hp⟩
  have hx : (initialValue name d item.init >>= fun p =>
      p.andThen (.bind (.name name) spec rest) fun v => do
        bind (.name name) v
        declareAll spec rest).Completes c s flow t := by
    obtain ⟨fs, hfs⟩ := h
    refine ⟨fs, ?_⟩
    rw [bind_assoc, bind_ok hp]
    exact hfs
  obtain ⟨v, w, hv, h⟩ := completes_andThen (fun _ => rfl) hx
  obtain ⟨a, w', hb, h⟩ := completes_bind h
  exact ⟨v, w, a, w', hv, hb, h⟩

/-- A constant variable that is declared stands for a constant cell when the declarators after it
are worked off. -/
theorem declareAll_namesConstant {spec : TypeSpec} {item : InitDeclarator}
    {rest : List InitDeclarator} {d : Declared} {flow : Flow} (hauto : spec.isAuto = false)
    (hd : ReadM.declared spec item.declarator (c, s) = .ok d) (hc : d.IsConstant name)
    (h : (declareAll spec (item :: rest)).Completes c s flow t) :
    ∃ u, u.NamesConstant name (d.openBound || d.type.isArray) ∧
      (declareAll spec rest).Completes c u flow t := by
  obtain ⟨v, w, a, u, hv, hb, h⟩ :=
    declareAll_variable hauto hd hc.name hc.reference hc.object h
  exact ⟨u, namesConstant_of_defineVariable
    ((builds_initialValue hc.readonly name item.init).completes hv) hb, h⟩

end RunM

end Stepwise
