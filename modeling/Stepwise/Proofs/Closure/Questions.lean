import Stepwise.Machine.Resolve
import Stepwise.Proofs.Closure.Operators

/-! # Properties of questions

What a declarator means is put together from a few questions to the state. A property that
these questions have, and that is kept when questions are asked one after another, is a
property of all of them.
-/

namespace Stepwise

namespace ReadM

variable {α β : Type}

theorem of_bind_eq_ok {q : Config × State} {x : ReadM α} {f : α → ReadM β} {b : β}
    (h : (x >>= f) q = .ok b) : ∃ a, x q = .ok a ∧ f a q = .ok b := by
  simp only [Bind.bind, ReaderT.bind, Except.bind] at h
  cases hx : x q with
  | error fault => rw [hx] at h; cases h
  | ok a =>
    rw [hx] at h
    exact ⟨a, rfl, h⟩

/-- Two settings give the same names the same types and values. -/
structure Alike (e e' : Config × State) : Prop where
  limits : e'.1.limits = e.1.limits
  specifiers : e'.1.specifiers = e.1.specifiers
  typedefs : e'.2.typedefs = e.2.typedefs
  structs : e'.2.structs = e.2.structs
  values : ∀ name, e'.2.value? name = e.2.value? name

/-- The settings are alike, and faults have the same place in them. -/
structure Agree (e e' : Config × State) : Prop extends Alike e e' where
  cursor : e'.2.cursor = e.2.cursor

/-- `T` is a property of the questions of which declarators are made, and of what is made of
questions with the property. -/
structure Closed (T : (α : Type) → ReadM α → Prop) : Prop where
  pure : ∀ {α : Type} (a : α), T α (pure a)
  bind : ∀ {α β : Type} {x : ReadM α} {f : α → ReadM β}, T α x → (∀ a, T β (f a)) → T β (x >>= f)
  fail : ∀ {α : Type} (cause : FaultCause), cause.isCommon = true → T α (fail cause)
  read_bind : ∀ {β : Type} {f : Config × State → ReadM β},
    (∀ e e', Alike e e' → f e' = f e) → (∀ e, T β (f e)) → T β (read >>= f)

namespace Closed

variable {T : (α : Type) → ReadM α → Prop} (hT : Closed T)

theorem ite {p : Prop} [Decidable p] {x y : ReadM α} (hx : T α x) (hy : T α y) :
    T α (if p then x else y) := by
  split
  · exact hx
  · exact hy

include hT

theorem ofExcept {x : Except FaultCause α}
    (hx : ∀ cause, x = .error cause → cause.isCommon = true) : T α (ofExcept x) := by
  cases x with
  | ok a => exact hT.pure a
  | error cause => exact hT.fail cause (hx cause rfl)

/-- A check that may end the computation. -/
theorem check {p : Prop} [Decidable p] {x : ReadM PUnit} {f : PUnit → ReadM β} (hx : T _ x)
    (hf : T β (f ⟨⟩)) : T β (if p then x >>= f else f ⟨⟩) := by
  split
  · exact hT.bind hx fun _ => hf
  · exact hf

theorem baseType (spec : TypeSpec) : T Ty (baseType spec) := by
  refine hT.read_bind ?_ ?_
  · intro e e' h
    simp only [Config.isSpecifier, State.struct?, h.specifiers, h.typedefs, h.structs]
  · rintro ⟨c, s⟩
    dsimp only
    split
    · exact hT.fail _ rfl
    · split
      · exact hT.pure _
      · exact hT.fail _ rfl

theorem checkCells (ty : Ty) : T Unit (checkCells ty) := by
  unfold ReadM.checkCells
  split
  · refine hT.read_bind ?_ ?_
    · intro e e' h
      rw [h.limits]
    · exact fun _ => ite (hT.fail _ rfl) (hT.pure _)
  · exact hT.fail _ rfl

theorem byteSize (ty : Ty) : T Nat (byteSize ty) := by
  refine hT.read_bind ?_ ?_
  · intro e e' h
    rw [h.limits]
  · intro e
    split
    · exact hT.pure _
    · exact hT.fail _ rfl

theorem bounded (element : Ty) (size : Int) : T Ty (bounded element size) := by
  unfold ReadM.bounded
  refine hT.check (hT.fail _ rfl) ?_
  refine hT.check (hT.fail _ rfl) ?_
  exact hT.bind (hT.checkCells _) fun _ => hT.pure _

/-- The value of a name in a constant expression. -/
theorem identifier (span : Span) (name : String) : T Int (constant (.identifier span name)) := by
  unfold constant
  refine hT.read_bind ?_ ?_
  · intro e e' h
    simp only [h.values]
  · intro e
    split
    · exact hT.pure _
    · exact hT.fail _ rfl

end Closed

theorem isCommon_unary (op : UnaryOp) (v : Int) (cause : FaultCause)
    (h : Constant.unary op v = .error cause) : cause.isCommon = true := by
  unfold Constant.unary Constant.checked at h
  grind [FaultCause.isCommon, FaultCause.isEndless, FaultCause.isNew]

theorem isCommon_binary (op : BinaryOp) (a b : Int) (cause : FaultCause)
    (h : Constant.binary op a b = .error cause) : cause.isCommon = true := by
  unfold Constant.binary Constant.checked at h
  grind [FaultCause.isCommon, FaultCause.isEndless, FaultCause.isNew]

section Declarators

variable {T : (α : Type) → ReadM α → Prop} (hT : Closed T)

include hT

mutual

theorem Closed.constant : (e : Expr) → T Int (constant e)
  | .literal _ (.int v _ _ _) => by
    unfold ReadM.constant
    exact ite (hT.pure _) (hT.fail _ rfl)
  | .literal _ (.char code _) => hT.pure _
  | .literal _ (.bool b) => hT.pure _
  | .identifier span name => hT.identifier span name
  | .unary _ op operand =>
    hT.bind (Closed.constant operand) fun v => hT.ofExcept (isCommon_unary op v)
  | .binary _ op left right =>
    hT.bind (Closed.constant left) fun l =>
      hT.bind (Closed.constant right) fun r => hT.ofExcept (isCommon_binary op l r)
  | .conditional _ condition thenExpr elseExpr =>
    hT.bind (Closed.constant condition) fun _ =>
      ite (Closed.constant thenExpr) (Closed.constant elseExpr)
  | .cast _ _ _ operand => by
    unfold ReadM.constant
    exact Closed.constant operand
  | .sizeofType _ spec target =>
    hT.bind (hT.baseType spec) fun base =>
      hT.bind (Closed.declarator base spec.isConst target) fun d =>
        hT.bind (hT.byteSize d.type) fun _ => hT.pure _
  | .literal _ (.float ..) | .literal _ (.string ..) | .literal _ .null | .qualified .. =>
    hT.fail _ rfl
  | .logical .. | .assign .. | .comma .. | .call .. | .index .. | .member .. => hT.fail _ rfl
  | .sizeofExpr .. | .list .. => hT.fail _ rfl

theorem Closed.declarator (base : Ty) (isConst : Bool) :
    (d : Declarator) → T Declared (declarator base isConst d)
  | .mk _ marks reference inner suffixList => by
    unfold ReadM.declarator
    refine hT.bind (Closed.suffixes _ true suffixList) fun (type, _, _) => ?_
    match inner with
    | .named name => exact hT.pure _
    | .anonymous => exact hT.pure _
    | .nested d => exact hT.bind (Closed.declarator type false d) fun _ => hT.pure _

theorem Closed.suffixes (ty : Ty) (first : Bool) :
    (ss : List DeclaratorSuffix) → T _ (suffixes ty first ss)
  | [] => hT.pure _
  | .array (some size) :: rest =>
    hT.bind (Closed.suffixes ty false rest) fun (element, _, _) =>
      hT.bind (Closed.constant size) fun n => hT.bind (hT.bounded element n) fun _ => hT.pure _
  | .array none :: rest =>
    hT.bind (Closed.suffixes ty false rest) fun _ => hT.check (hT.fail _ rfl) (hT.pure _)
  | .params ps _ :: rest =>
    hT.bind (Closed.suffixes ty false rest) fun _ =>
      hT.bind (Closed.parameters (ps.length == 1) false ps) fun _ => hT.pure _

theorem Closed.parameters (only defaulted : Bool) :
    (ps : List Param) → T _ (parameters only defaulted ps)
  | [] => hT.pure _
  | .mk _ spec d default :: rest => by
    unfold ReadM.parameters
    refine hT.bind (hT.baseType spec) fun base => ite (hT.pure _) ?_
    refine hT.bind (Closed.declarator base spec.isConst d) fun declared =>
      hT.check (hT.fail _ rfl) ?_
    exact hT.bind (Closed.parameters only _ rest) fun _ => hT.pure _

end

theorem Closed.declared (spec : TypeSpec) (d : Declarator) : T Declared (declared spec d) :=
  hT.bind (hT.baseType spec) fun base => hT.declarator base spec.isConst d

theorem Closed.typeNamed (spec : TypeSpec) (d : Declarator) : T Ty (typeNamed spec d) :=
  hT.bind (hT.declared spec d) fun _ => hT.pure _

end Declarators

/-- What a question is answered depends on nothing but names, their types and their values. -/
theorem closed_agree : Closed fun _ x => ∀ e e', Agree e e' → x e' = x e where
  pure _ := fun _ _ _ => rfl
  bind {_ _ x f} hx hf := by
    intro e e' h
    simp only [Bind.bind, ReaderT.bind, Except.bind, hx e e' h]
    cases x e with
    | error _ => rfl
    | ok a => exact hf a e e' h
  fail cause _ := by
    intro e e' h
    change Except.error (⟨cause, e'.2.cursor⟩ : Fault) = .error ⟨cause, e.2.cursor⟩
    rw [h.cursor]
  read_bind {_ f} he hf := by
    intro e e' h
    change f e' e' = f e e
    rw [he e e' h.toAlike]
    exact hf e e e' h

/-- Where faults have their place makes no difference to an answer. -/
theorem closed_alike : Closed fun α x => ∀ e e' (a : α), Alike e e' → x e = .ok a → x e' = .ok a where
  pure _ := fun _ _ _ _ h => h
  bind {_ _ x f} hx hf := by
    intro e e' b he h
    obtain ⟨a, ha, hb⟩ := of_bind_eq_ok h
    simp only [Bind.bind, ReaderT.bind, Except.bind, hx e e' a he ha]
    exact hf a e e' b he hb
  fail _ _ := fun _ _ _ _ h => nomatch h
  read_bind {_ f} he hf := by
    intro e e' b h hb
    change f e' e' = .ok b
    rw [he e e' h]
    exact hf e e e' b h hb

theorem closed_common : Closed fun _ x => ∀ e fault, x e = .error fault →
    fault.cause.isCommon = true where
  pure _ := fun _ _ h => nomatch h
  bind {_ _ x f} hx hf := by
    intro e fault h
    simp only [Bind.bind, ReaderT.bind, Except.bind] at h
    cases ha : x e with
    | error _ => rw [ha] at h; cases h; exact hx e _ ha
    | ok a => rw [ha] at h; exact hf a e fault h
  fail cause hc := by
    rintro e fault ⟨⟩
    exact hc
  read_bind _ hf := fun e fault h => hf e e fault h

theorem name_of_declarator (base : Ty) (isConst : Bool) (d : Declarator) {q : Config × State}
    {D : Declared} (h : declarator base isConst d q = .ok D) : D.name = d.name? :=
  match d with
  | .mk _ marks _ inner suffixList => by
    unfold declarator at h
    obtain ⟨⟨type, openBound, params⟩, -, h⟩ := of_bind_eq_ok h
    cases inner with
    | named name =>
      cases h
      rfl
    | anonymous =>
      cases h
      rfl
    | nested d =>
      obtain ⟨inner, hd, h⟩ := of_bind_eq_ok h
      have hn := name_of_declarator type false d hd
      cases h
      exact hn

theorem name_of_declared {spec : TypeSpec} {d : Declarator} {q : Config × State}
    {D : Declared} (h : declared spec d q = .ok D) : D.name = d.name? := by
  obtain ⟨base, -, h⟩ := of_bind_eq_ok h
  exact name_of_declarator base _ d h

end ReadM

end Stepwise
