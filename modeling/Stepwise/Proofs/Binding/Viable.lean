import Stepwise.Machine.Call
import Stepwise.Proofs.Binding.Conversions
import Stepwise.Proofs.Overflow.Operators
import Mathlib.Data.List.Forall2

/-! # Viable functions

A function that accepts a call can be given its arguments.
-/

namespace Stepwise

/-- A function, or a pointer to one. -/
def Data.isCode : Data → Bool
  | functionPointer _ | function _ => true
  | _ => false

/-- A pointer to data that is not null. -/
def Data.isAddress : Data → Bool
  | pointer (some _) | array (some _) _ => true
  | _ => false

namespace Ty

/-- The payloads of a type. -/
def suits : Ty → Data → Bool
  | void, .void | marker, .void | function _, .function _ | struct .., .struct _ => true
  | arith _, d => d.number?.isSome
  | pointer .., d | array .., d | functionPointer _, d => d.isPointer
  | _, _ => false

/-- The payload is a function and the type points to data, or the other way round. -/
def isCrossedBy : Ty → Data → Bool
  | pointer .., d | array .., d => d.isCode
  | functionPointer _, d => d.isAddress
  | _, _ => false

end Ty

namespace Value

/-- The payload is one of the type. -/
def IsTyped (v : Value) : Prop := v.ty.suits v.data = true

/-- To become a value of the target, a function would have to become data, or data a function. -/
def crosses (v : Value) (target : Ty) : Bool := !(v.ty == target) && target.isCrossedBy v.data

end Value

/-- Operands in a well-formed heap have payloads of their types. -/
theorem Heap.Fits.suits {members : String → List Ty} {h : Heap} {ty : Ty} {d : Data}
    (hf : h.Fits members ty d) : ty.suits d = true := by
  cases hf with
  | pointer hty hd => cases ty <;> first | exact hd | cases hty
  | _ => rfl

namespace Numerics

variable {n : Numerics} {k : ArithKind} {e : OperatorFault}

theorem isOverflow_of_fitInt {v : Int} (h : n.fitInt k v = .error e) : e.isOverflow = true := by
  unfold fitInt at h
  split at h
  · cases h
  · split at h
    · cases h
    · split at h <;> cases h
      rfl

theorem isOverflow_of_fit {x : Number} (h : n.fit k x = .error e) : e.isOverflow = true := by
  have hint {v : Int} (h : (do return .int (← n.fitInt k v) : Except OperatorFault Data) =
      .error e) : e.isOverflow = true := by
    cases hv : n.fitInt k v with
    | ok w => rw [hv] at h; cases h
    | error e' =>
      rw [hv] at h
      cases h
      exact isOverflow_of_fitInt hv
  unfold fit at h
  split at h
  · cases h
  · split at h
    · exact hint h
    · split at h
      · exact hint h
      · cases h
        rfl
    · dsimp only at h
      split at h <;> cases h
      rfl

theorem isOverflow_of_value {x : Number} (h : n.value k x = .error e) : e.isOverflow = true := by
  unfold value at h
  cases hd : n.fit k x with
  | ok d => rw [hd] at h; cases h
  | error e' =>
    rw [hd] at h
    cases h
    exact isOverflow_of_fit hd

end Numerics

namespace OperatorM

variable {α β : Type} {ctx : OperatorContext} {h : Heap}

/-- The computation has a result, unless a number leaves its range. -/
def Settles (ctx : OperatorContext) (h : Heap) (x : OperatorM α) : Prop :=
  match x ctx h with
  | .ok .. => True
  | .error fault _ => fault.isOverflow = true

/-- The fault of a value that does not convert. -/
def conversionFault (ctx : OperatorContext) (h : Heap) (v : Value) (target : Ty) : Fault :=
  ⟨.operator (.cannotConvert (h.text v) target), ctx.node⟩

theorem settles_number (k : ArithKind) (x : Number) : Settles ctx h (number k x) := by
  have hrun : number k x ctx h = (ofExcept (ctx.numerics.value k x) : OperatorM Value) ctx h := rfl
  unfold Settles
  rw [hrun]
  cases hv : ctx.numerics.value k x with
  | ok v => trivial
  | error e => exact Numerics.isOverflow_of_value hv

section Convert

variable {v : Value} {target : Ty} {c d : Bool} {s s' : Shape}

/-- A function never becomes a pointer to data, nor data one to functions. -/
theorem convert_of_crosses (hc : v.crosses target = true) :
    convert v target false ctx h = .error (conversionFault ctx h v target) h := by
  obtain ⟨hty, hc⟩ := Bool.and_eq_true_iff.mp hc
  have hty : ¬(v.ty == target) = true := by simpa using hty
  unfold convert
  rw [if_neg hty]
  cases target with
  | pointer | array =>
    dsimp only at hc ⊢
    unfold convertPointer
    cases hd : v.data <;> rw [hd] at hc <;> first | rfl | cases hc
  | functionPointer f =>
    dsimp only at hc ⊢
    unfold convertFunctionPointer
    cases hd : v.data with
    | pointer p => rw [hd] at hc; cases p <;> first | rfl | cases hc
    | array p position => rw [hd] at hc; cases p <;> first | rfl | cases hc
    | _ => rw [hd] at hc; cases hc
  | _ => cases hc

/-- Numbers convert to numbers. -/
theorem settles_convertArith {k : ArithKind} {x : Number} (hx : v.number? = some x)
    (explicit : Bool) : Settles ctx h (convertArith v k explicit) := by
  unfold convertArith
  rw [hx]
  exact settles_number k x

/-- A data pointer becomes another one that its type is compatible with. -/
theorem settles_convertPointer (hd : v.data.isPointer = true) (hcode : v.data.isCode = false)
    (hcompatible : v.ty.sameShape target = true ∨
      ctx.numerics.matcher.converts (.ofType v.ty) (.ofType target) = true) :
    Settles ctx h (convertPointer v target false) := by
  have hrest : Settles ctx h (do
      let compatible ←
        if v.data.isNull || v.ty.sameShape target then pure true else converts v.ty target
      if false || compatible then return .fresh target v.data
      else cannotConvert v target) := by
    by_cases hs : (v.data.isNull || v.ty.sameShape target) = true
    · rw [if_pos hs]
      trivial
    · rw [if_neg hs]
      have hconv := hcompatible.resolve_left fun h => hs (by rw [h, Bool.or_true])
      have hrun : converts v.ty target ctx h = .ok true h := congrArg (EStateM.Result.ok · h) hconv
      simp only [Settles, Bind.bind, ReaderT.bind, EStateM.bind, hrun]
      trivial
  unfold convertPointer
  split
  case h_1 hv => rw [hv] at hcode; cases hcode
  case h_2 | h_3 => exact hrest
  case h_4 hv => rw [hv] at hd; cases hd
  case h_5 hnf hp harray _ =>
    cases hv : v.data with
    | functionPointer f => exact (hnf f hv).elim
    | pointer p => exact (hp p hv).elim
    | array p position => exact (harray p position hv).elim
    | _ => rw [hv] at hd; cases hd

/-- A function, a pointer to one or null becomes a function pointer. -/
theorem settles_convertFunctionPointer (hd : v.data.isPointer = true ∨ v.data.isCode = true)
    (haddress : v.data.isAddress = false) : Settles ctx h (convertFunctionPointer v target) := by
  unfold convertFunctionPointer
  cases hv : v.data with
  | functionPointer f => trivial
  | function f => trivial
  | pointer p => rw [hv] at haddress; cases p <;> trivial
  | array p position => rw [hv] at haddress; cases p <;> trivial
  | _ => rw [hv] at hd; simp [Data.isPointer, Data.isCode] at hd

variable (hv : v.IsTyped) (hs : v.ty.shape? c = some s)

include hv hs

theorem isPointer_of_shape? {a : Shape} (h : s = .pointer a) : v.data.isPointer = true := by
  subst h
  rw [Value.IsTyped] at hv
  obtain ⟨target, isConst, hty, -⟩ | ⟨element, n, hty, -⟩ | ⟨f, hty, -⟩ := Ty.of_shape? hs <;>
    · rw [hty] at hv
      exact hv

theorem exists_function_of_shape? {ret : Shape} {params : List (Shape × Bool)} {variadic : Bool}
    (h : s = .function ret params variadic) : ∃ f, v.data = .function f := by
  subst h
  rw [Value.IsTyped] at hv
  obtain ⟨f, hty, -⟩ := Ty.of_shape? hs
  rw [hty] at hv
  cases hd : v.data with
  | function f => exact ⟨f, rfl⟩
  | _ => rw [hd] at hv; cases hv

theorem isCode_of_shape? {ret : Shape} {params : List (Shape × Bool)} {variadic : Bool}
    (h : s = .function ret params variadic) : v.data.isCode = true := by
  obtain ⟨f, hf⟩ := exists_function_of_shape? hv hs h
  rw [hf]
  rfl

theorem exists_number_of_shape? {k : ArithKind} (hk : s.arith? = some k) :
    ∃ x, v.number? = some x := by
  cases s with
  | name a r =>
    rw [Value.IsTyped] at hv
    obtain ⟨-, ⟨hty, rfl⟩ | ⟨hty, rfl⟩ | ⟨j, hty, rfl⟩⟩ := Ty.of_shape? hs
    · cases hk
    · cases hk
    · rw [hty] at hv
      exact Option.isSome_iff_exists.mp hv
  | _ => cases hk

/-- A value of a shape that converts to that of the target converts to it. -/
theorem settles_convert (ht : target.shape? d = some s')
    (ha : (ctx.numerics.matcher.convertShape s s').isSome = true) (hc : v.crosses target = false) :
    Settles ctx h (convert v target false) := by
  unfold convert
  by_cases hty : (v.ty == target) = true
  · rw [if_pos hty]
    trivial
  rw [if_neg hty]
  have hcross : target.isCrossedBy v.data = false := by
    rwa [Value.crosses, Bool.eq_false_iff.mpr hty, Bool.not_false, Bool.true_and] at hc
  let m := ctx.numerics.matcher
  have hdata {p : Shape} (hp : s' = .pointer p) (hcode : v.data.isCode = false) :
      Settles ctx h (convertPointer v target false) := by
    subst hp
    obtain ⟨a, rfl⟩ | ⟨ret, params, variadic, rfl⟩ := m.of_convertShape_pointer ha
    · exact settles_convertPointer (isPointer_of_shape? hv hs rfl) hcode
        (m.compatible_of_convertShape hs ht ha)
    · exact absurd (isCode_of_shape? hv hs rfl) (Bool.eq_false_iff.mp hcode)
  cases target with
  | void => trivial
  | arith k =>
    cases ht
    obtain ⟨x, hx⟩ : ∃ x, v.number? = some x := by
      obtain heq | ⟨j, _, hj, -⟩ | ⟨_, _, -, hp⟩ | ⟨_, _, _, -, hp⟩ := m.cases_of_convertShape ha
      · obtain ⟨r, rfl⟩ := Shape.eq_of_unqualified heq
        exact absurd (Ty.beq_of_shape? (c := c) (d := d) hs rfl) hty
      · exact exists_number_of_shape? hv hs hj
      · cases hp
      · cases hp
    exact settles_convertArith hx false
  | pointer u isConst =>
    obtain ⟨p, rfl, -⟩ := Ty.shape?_pointer ht
    exact hdata rfl hcross
  | array element n =>
    obtain ⟨p, -, rfl⟩ := Option.map_eq_some_iff.mp ht
    exact hdata rfl hcross
  | functionPointer f =>
    obtain ⟨p, -, rfl⟩ := Option.map_eq_some_iff.mp ht
    refine settles_convertFunctionPointer ?_ hcross
    obtain ⟨a, rfl⟩ | ⟨ret, params, variadic, rfl⟩ := m.of_convertShape_pointer ha
    · exact .inl (isPointer_of_shape? hv hs rfl)
    · exact .inr (isCode_of_shape? hv hs rfl)
  | function f =>
    obtain ⟨ret, params, rfl⟩ := Ty.functionShape?_eq_some ht
    have heq := m.unqualified_eq_of_convertShape ha rfl nofun
    obtain ⟨f', hf⟩ := exists_function_of_shape? hv hs (Shape.eq_of_unqualified heq)
    simp only [hf]
    trivial
  | struct name members =>
    cases ht
    have heq := m.unqualified_eq_of_convertShape ha rfl nofun
    obtain ⟨r, rfl⟩ := Shape.eq_of_unqualified heq
    obtain ⟨-, members', hstruct⟩ := Ty.of_shape? hs
    rw [hstruct] at hty
    exact (hty (Ty.beq_iff_named.mpr rfl)).elim
  | marker =>
    cases ht
    have heq := m.unqualified_eq_of_convertShape ha rfl nofun
    obtain ⟨r, rfl⟩ := Shape.eq_of_unqualified heq
    exact absurd (Ty.beq_of_shape? (c := c) (d := d) hs rfl) hty

end Convert

section Copy

variable {v : Value} {target : Ty}

theorem copy_of_crosses (hc : v.crosses target = true) :
    copy v target ctx h = .error (conversionFault ctx h v target) h := by
  simp only [copy, Bind.bind, ReaderT.bind, EStateM.bind, convert_of_crosses hc]

theorem settles_copy (hx : Settles ctx h (convert v target false)) :
    Settles ctx h (copy v target) := by
  simp only [Settles, copy, Bind.bind, ReaderT.bind, EStateM.bind] at hx ⊢
  cases hr : convert v target false ctx h with
  | error fault h' => rwa [hr] at hx
  | ok converted h' =>
    cases hty : converted.ty <;> simp only [hty] <;> trivial

end Copy

end OperatorM

theorem mapM_eq_some_iff {α β : Type} {f : α → Option β} {l : List α} {l' : List β} :
    l.mapM f = some l' ↔ List.Forall₂ (fun a b => f a = some b) l l' := by
  induction l generalizing l' with
  | nil => simp [eq_comm]
  | cons a l ih =>
    simp only [List.mapM_cons, Option.bind_eq_bind, Option.bind_eq_some_iff, List.forall₂_cons_left_iff,
      ih]
    constructor
    · rintro ⟨b, hb, bs, hbs, h⟩
      cases h
      exact ⟨b, bs, hb, hbs, rfl⟩
    · rintro ⟨b, bs, hb, hbs, rfl⟩
      exact ⟨b, hb, bs, hbs, rfl⟩

theorem getElem?_of_mapM {α β : Type} {f : α → Option β} {l : List α} {l' : List β}
    (h : l.mapM f = some l') {i : Nat} {a : α} (ha : l[i]? = some a) :
    ∃ b, f a = some b ∧ l'[i]? = some b := by
  have hall := mapM_eq_some_iff.mp h
  obtain ⟨hi, rfl⟩ := List.getElem?_eq_some_iff.mp ha
  exact ⟨_, hall.get hi (hall.length_eq ▸ hi), List.getElem?_eq_getElem _⟩

theorem Ty.paramShapes?_eq_mapM (ps : List (ParamOf Ty)) : paramShapes? ps = ps.mapM paramShape? := by
  induction ps with
  | nil => rfl
  | cons p ps ih => rw [paramShapes?, ih, List.mapM_cons]

namespace Matcher

open Shape

variable {m : Matcher} {bindings : List Shape}

theorem getElem?_bindAll {variadic : Bool} {as ps : List (Shape × Bool)} {actions : List ArgAction}
    (h : m.bindAll bindings variadic as ps = some actions) {i : Nat} {a p : Shape × Bool}
    (ha : as[i]? = some a) (hp : ps[i]? = some p) :
    ∃ action, m.convert bindings a.1 p.1 = some action ∧ actions[i]? = some action := by
  induction as generalizing ps actions i with
  | nil => cases ha
  | cons x as ih =>
    cases ps with
    | nil => cases hp
    | cons y ps =>
      obtain ⟨action, hx, h⟩ := Option.bind_eq_some_iff.mp h
      obtain ⟨rest, hrest, h⟩ := Option.bind_eq_some_iff.mp h
      cases h
      cases i with
      | zero =>
        cases ha
        cases hp
        exact ⟨action, hx, rfl⟩
      | succ i => exact ih hrest ha hp

theorem convertShape_ne_share (a p : Shape) : m.convertShape a p ≠ some .share := by
  unfold convertShape
  split
  · simp
  · split
    · split <;> simp
    · split
      · split
        · simp
        · split <;> simp
      · split <;> simp
      · simp

/-- For a parameter by value, it does not matter whether the argument is an lvalue. -/
theorem convert_byValue {t u : Ty} {c d : Bool} {s s' : Shape} (ht : t.shape? c = some s)
    (hu : u.shape? d = some s') (lvalue : Bool) :
    m.convert bindings (if lvalue then .reference s else s) s' = m.convertShape s s' := by
  rw [← m.convertValue_of_shape? hu bindings s]
  cases lvalue with
  | true =>
    cases s' with
    | reference r => exact (Ty.of_shape? hu).elim
    | _ => rfl
  | false =>
    cases s with
    | reference r => exact (Ty.of_shape? ht).elim
    | _ =>
      cases s' with
      | reference r => exact (Ty.of_shape? hu).elim
      | _ => rfl

/-- An argument is shared as an lvalue for a reference, or its shape converts. -/
theorem convert_cases {t u : Ty} {c d lvalue isReference : Bool} {s s' : Shape}
    {action : ArgAction} (ht : t.shape? c = some s) (hu : u.shape? d = some s')
    (h : m.convert bindings (if lvalue then .reference s else s)
      (if isReference then .reference s' else s') = some action) :
    action = .share ∧ lvalue = true ∧ isReference = true ∧ s.unqualified = s'.unqualified ∨
      m.convertShape s s' = some action := by
  have hvalue := m.convertValue_of_shape? hu bindings s
  cases isReference with
  | false => exact .inr ((convert_byValue ht hu lvalue).symm.trans h)
  | true =>
    cases lvalue with
    | true =>
      simp only [if_true, convert] at h
      split at h
      · rename_i hsame
        cases h
        exact .inl ⟨rfl, rfl, rfl, beq_iff_eq.mp (Bool.and_eq_true_iff.mp hsame).1⟩
      · split at h
        · exact .inr (hvalue.symm.trans h)
        · cases h
    | false =>
      have hread : (if s'.isReadonly then m.convertValue bindings s s' else none) = some action := by
        cases s with
        | reference r => exact (Ty.of_shape? ht).elim
        | _ => exact h
      exact .inr (hvalue.symm.trans (Option.ite_none_right_eq_some.mp hread).2)

/-- A function that accepts a call takes each argument as its shape converts. -/
theorem exists_convert_of_matchFunction {args : List ArgSig} {f : FunctionTy}
    {templates : List Signature} {actions : List ArgAction}
    (h : m.matchFunction (.ofCall args) (.ofFunction f) templates = some actions) {i : Nat}
    {a : ArgSig} {p : ParamTy} (ha : args[i]? = some a) (hp : f.params[i]? = some p) :
    ∃ bindings s q action, a.shape? = some s ∧ Ty.paramShape? p = some q ∧
      m.convert bindings s q.1 = some action ∧ actions[i]? = some action := by
  rw [matchFunction_ofCall] at h
  obtain ⟨ss, hss, h⟩ := Option.bind_eq_some_iff.mp h
  obtain ⟨ps, hps, h⟩ := Option.bind_eq_some_iff.mp h
  obtain ⟨bindings, -, h⟩ := Option.bind_eq_some_iff.mp h
  rw [Ty.paramShapes?_eq_mapM] at hps
  obtain ⟨s, hs, hsi⟩ := getElem?_of_mapM hss ha
  obtain ⟨q, hq, hqi⟩ := getElem?_of_mapM hps hp
  have hbound : (ss.map (·, false))[i]? = some (s, false) := by
    rw [List.getElem?_map, hsi]
    rfl
  obtain ⟨action, hconvert, haction⟩ := getElem?_bindAll h hbound hqi
  exact ⟨bindings, s, q, action, hs, hq, hconvert, haction⟩

end Matcher

namespace RunM

variable {α β : Type} {c : Config} {s : State}

/-- The computation has a result, unless a number leaves its range. -/
def Settles (c : Config) (s : State) (x : RunM α) : Prop :=
  match x c s with
  | .ok .. => True
  | .error fault _ => fault.isOverflow = true

theorem settles_bind {x : RunM α} {f : α → RunM β} (hx : Settles c s x)
    (hf : ∀ a s', Settles c s' (f a)) : Settles c s (x >>= f) := by
  simp only [Settles, Bind.bind, ReaderT.bind, EStateM.bind] at hx hf ⊢
  cases h : x c s with
  | ok a s' => exact hf a s'
  | error fault s' => rwa [h] at hx

theorem settles_operate {x : OperatorM α} (hx : ∀ ctx heap, ctx.numerics = c.numerics →
    OperatorM.Settles ctx heap x) : Settles c s (operate x) := by
  have h := hx ⟨c.numerics, s.tables, s.cursor⟩ s.heap rfl
  simp only [Settles, operate, ReaderT.run, EStateM.run, OperatorM.Settles] at h ⊢
  cases hr : x ⟨c.numerics, s.tables, s.cursor⟩ s.heap <;> rw [hr] at h <;> exact h

/-- The argument is an alias of its cell, or a copy of it comes to a result. -/
def CanBind (c : Config) (v : Value) (action : Option ArgAction) (param : ParamTy) : Prop :=
  action = some .share ∧ v.isLvalue = true ∨
    ∀ ctx heap, ctx.numerics = c.numerics → OperatorM.Settles ctx heap (OperatorM.copy v param.ty)

theorem settles_boundArguments {args : List Value} {actions : List ArgAction}
    {params : List ParamTy} (h : ∀ (i : Nat) (v : Value) (p : ParamTy),
      args[i]? = some v → params[i]? = some p → CanBind c v actions[i]? p) :
    Settles c s (boundArguments args actions params) := by
  induction args generalizing actions params s with
  | nil => trivial
  | cons v args ih =>
    have hrest (w : Value) (t : State) :
        Settles c t (do return w :: (← boundArguments args actions.tail params.tail)) := by
      refine settles_bind (ih fun i v p hv hp => ?_) fun _ _ => trivial
      rw [List.getElem?_tail] at hp ⊢
      exact h (i + 1) v p hv hp
    unfold boundArguments
    cases params with
    | nil => exact hrest v.rvalue s
    | cons p params =>
      dsimp only
      split
      · exact hrest v s
      · rename_i hshare
        refine settles_bind (settles_operate ?_) fun copied t => hrest (copied.withReadonly p.readonly) t
        refine (h 0 v p rfl rfl).resolve_left fun ⟨ha, hv⟩ => hshare ?_
        rw [List.head?_eq_getElem?, ha, hv]
        rfl

/-- An argument that is to be shared is an lvalue. Another one is copied, unless a number
overflows, or a function would have to become data, or data a function: then no copy comes to a
result. -/
structure Bindable (c : Config) (v : Value) (action : ArgAction) (param : ParamTy) : Prop where
  lvalue : action = .share → v.isLvalue = true
  copied : action ≠ .share → v.crosses param.ty = false →
    ∀ ctx heap, ctx.numerics = c.numerics → OperatorM.Settles ctx heap (OperatorM.copy v param.ty)
  refused : action ≠ .share → v.crosses param.ty = true → ∀ ctx heap,
    OperatorM.copy v param.ty ctx heap = .error (OperatorM.conversionFault ctx heap v param.ty) heap

theorem Bindable.canBind {v : Value} {action : ArgAction} {p : ParamTy} (h : Bindable c v action p)
    (hc : action ≠ .share → v.crosses p.ty = false) : CanBind c v action p := by
  by_cases hs : action = .share
  · exact .inl ⟨by rw [hs], h.lvalue hs⟩
  · exact .inr (h.copied hs (hc hs))

/-- An argument whose shape fits its parameter. -/
theorem bindable_of_convert {v : Value} {p : ParamTy} {action : ArgAction} {bindings : List Shape}
    {a : Shape} {q : Shape × Bool} (hv : v.IsTyped) (ha : v.argument.shape? = some a)
    (hq : Ty.paramShape? p = some q) (h : c.numerics.matcher.convert bindings a q.1 = some action) :
    Bindable c v action p := by
  obtain ⟨s, hs, rfl⟩ := Option.map_eq_some_iff.mp ha
  obtain ⟨ty, isReference, readonly, optional⟩ := p
  rw [Ty.paramShape?] at hq
  obtain ⟨s', hs', hq⟩ := Option.bind_eq_some_iff.mp hq
  cases hq
  obtain ⟨rfl, hl, -⟩ | hshape := Matcher.convert_cases hs hs' h
  · exact ⟨fun _ => hl, fun hne => absurd rfl hne, fun hne => absurd rfl hne⟩
  · have hne : action ≠ .share := by
      rintro rfl
      exact Matcher.convertShape_ne_share _ _ hshape
    refine ⟨fun hs => absurd hs hne, fun _ hc ctx heap hn => ?_,
      fun _ hc ctx heap => OperatorM.copy_of_crosses hc⟩
    have hsome : (ctx.numerics.matcher.convertShape s s').isSome = true := by
      rw [hn, hshape]
      rfl
    exact OperatorM.settles_copy (OperatorM.settles_convert hv hs hs' hsome hc)

variable {args : List Value} {f : FunctionTy} {templates : List Signature}
  {actions : List ArgAction}

/-- A function that accepts a call can be given each of its arguments, and all of them if none goes
between functions and data. -/
theorem bindable_of_matchFunction (hargs : ∀ v ∈ args, v.IsTyped)
    (h : c.numerics.matcher.matchFunction (.ofCall (args.map Value.argument)) (.ofFunction f)
      templates = some actions) :
    (∀ (i : Nat) (v : Value) (p : ParamTy), args[i]? = some v → f.params[i]? = some p →
      ∃ action, actions[i]? = some action ∧ Bindable c v action p) ∧
    ((∀ (i : Nat) (v : Value) (p : ParamTy), args[i]? = some v → f.params[i]? = some p →
        actions[i]? ≠ some .share → v.crosses p.ty = false) →
      ∀ s, Settles c s (boundArguments args actions f.params)) := by
  have hone (i : Nat) (v : Value) (p : ParamTy) (hv : args[i]? = some v)
      (hp : f.params[i]? = some p) : ∃ action, actions[i]? = some action ∧ Bindable c v action p := by
    have harg : (args.map Value.argument)[i]? = some v.argument := by rw [List.getElem?_map, hv]; rfl
    obtain ⟨bindings, a, q, action, ha, hq, hconvert, haction⟩ :=
      Matcher.exists_convert_of_matchFunction h harg hp
    exact ⟨action, haction, bindable_of_convert (hargs v (List.mem_of_getElem? hv)) ha hq hconvert⟩
  refine ⟨hone, fun hcross s => settles_boundArguments fun i v p hv hp => ?_⟩
  obtain ⟨action, ha, hb⟩ := hone i v p hv hp
  rw [ha]
  refine hb.canBind fun hs => hcross i v p hv hp ?_
  rw [ha, ne_eq, Option.some.injEq]
  exact hs

/-- A `long long` for a `double`, and a pointer to a double for `const void *`. -/
theorem bindable_of_matchFunction_pointer :
    let v : Value := .int .longLong 3
    let p : Value := .fresh (.pointerTo (.arith .double)) (.pointer (some (.slot 0)))
    let f : FunctionTy := ⟨.void, [.plain (.arith .double), .plain (.constPointerTo .void)], false⟩
    ∃ actions, ({} : Config).numerics.matcher.matchFunction (.ofCall ([v, p].map Value.argument))
        (.ofFunction f) [] = some actions ∧
      ∀ s, Settles {} s (boundArguments [v, p] actions f.params) := by
  intro v p f
  have hargs : ∀ w ∈ [v, p], w.IsTyped := by
    intro w hw
    rw [List.mem_cons, List.mem_singleton] at hw
    obtain rfl | rfl := hw <;> rfl
  have h : ({} : Config).numerics.matcher.matchFunction (.ofCall ([v, p].map Value.argument))
      (.ofFunction f) [] = some [.cast, .cast] := by decide +kernel
  refine ⟨_, h, (bindable_of_matchFunction hargs h).2 fun i w q hw hq _ => ?_⟩
  obtain _ | _ | i := i
  · cases hw
    cases hq
    exact Bool.and_false _
  · cases hw
    cases hq
    exact Bool.and_false _
  · cases hw

/-- A pointer to a function is accepted for `void *`, and a pointer to data that came as `void *`
for a pointer to functions, but neither can be converted. -/
theorem matchFunction_accepts_crossing :
    let handler : FunctionTy := ⟨.void, [], false⟩
    let code : Value := .fresh (.functionPointer handler)
      (.functionPointer (some ⟨"g", .global, none⟩))
    let data : Value := .fresh (.pointerTo .void) (.pointer (some (.slot 0)))
    let m := ({} : Config).numerics.matcher
    (m.matchFunction (.ofCall [code.argument]) (.ofFunction ⟨.void, [.plain (.pointerTo .void)], false⟩)
        [] = some [.cast] ∧
      ∀ ctx heap, OperatorM.copy code (.pointerTo .void) ctx heap =
        .error (OperatorM.conversionFault ctx heap code (.pointerTo .void)) heap) ∧
    m.matchFunction (.ofCall [data.argument])
        (.ofFunction ⟨.void, [.plain (.functionPointer handler)], false⟩) [] = some [.cast] ∧
      ∀ ctx heap, OperatorM.copy data (.functionPointer handler) ctx heap =
        .error (OperatorM.conversionFault ctx heap data (.functionPointer handler)) heap := by
  intro handler code data m
  have hcode : code.crosses (.pointerTo .void) = true := by decide +kernel
  have hdata : data.crosses (.functionPointer handler) = true := by decide +kernel
  exact ⟨⟨by decide +kernel, fun ctx heap => OperatorM.copy_of_crosses hcode⟩, by decide +kernel,
    fun ctx heap => OperatorM.copy_of_crosses hdata⟩

end RunM

end Stepwise
