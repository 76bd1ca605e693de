import Stepwise.Proofs.Binding.Conversions
import Stepwise.Proofs.Overload.Parameters

/-! # Types that pass for one another

Which arguments a parameter accepts, told by types alone. As long as constness stands only
before types that have names, the shape of a type tells it up to arrays and pointers, so
that shapes convert exactly when the type of the argument passes for that of the parameter.
-/

namespace Stepwise

namespace Ty

/-- The type is called by a name. -/
def isNamed : Ty → Bool
  | void | marker | arith _ | struct .. => true
  | _ => false

mutual

/-- Nothing inside the type is constant but types that have names. -/
def constNamed : Ty → Bool
  | pointer target c => (!c || target.isNamed) && constNamed target
  | array element _ => constNamed element
  | functionPointer f | function f => constNamedFunction f
  | _ => true

def constNamedFunction : FunctionOf Ty → Bool
  | ⟨ret, params, _⟩ => constNamed ret && constNamedParams params

def constNamedParams : List (ParamOf Ty) → Bool
  | [] => true
  | p :: ps => constNamedParam p && constNamedParams ps

def constNamedParam : ParamOf Ty → Bool
  | ⟨ty, reference, readonly, _⟩ => (!(readonly && reference) || ty.isNamed) && constNamed ty

end

theorem takesConst_of_isNamed {t : Ty} (h : t.isNamed = true) : t.takesConst = true := by
  cases t <;> first | rfl | cases h

mutual

theorem flat_of_constNamed : ∀ t : Ty, t.constNamed = true → t.flat = true
  | .void, _ | .marker, _ | .arith _, _ | .struct .., _ => rfl
  | .pointer target c, h => by
    simp only [constNamed, Bool.and_eq_true, Bool.or_eq_true] at h
    simp only [flat, Bool.and_eq_true, Bool.or_eq_true]
    exact ⟨h.1.imp id takesConst_of_isNamed, flat_of_constNamed target h.2⟩
  | .array element _, h => flat_of_constNamed element h
  | .functionPointer f, h | .function f, h => flatFunction_of_constNamed f h

theorem flatFunction_of_constNamed : ∀ f : FunctionOf Ty, constNamedFunction f = true →
    flatFunction f = true
  | ⟨ret, params, _⟩, h => by
    simp only [constNamedFunction, Bool.and_eq_true] at h
    simp only [flatFunction, Bool.and_eq_true]
    exact ⟨flat_of_constNamed ret h.1, flatParams_of_constNamed params h.2⟩

theorem flatParams_of_constNamed : ∀ ps : List (ParamOf Ty), constNamedParams ps = true →
    flatParams ps = true
  | [], _ => rfl
  | p :: ps, h => by
    simp only [constNamedParams, Bool.and_eq_true] at h
    simp only [flatParams, Bool.and_eq_true]
    exact ⟨flatParam_of_constNamed p h.1, flatParams_of_constNamed ps h.2⟩

theorem flatParam_of_constNamed : ∀ p : ParamOf Ty, constNamedParam p = true → flatParam p = true
  | ⟨ty, isReference, readonly, _⟩, h => by
    simp only [constNamedParam, Bool.and_eq_true, Bool.or_eq_true] at h
    simp only [flatParam, Bool.and_eq_true, Bool.or_eq_true]
    exact ⟨h.1.imp id takesConst_of_isNamed, flat_of_constNamed ty h.2⟩

end

end Ty

namespace Shape

mutual

/-- The type that a shape spells, with its constness. -/
def spelled : Shape → Ty × Bool
  | name a readonly => (Signature.named a, readonly)
  | struct a readonly => (.struct a [], readonly)
  | pointer s => (s.spelled.1.pointerMarked s.spelled.2, false)
  | function ret params variadic =>
    (.function ⟨ret.spelled.1, spelledParams params, variadic⟩, false)
  | template .. | result | reference _ => (.marker, false)

def spelledParams : List (Shape × Bool) → List (ParamOf Ty)
  | [] => []
  | p :: ps => spelledParam p :: spelledParams ps

def spelledParam : Shape × Bool → ParamOf Ty
  | (reference s, optional) => ⟨s.spelled.1, true, s.spelled.2, optional⟩
  | (s, optional) => ⟨s.spelled.1, false, false, optional⟩

end

end Shape

namespace Ty

open Shape

mutual

/-- The shape of a type spells it. -/
theorem exists_shape? (c : Bool) : ∀ t : Ty, t.constNamed = true → (c = true → t.isNamed = true) →
    ∃ s, t.shape? c = some s ∧ s.spelled = (t.decayed, c)
  | .void, _, _ | .marker, _, _ => ⟨_, rfl, rfl⟩
  | .struct .., _, _ => ⟨_, rfl, rfl⟩
  | .arith k, _, _ => ⟨_, rfl, by rw [spelled, Signature.named_name]; rfl⟩
  | .pointer target isConst, h, hc => by
    obtain rfl : c = false := Bool.eq_false_iff.mpr fun h => by cases hc h
    simp only [constNamed, Bool.and_eq_true, Bool.or_eq_true, Bool.not_eq_true'] at h
    obtain ⟨s, hs, hspelled⟩ := exists_shape? isConst target h.2 fun h' => by simpa [h'] using h.1
    refine ⟨.pointer s, ?_, by rw [spelled, hspelled, decayed]⟩
    rw [shape?, Bool.false_and, if_neg Bool.false_ne_true, Bool.false_or, hs, Option.map_some]
  | .array element n, h, hc => by
    obtain rfl : c = false := Bool.eq_false_iff.mpr fun h => by cases hc h
    obtain ⟨s, hs, hspelled⟩ := exists_shape? false element h (absurd · Bool.false_ne_true)
    exact ⟨.pointer s, by rw [shape?, hs, Option.map_some], by rw [spelled, hspelled, decayed]⟩
  | .functionPointer f, h, hc => by
    obtain rfl : c = false := Bool.eq_false_iff.mpr fun h => by cases hc h
    obtain ⟨s, hs, hspelled⟩ := exists_functionShape? f h
    exact ⟨.pointer s, by rw [shape?, hs, Option.map_some], by rw [spelled, hspelled, decayed]; rfl⟩
  | .function f, h, hc => by
    obtain rfl : c = false := Bool.eq_false_iff.mpr fun h => by cases hc h
    obtain ⟨s, hs, hspelled⟩ := exists_functionShape? f h
    exact ⟨s, by rw [shape?, hs], by rw [hspelled, decayed]⟩

theorem exists_functionShape? : ∀ f : FunctionOf Ty, constNamedFunction f = true →
    ∃ s, functionShape? f = some s ∧ s.spelled = (.function (decayedFunction f), false)
  | ⟨ret, params, isVariadic⟩, h => by
    simp only [constNamedFunction, Bool.and_eq_true] at h
    obtain ⟨r, hr, hret⟩ := exists_shape? false ret h.1 (absurd · Bool.false_ne_true)
    obtain ⟨qs, hqs, hparams⟩ := exists_paramShapes? params h.2
    refine ⟨.function r qs isVariadic, by rw [functionShape?, hr, hqs]; rfl, ?_⟩
    rw [spelled, hret, hparams, decayedFunction]

theorem exists_paramShapes? : ∀ ps : List (ParamOf Ty), constNamedParams ps = true →
    ∃ qs, paramShapes? ps = some qs ∧ spelledParams qs = decayedParams ps
  | [], _ => ⟨[], rfl, rfl⟩
  | p :: ps, h => by
    simp only [constNamedParams, Bool.and_eq_true] at h
    obtain ⟨q, hq, hparam⟩ := exists_paramShape? p h.1
    obtain ⟨qs, hqs, hparams⟩ := exists_paramShapes? ps h.2
    exact ⟨q :: qs, by rw [paramShapes?, hq, hqs]; rfl, by rw [spelledParams, hparam, hparams, decayedParams]⟩

theorem exists_paramShape? : ∀ p : ParamOf Ty, constNamedParam p = true →
    ∃ q, paramShape? p = some q ∧ spelledParam q = decayedParam p
  | ⟨ty, isReference, readonly, isOptional⟩, h => by
    simp only [constNamedParam, Bool.and_eq_true, Bool.or_eq_true, Bool.not_eq_true'] at h
    obtain ⟨s, hs, hspelled⟩ := exists_shape? (readonly && isReference) ty h.2 fun h' => by
      simpa [h'] using h.1
    refine ⟨_, by rw [paramShape?, hs]; rfl, ?_⟩
    cases isReference with
    | true => rw [if_pos rfl, spelledParam, hspelled, decayedParam]
    | false =>
      rw [Bool.and_false] at hs hspelled
      rw [if_neg Bool.false_ne_true, decayedParam, Bool.and_false]
      cases s with
      | reference r => exact (of_shape? hs).elim
      | _ => rw [spelledParam, hspelled]; simp

end

/-- A value of one type may be passed for a parameter of another: arrays pass for pointers and a
function for the pointer to it, numbers pass for numbers, pointers for those to `void` and the
other way round, and what a pointer points to may become constant. -/
inductive Passes (a t : Ty) : Prop
  | same (h : a.decayed = t.decayed)
  | number (ha : a.isArith = true) (ht : t.isArith = true)
  | toVoid {c : Bool} (ha : a.decayed.isPointer = true) (ht : t.decayed = .pointer .void c)
  | fromVoid {c : Bool} (ha : a.decayed = .pointer .void c) (ht : t.decayed.isPointer = true)
  | addConst {target : Ty} (ha : a.decayed = .pointer target false) (ht : t.decayed = .pointer target true)
  | pointerTo {f : FunctionTy} (ha : a.decayed = .function f) (ht : t.decayed = .functionPointer f)

theorem isArith_decayed (t : Ty) : t.decayed.isArith = t.isArith := by
  cases t with
  | pointer target c =>
    rw [decayed]
    cases target.decayed <;> rfl
  | array element n =>
    rw [decayed]
    cases element.decayed <;> rfl
  | _ => rfl

end Ty

namespace Shape

variable {a p s : Shape} {t : Ty} {c : Bool}

theorem spelled_unqualified (s : Shape) : s.unqualified.spelled.1 = s.spelled.1 := by
  cases s <;> rfl

/-- A pointer shape spells a pointer. -/
theorem isPointer_spelled (s : Shape) : (pointer s).spelled.1.isPointer = true := by
  rw [spelled]
  cases s.spelled.1 <;> rfl

theorem spelled_of_arith? {k : ArithKind} (h : s.arith? = some k) : s.spelled.1 = .arith k := by
  cases s with
  | name a r =>
    have h : ArithKind.ofName? a = some k := h
    rw [spelled, Signature.named, h]
  | _ => cases h

theorem spelled_of_isVoid (h : s.isVoid = true) : ∃ c, s.spelled = (.void, c) := by
  cases s with
  | name a r =>
    obtain rfl := beq_iff_eq.mp h
    exact ⟨r, rfl⟩
  | _ => cases h

/-- A shape whose constness is added has a name. -/
theorem spelled_of_isReadonly (hne : a ≠ s) (h : a.unqualified = s.unqualified)
    (hs : s.isReadonly = true) : a.spelled = s.spelled ∨
      ∃ target, (∀ c, target.pointerMarked c = .pointer target c) ∧
        a.spelled = (target, false) ∧ s.spelled = (target, true) := by
  have ha := eq_of_unqualified h
  cases s with
  | name x r =>
    obtain ⟨r', rfl⟩ := ha
    obtain rfl : r = true := hs
    have hr : r' = false := by
      cases r' with
      | false => rfl
      | true => exact absurd rfl hne
    subst hr
    refine .inr ⟨Signature.named x, fun c => ?_, rfl, rfl⟩
    rw [Signature.named]
    split
    · rfl
    · split <;> rfl
  | struct x r =>
    obtain ⟨r', rfl⟩ := ha
    obtain rfl : r = true := hs
    have hr : r' = false := by
      cases r' with
      | false => rfl
      | true => exact absurd rfl hne
    subst hr
    exact .inr ⟨_, fun _ => rfl, rfl, rfl⟩
  | template slot r =>
    obtain ⟨r', rfl⟩ := ha
    exact .inl rfl
  | _ => cases hs

end Shape

namespace Matcher

open Shape

variable {m : Matcher} {a t : Ty} {s s' : Shape}

/-- Types pass for one another if their shapes convert. -/
theorem passes_of_convertShape (hs : s.spelled = (a.decayed, false)) (hs' : s'.spelled = (t.decayed, false))
    (h : (m.convertShape s s').isSome = true) : a.Passes t := by
  have ha : s.spelled.1 = a.decayed := congrArg Prod.fst hs
  have ht : s'.spelled.1 = t.decayed := congrArg Prod.fst hs'
  obtain heq | ⟨j, k, hj, hk⟩ | ⟨x, y, rfl, rfl⟩ | ⟨ret, params, isVariadic, rfl, rfl⟩ :=
    m.cases_of_convertShape h
  · refine .same ?_
    rw [← ha, ← ht, ← spelled_unqualified s, heq, spelled_unqualified]
  · rw [spelled_of_arith? hj] at ha
    rw [spelled_of_arith? hk] at ht
    exact .number (by rw [← Ty.isArith_decayed, ← ha]; rfl) (by rw [← Ty.isArith_decayed, ← ht]; rfl)
  · have hpa : a.decayed.isPointer = true := ha ▸ isPointer_spelled x
    have hpt : t.decayed.isPointer = true := ht ▸ isPointer_spelled y
    rw [spelled] at ha ht
    rw [convertShape_pointer] at h
    by_cases hxy : x = y
    · exact .same (by rw [← ha, ← ht, hxy])
    rw [if_neg hxy] at h
    by_cases hvoid : (x.isVoid || y.isVoid) = true
    · obtain hx | hy := Bool.or_eq_true_iff.mp hvoid
      · obtain ⟨c, hx⟩ := spelled_of_isVoid hx
        exact .fromVoid (by rw [← ha, hx]; rfl) hpt
      · obtain ⟨c, hy⟩ := spelled_of_isVoid hy
        exact .toVoid hpa (by rw [← ht, hy]; rfl)
    rw [if_neg hvoid] at h
    by_cases hconst : x.unqualified = y.unqualified ∧ y.isReadonly = true
    · obtain hsame | ⟨target, htarget, hx, hy⟩ := spelled_of_isReadonly hxy hconst.1 hconst.2
      · exact .same (by rw [← ha, ← ht, hsame])
      · have hpointer : a.decayed = .pointer target false := by rw [← ha, hx]; exact htarget false
        exact .addConst hpointer (by rw [← ht, hy]; exact htarget true)
    · rw [if_neg hconst] at h
      cases h
  · refine .pointerTo (f := ⟨ret.spelled.1, spelledParams params, isVariadic⟩) ?_ ?_
    · rw [← ha, spelled]
    · rw [← ht, spelled, spelled]
      rfl

theorem convertShape_self (s : Shape) : m.convertShape s s = some .copy := by
  unfold convertShape
  rw [if_pos (beq_self_eq_true _)]

theorem isSome_convertShape_arith {j k : ArithKind} (hj : s.arith? = some j)
    (hk : s'.arith? = some k) : (m.convertShape s s').isSome = true := by
  unfold convertShape
  split
  · rfl
  · rw [hj, hk]
    rfl

theorem isSome_convertShape_pointer {x y : Shape} (h : x.isVoid = true ∨ y.isVoid = true ∨
    x.unqualified = y.unqualified ∧ y.isReadonly = true) :
    (m.convertShape (.pointer x) (.pointer y)).isSome = true := by
  rw [convertShape_pointer]
  split
  · rfl
  · split
    · rfl
    · rename_i hvoid
      rw [Bool.or_eq_true_iff, not_or] at hvoid
      rw [if_pos ((h.resolve_left hvoid.1).resolve_left hvoid.2)]
      rfl

theorem convertShape_function (ret : Shape) (params : List (Shape × Bool)) (isVariadic : Bool) :
    m.convertShape (.function ret params isVariadic) (.pointer (.function ret params isVariadic)) =
      some .copy := by
  unfold convertShape
  split
  · rfl
  · simp [arith?]

end Matcher

namespace Ty

open Shape

variable {a t : Ty} {s s' : Shape} {c d : Bool}

theorem shape?_eq_of_decayed (ha : a.constNamed = true) (ht : t.constNamed = true)
    (h : a.decayed = t.decayed) : a.shape? false = t.shape? false := by
  rw [← ofType?_ofType, ← ofType?_ofType, ← Signature.ofType_decayed a (flat_of_constNamed a ha), h,
    Signature.ofType_decayed t (flat_of_constNamed t ht)]

theorem pointerMarked_eq_pointer {u : Ty} (h : u.pointerMarked c = .pointer t d) : u = t ∧ c = d := by
  cases u <;> cases h <;> exact ⟨rfl, rfl⟩

/-- Types that decay to pointers have the shape of pointers. -/
theorem shape?_of_isPointer_decayed (h : a.decayed.isPointer = true) (hs : a.shape? false = some s) :
    ∃ x, s = .pointer x := by
  cases a with
  | pointer target isConst =>
    obtain ⟨x, rfl, -⟩ := shape?_pointer hs
    exact ⟨x, rfl⟩
  | array | functionPointer =>
    obtain ⟨x, -, rfl⟩ := Option.map_eq_some_iff.mp hs
    exact ⟨x, rfl⟩
  | _ => cases h

/-- Types that decay to data pointers point to something. -/
theorem shape?_of_decayed_pointer (h : a.decayed = .pointer t c) (hs : a.shape? false = some s) :
    ∃ (u : Ty) (x : Shape), s = .pointer x ∧ u.shape? c = some x ∧ u.decayed = t ∧
      (a.constNamed = true → c = true → u.isNamed = true) := by
  cases a with
  | pointer target isConst =>
    rw [decayed] at h
    obtain ⟨hd, rfl⟩ := pointerMarked_eq_pointer h
    obtain ⟨x, rfl, hx⟩ := shape?_pointer hs
    refine ⟨target, x, rfl, hx, hd, fun hn hc => ?_⟩
    simp only [constNamed, Bool.and_eq_true, Bool.or_eq_true, Bool.not_eq_true'] at hn
    simpa [hc] using hn.1
  | array element n =>
    rw [decayed] at h
    obtain ⟨hd, rfl⟩ := pointerMarked_eq_pointer h
    obtain ⟨x, hx, rfl⟩ := Option.map_eq_some_iff.mp hs
    exact ⟨element, x, rfl, hx, hd, fun _ h => by cases h⟩
  | void | marker | arith | struct | functionPointer | function => cases h

theorem isNamed_decayed (t : Ty) : t.decayed.isNamed = t.isNamed := by
  cases t with
  | pointer target c =>
    rw [decayed]
    cases target.decayed <;> rfl
  | array element n =>
    rw [decayed]
    cases element.decayed <;> rfl
  | _ => rfl

theorem isVoid_of_decayed {x : Shape} (h : t.decayed = .void) (hx : t.shape? c = some x) :
    x.isVoid = true := by
  have hnamed : t.isNamed = true := by rw [← isNamed_decayed, h]; rfl
  cases t with
  | void =>
    cases hx
    rfl
  | marker | arith | struct => cases h
  | _ => cases hnamed

theorem eq_function_of_decayed {f : FunctionTy} (h : t.decayed = .function f) :
    ∃ g, t = .function g ∧ decayedFunction g = f := by
  have hfunction : t.isFunction = true := by rw [← isFunction_decayed, h]; rfl
  cases t with
  | function g =>
    cases h
    exact ⟨g, rfl, rfl⟩
  | _ => cases hfunction

/-- Types of one name have shapes that differ in constness at most. -/
theorem unqualified_of_isNamed {x y : Shape} (ht : t.isNamed = true) (h : a.decayed = t.decayed)
    (hx : a.shape? c = some x) (hy : t.shape? d = some y) : x.unqualified = y.unqualified := by
  have ha : a.isNamed = true := by rw [← isNamed_decayed, h, isNamed_decayed, ht]
  cases t with
  | void | marker | arith | struct =>
    cases hy
    cases a <;> cases ha <;> cases h
    cases hx
    rfl
  | _ => cases ht

/-- Constness before a type with a name is that of its shape. -/
theorem isReadonly_of_isNamed {y : Shape} (ht : t.isNamed = true) (hy : t.shape? true = some y) :
    y.isReadonly = true := by
  cases t <;> cases ht <;> cases hy <;> rfl

end Ty

namespace Matcher

open Shape Ty

variable {m : Matcher} {a t : Ty} {s s' : Shape}

/-- A type passes for itself as it is. -/
theorem convertShape_of_same (ha : a.constNamed = true) (ht : t.constNamed = true)
    (hs : a.shape? false = some s) (hs' : t.shape? false = some s') (h : a.decayed = t.decayed) :
    m.convertShape s s' = some .copy := by
  rw [shape?_eq_of_decayed ha ht h, hs', Option.some.injEq] at hs
  subst hs
  exact convertShape_self _

/-- A function passes for the pointer to it as it is. -/
theorem convertShape_of_pointerTo {f : FunctionTy} (ha : a.constNamed = true)
    (ht : t.constNamed = true) (hs : a.shape? false = some s) (hs' : t.shape? false = some s')
    (hf : a.decayed = .function f) (hp : t.decayed = .functionPointer f) :
    m.convertShape s s' = some .copy := by
  obtain ⟨g, rfl, rfl⟩ := eq_function_of_decayed hf
  have hpointer : (functionPointer g).shape? false = t.shape? false := by
    refine shape?_eq_of_decayed ha ht ?_
    rw [hp, decayed]
  have hs : functionShape? g = some s := hs
  rw [hs', shape?, hs, Option.map_some, Option.some.injEq] at hpointer
  obtain ⟨ret, params, rfl⟩ := functionShape?_eq_some hs
  rw [← hpointer]
  exact convertShape_function ret params g.variadic

/-- Shapes convert if their types pass for one another. -/
theorem convertShape_of_passes (ha : a.constNamed = true) (ht : t.constNamed = true)
    (hs : a.shape? false = some s) (hs' : t.shape? false = some s') (h : a.Passes t) :
    (m.convertShape s s').isSome = true := by
  cases h with
  | same h =>
    rw [convertShape_of_same ha ht hs hs' h]
    rfl
  | number hk hj =>
    cases a <;> cases hk
    cases t <;> cases hj
    cases hs
    cases hs'
    exact isSome_convertShape_arith (ArithKind.ofName?_name _) (ArithKind.ofName?_name _)
  | toVoid hp hv =>
    obtain ⟨x, rfl⟩ := shape?_of_isPointer_decayed hp hs
    obtain ⟨u, y, rfl, hy, hu, -⟩ := shape?_of_decayed_pointer hv hs'
    exact isSome_convertShape_pointer (.inr (.inl (isVoid_of_decayed hu hy)))
  | fromVoid hv hp =>
    obtain ⟨y, rfl⟩ := shape?_of_isPointer_decayed hp hs'
    obtain ⟨u, x, rfl, hx, hu, -⟩ := shape?_of_decayed_pointer hv hs
    exact isSome_convertShape_pointer (.inl (isVoid_of_decayed hu hx))
  | addConst hp hc =>
    obtain ⟨u, x, rfl, hx, hu, -⟩ := shape?_of_decayed_pointer hp hs
    obtain ⟨w, y, rfl, hy, hw, hnamed⟩ := shape?_of_decayed_pointer hc hs'
    have hname := hnamed ht rfl
    exact isSome_convertShape_pointer (.inr (.inr
      ⟨unqualified_of_isNamed hname (hu.trans hw.symm) hx hy, isReadonly_of_isNamed hname hy⟩))
  | pointerTo hf hp =>
    rw [convertShape_of_pointerTo ha ht hs hs' hf hp]
    rfl

end Matcher

end Stepwise
