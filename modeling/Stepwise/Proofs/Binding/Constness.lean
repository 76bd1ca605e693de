import Stepwise.Proofs.Binding.Passing
import Stepwise.Proofs.Binding.Viable

/-! # Where constness goes

A signature has one place for the mark of a constant, in front of the whole type. What marks
an argument as read-only stands in the place of what marks the target of a pointer: a
read-only pointer is read as a pointer to constants, and two marks on the way to one name
are not read at all. On every other type the mark of an argument passed by value is lost.
-/

namespace Stepwise

namespace Ty

/-- The pointer to a constant of the type, with its mark where a signature has it. A constant
that points to a constant has none. -/
def constPointer? : Ty → Option Ty
  | pointer target isConst => if isConst then none else (constPointer? target).map (pointer · false)
  | array element _ => (constPointer? element).map (pointer · false)
  | functionPointer f => some (pointer (functionPointer f) false)
  | function f => some (pointer (function f) false)
  | t => some (pointer t true)

/-- The type that an argument is read as which is read-only. -/
def asReadonly? : Ty → Option Ty
  | pointer target isConst => if isConst then none else constPointer? target
  | array element _ => constPointer? element
  | t => some t

/-- An array passed by value is the pointer to its elements. -/
def elementsDecayed : Ty → Ty
  | array element _ => pointer element false
  | t => t

/-- How many of the pointers on the way to the name of the type point to something constant. -/
def constMarks : Ty → Nat
  | pointer target isConst => constMarks target + isConst.toNat
  | array element _ => constMarks element
  | _ => 0

mutual

/-- No name inside the type is reached over two constants. -/
def singlyConst : Ty → Bool
  | pointer target isConst => decide (constMarks target + isConst.toNat ≤ 1) && singlyConst target
  | array element _ => singlyConst element
  | functionPointer f | function f => singlyConstFunction f
  | _ => true

def singlyConstFunction : FunctionOf Ty → Bool
  | ⟨ret, params, _⟩ => singlyConst ret && singlyConstParams params

def singlyConstParams : List (ParamOf Ty) → Bool
  | [] => true
  | p :: ps => singlyConstParam p && singlyConstParams ps

def singlyConstParam : ParamOf Ty → Bool
  | ⟨ty, reference, readonly, _⟩ =>
    decide (constMarks ty + (readonly && reference).toNat ≤ 1) && singlyConst ty

end

@[simp] theorem constMarks_functionPointer (f : FunctionTy) :
    (functionPointer f).constMarks = 0 := by
  rw [constMarks] <;> nofun

@[simp] theorem constMarks_function (f : FunctionTy) : (function f).constMarks = 0 := by
  rw [constMarks] <;> nofun

/-- A type whose names are reached over one constant each has one constant on the way to its own. -/
theorem singlyConst_marks (t : Ty) :
    (decide (t.constMarks ≤ 1) && t.singlyConst) = t.singlyConst := by
  have hle : ∀ t : Ty, t.singlyConst = true → t.constMarks ≤ 1 := by
    intro t
    induction t using constMarks.induct with
    | case1 target isConst _ =>
      simp only [singlyConst, Bool.and_eq_true, decide_eq_true_eq]
      exact And.left
    | case2 element _ ih => exact ih
    | case3 t hpointer harray =>
      intro _
      rw [constMarks] <;> first | assumption | exact Nat.zero_le 1
  simpa using hle t

mutual

/-- A type is read unless a name inside it, or its own, is reached over two constants. -/
theorem isSome_shape? (c : Bool) : ∀ t : Ty,
    (t.shape? c).isSome = (decide (t.constMarks + c.toNat ≤ 1) && t.singlyConst)
  | pointer target isConst => by
    have ih := isSome_shape? (c || isConst) target
    rw [shape?, constMarks, singlyConst]
    cases c <;> cases isConst <;> simp at ih ⊢
    · exact ih
    · exact ih
    · rw [ih, singlyConst_marks]
  | array element _ => by
    rw [shape?, Option.isSome_map, isSome_shape? c element, constMarks, singlyConst]
  | functionPointer f => by
    rw [shape?, Option.isSome_map, isSome_functionShape? f, constMarks_functionPointer, singlyConst]
    cases c <;> rfl
  | function f => by
    rw [shape?, isSome_functionShape? f, constMarks_function, singlyConst]
    cases c <;> rfl
  | void | marker | arith _ | struct .. => by cases c <;> rfl

theorem isSome_functionShape? : ∀ f : FunctionOf Ty,
    (functionShape? f).isSome = singlyConstFunction f
  | ⟨ret, params, _⟩ => by
    have hret : (ret.shape? false).isSome = ret.singlyConst := by
      rw [isSome_shape? false ret]
      exact singlyConst_marks ret
    rw [functionShape?, singlyConstFunction, ← hret, ← isSome_paramShapes? params]
    cases ret.shape? false <;> cases paramShapes? params <;> rfl

theorem isSome_paramShapes? : ∀ ps : List (ParamOf Ty),
    (paramShapes? ps).isSome = singlyConstParams ps
  | [] => rfl
  | p :: ps => by
    rw [paramShapes?, singlyConstParams, ← isSome_paramShape? p, ← isSome_paramShapes? ps]
    cases paramShape? p <;> cases paramShapes? ps <;> rfl

theorem isSome_paramShape? : ∀ p : ParamOf Ty, (paramShape? p).isSome = singlyConstParam p
  | ⟨ty, reference, readonly, _⟩ => by
    rw [paramShape?, singlyConstParam, ← isSome_shape? (readonly && reference) ty]
    cases ty.shape? (readonly && reference) <;> rfl

end

theorem isSome_shape?_false (t : Ty) : (t.shape? false).isSome = t.singlyConst := by
  rw [isSome_shape? false t]
  exact singlyConst_marks t

/-- Under one more pointer, a type is read as what it is read as under one more pointer mark. -/
theorem bind_shape?_map_pointer (o : Option Ty) :
    (o.map (pointer · false)).bind (shape? false) = (o.bind (shape? false)).map .pointer := by
  cases o <;> rfl

/-- The pointer to a constant is read as a pointer mark behind the constant. -/
theorem bind_shape?_constPointer? : ∀ t : Ty,
    t.constPointer?.bind (shape? false) = (t.shape? true).map .pointer
  | pointer target true => rfl
  | pointer target false => by
    rw [constPointer?, if_neg Bool.false_ne_true, bind_shape?_map_pointer,
      bind_shape?_constPointer? target]
    rfl
  | array element _ => by
    rw [constPointer?, bind_shape?_map_pointer, bind_shape?_constPointer? element]
    rfl
  | functionPointer _ | function _ | void | marker | arith _ | struct .. => rfl

/-- On a type without a name of its own, the mark of a constant is that of what it is read as. -/
theorem bind_shape?_asReadonly? {t : Ty} (ht : t.isNamed = false) :
    t.asReadonly?.bind (shape? false) = t.shape? true := by
  cases t with
  | pointer target isConst =>
    cases isConst with
    | true => rfl
    | false => exact bind_shape?_constPointer? target
  | array element n => exact bind_shape?_constPointer? element
  | functionPointer f | function f => rfl
  | _ => cases ht

theorem asReadonly?_of_isNamed {t : Ty} (ht : t.isNamed = true) : t.asReadonly? = some t := by
  cases t <;> first | rfl | cases ht

/-- On a type with a name, the mark of a constant is lost without the qualifiers. -/
theorem unqualified_shape? {t : Ty} (ht : t.isNamed = true) :
    ∃ s s', t.shape? true = some s ∧ t.shape? false = some s' ∧
      s.unqualified = s'.unqualified := by
  cases t <;> first | exact ⟨_, _, rfl, rfl, rfl⟩ | cases ht

/-- Only arrays decay where elements do, and they are read as what they decay to. -/
theorem shape?_elementsDecayed (t : Ty) : t.elementsDecayed.shape? false = t.shape? false := by
  cases t <;> rfl

end Ty

namespace Shape

def isReference : Shape → Bool
  | reference _ => true
  | _ => false

/-- No type is read as a reference. -/
theorem isReference_of_shape? {t : Ty} {c : Bool} {s : Shape} (h : t.shape? c = some s) :
    s.isReference = false := by
  cases s with
  | reference r => exact (Ty.of_shape? h).elim
  | _ => rfl

end Shape

namespace Matcher

variable (m : Matcher) {bindings : List Shape} {a b p : Shape}

/-- A value converts as what it has a name for, whatever its own constness. -/
theorem convertShape_congr (h : a.unqualified = b.unqualified) (p : Shape) :
    m.convertShape a p = m.convertShape b p := by
  have hb := Shape.eq_of_unqualified h
  cases b with
  | name | struct | template =>
    obtain ⟨r, rfl⟩ := hb
    rfl
  | _ => rw [hb]

theorem convertValue_congr (h : a.unqualified = b.unqualified) (p : Shape) :
    m.convertValue bindings a p = m.convertValue bindings b p := by
  rw [convertValue, convertValue]
  cases substitute bindings p with
  | none => rfl
  | some q =>
    cases q with
    | none => rfl
    | some q => exact m.convertShape_congr h q

/-- A parameter that is no reference takes the value of its argument, lvalue or not. -/
theorem convert_of_value (hp : p.isReference = false) (ha : a.isReference = false) (lvalue : Bool) :
    m.convert bindings (if lvalue then .reference a else a) p = m.convertValue bindings a p := by
  cases p with
  | reference => cases hp
  | _ =>
    cases lvalue with
    | true => rfl
    | false =>
      cases a with
      | reference => cases ha
      | _ => rfl

/-- One argument may be exchanged for another that is bound to its parameter in the same way. -/
theorem bindAll_congr {variadic : Bool} {before after : List (Shape × Bool)} {x y : Shape × Bool}
    {params : List (Shape × Bool)}
    (h : ∀ p ∈ params[before.length]?, m.convert bindings x.1 p.1 = m.convert bindings y.1 p.1) :
    m.bindAll bindings variadic (before ++ x :: after) params =
      m.bindAll bindings variadic (before ++ y :: after) params := by
  induction before generalizing params with
  | nil =>
    cases params with
    | nil => rfl
    | cons p params =>
      have hp : m.convert bindings x.1 p.1 = m.convert bindings y.1 p.1 := h p rfl
      rw [List.nil_append, List.nil_append, bindAll, bindAll, hp]
  | cons z before ih =>
    cases params with
    | nil => simp [bindAll]
    | cons p params =>
      rw [List.cons_append, List.cons_append, bindAll, bindAll, ih h]

/-- The parameter at index `i` that the matcher reads in the candidate, if it reads one, is no
reference. -/
def ByValue (candidate : Signature) (i : Nat) : Prop :=
  ∀ ret params variadic,
    Shape.ofSignature? m.rule candidate = some (.function ret params variadic) →
    ∀ p ∈ params[i]?, p.1.isReference = false

/-- The actions that bind arguments of the given shapes to what is read in a candidate. -/
def bindShapes (templates : List Signature) (shapes : List Shape) : Shape → Option (List ArgAction)
  | .function _ params variadic =>
    (templates.mapM Shape.ofType?).bind fun bindings =>
      m.bindAll bindings variadic (shapes.map (·, false)) params
  | _ => none

theorem matchFunction_eq (args : List ArgSig) (candidate : Signature) (templates : List Signature) :
    m.matchFunction (.ofCall args) candidate templates =
      (args.mapM ArgSig.shape?).bind fun ss =>
        (Shape.ofSignature? m.rule candidate).bind (m.bindShapes templates ss) := by
  rw [matchFunction, Shape.ofSignature?_ofCall]
  cases args.mapM ArgSig.shape? with
  | none => rfl
  | some ss =>
    cases Shape.ofSignature? m.rule candidate with
    | none => rfl
    | some c =>
      cases c with
      | function ret params variadic =>
        exact Option.bind_congr fun bindings _ => m.ite_takes_bindAll bindings variadic _ params
      | _ => rfl

/-- What binding comes to if one of the arguments is of the given shape. -/
def bindWith (before after : List ArgSig) (candidate : Signature) (templates : List Signature)
    (s : Shape) : Option (List ArgAction) :=
  (before.mapM ArgSig.shape?).bind fun ss => (after.mapM ArgSig.shape?).bind fun ss' =>
    (Shape.ofSignature? m.rule candidate).bind (m.bindShapes templates (ss ++ s :: ss'))

theorem matchFunction_bindWith (before after : List ArgSig) (a : ArgSig) (candidate : Signature)
    (templates : List Signature) :
    m.matchFunction (.ofCall (before ++ a :: after)) candidate templates =
      a.shape?.bind (m.bindWith before after candidate templates) := by
  rw [matchFunction_eq, List.mapM_append, List.mapM_cons]
  unfold bindWith
  cases before.mapM ArgSig.shape? <;> cases a.shape? <;> cases after.mapM ArgSig.shape? <;> rfl

/-- Where the parameter is no reference, shapes that differ in their own constness are bound in
the same way. -/
theorem bindWith_congr {before after : List ArgSig} {candidate : Signature}
    (templates : List Signature) (hvalue : m.ByValue candidate before.length)
    (h : a.unqualified = b.unqualified) (ha : a.isReference = false) (hb : b.isReference = false)
    (lvalue : Bool) :
    m.bindWith before after candidate templates (if lvalue then .reference a else a) =
      m.bindWith before after candidate templates (if lvalue then .reference b else b) := by
  refine Option.bind_congr fun ss hss => Option.bind_congr fun ss' _ => ?_
  refine Option.bind_congr fun c hc => ?_
  have hlength : ss.length = before.length := (mapM_eq_some_iff.mp hss).length_eq.symm
  cases c with
  | function ret params variadic =>
    refine Option.bind_congr fun bindings _ => ?_
    simp only [List.map_append, List.map_cons]
    refine m.bindAll_congr fun p hp => ?_
    rw [List.length_map, hlength] at hp
    have hp' := hvalue ret params variadic hc p hp
    rw [m.convert_of_value hp' ha lvalue, m.convert_of_value hp' hb lvalue, m.convertValue_congr h]
  | _ => rfl

/-- A read-only argument is bound as an argument is that may be written, of the type that it is
read as: a pointer as one to constants, if it is read at all, and any other type as itself where
it is passed by value. -/
theorem matchFunction_readonly (before after : List ArgSig) (t : Ty) (lvalue : Bool)
    (candidate : Signature) (templates : List Signature)
    (hvalue : t.isNamed = true → m.ByValue candidate before.length) :
    m.matchFunction (.ofCall (before ++ ⟨t, lvalue, true⟩ :: after)) candidate templates =
      t.asReadonly?.bind fun u =>
        m.matchFunction (.ofCall (before ++ ⟨u, lvalue, false⟩ :: after)) candidate templates := by
  simp only [matchFunction_bindWith, ArgSig.shape?]
  cases ht : t.isNamed with
  | false =>
    rw [← Ty.bind_shape?_asReadonly? ht]
    cases t.asReadonly? <;> rfl
  | true =>
    obtain ⟨s, s', hs, hs', h⟩ := Ty.unqualified_shape? ht
    rw [Ty.asReadonly?_of_isNamed ht, Option.bind_some, hs, hs']
    exact m.bindWith_congr templates (hvalue ht) h (Shape.isReference_of_shape? hs)
      (Shape.isReference_of_shape? hs') lvalue

theorem matchFunction_readonly_int :
    (Ty.int.isNamed = true → ByValue ⟨.type, {}⟩ (.ofFunction ⟨.void, [.plain .int], false⟩) 0) ∧
    Matcher.matchFunction ⟨.type, {}⟩ (.ofCall [⟨.int, true, true⟩])
        (.ofFunction ⟨.void, [.plain .int], false⟩) [] =
      Matcher.matchFunction ⟨.type, {}⟩ (.ofCall [⟨.int, true, false⟩])
        (.ofFunction ⟨.void, [.plain .int], false⟩) [] := by
  have hvalue : ByValue ⟨.type, {}⟩ (.ofFunction ⟨.void, [.plain .int], false⟩) 0 := by
    intro ret params variadic hf p hp
    rw [Shape.ofSignature?_ofFunction] at hf
    cases hf
    cases hp
    rfl
  exact ⟨fun _ => hvalue, matchFunction_readonly ⟨.type, {}⟩ [] [] .int true _ [] fun _ => hvalue⟩

/-- A pointer variable that is constant itself is read as a pointer to constants, so that it cannot
be passed for a pointer to what it points to. -/
theorem readonly_pointer_refused :
    ¬ ∀ (m : Matcher) (before after : List ArgSig) (t : Ty) (lvalue : Bool) (candidate : Signature)
      (templates : List Signature), t.isArray = false → m.ByValue candidate before.length →
      m.matchFunction (.ofCall (before ++ ⟨t, lvalue, true⟩ :: after)) candidate templates =
        m.matchFunction (.ofCall (before ++ ⟨t, lvalue, false⟩ :: after)) candidate templates := by
  intro h
  let f : FunctionTy := ⟨.void, [.plain (.pointer .int false)], false⟩
  have hvalue : ByValue ⟨.type, {}⟩ (.ofFunction f) 0 := by
    intro ret params variadic hf p hp
    rw [Shape.ofSignature?_ofFunction] at hf
    cases hf
    cases hp
    rfl
  have heq := h ⟨.type, {}⟩ [] [] (.pointer .int false) true (.ofFunction f) [] rfl hvalue
  rw [List.nil_append, List.nil_append, matchFunction_ofCall, matchFunction_ofCall] at heq
  cases heq

section Own

open Shape

/-- What a signature reads for a type converts to itself as a copy. -/
theorem convertValue_self {t : Ty} {s : Shape} (hs : t.shape? false = some s) :
    m.convertValue bindings s s = some .copy := by
  have hsub : substitute bindings s = some (some s) := by
    cases s with
    | template slot r => exact (Ty.of_shape? hs).elim
    | _ => rfl
  rw [convertValue, hsub]
  exact if_pos (beq_self_eq_true _)

/-- The shape of a parameter passed by value is that of an argument of its type. -/
theorem shape?_of_paramShape? {p : ParamTy} {q : Shape × Bool} (hvalue : p.reference = false)
    (hq : Ty.paramShape? p = some q) : p.ty.shape? false = some q.1 := by
  obtain ⟨ty, reference, readonly, optional⟩ := p
  obtain rfl : reference = false := hvalue
  simp only [Ty.paramShape?, Bool.and_false, Option.bind_eq_bind, Option.bind_eq_some_iff] at hq
  obtain ⟨s, hs, hq⟩ := hq
  cases hq
  exact hs

/-- Arguments of the types of the parameters are read, and each is bound as a copy. -/
theorem bindAll_own {variadic : Bool} {params : List ParamTy} {qs : List (Shape × Bool)}
    (h : List.Forall₂ (fun p q => Ty.paramShape? p = some q) params qs)
    (hvalue : ∀ p ∈ params, p.reference = false) :
    (params.map fun p => ArgSig.rvalue p.ty.elementsDecayed).mapM ArgSig.shape? =
        some (qs.map Prod.fst) ∧
      m.bindAll bindings variadic ((qs.map Prod.fst).map (·, false)) qs =
        some (params.map fun _ => .copy) := by
  induction h with
  | nil => exact ⟨rfl, rfl⟩
  | @cons p q params qs hq _ ih =>
    obtain ⟨hshapes, hactions⟩ := ih fun p hp => hvalue p (List.mem_cons_of_mem _ hp)
    have hs : p.ty.shape? false = some q.1 := shape?_of_paramShape? (hvalue p List.mem_cons_self) hq
    have harg : (ArgSig.rvalue p.ty.elementsDecayed).shape? = some q.1 := by
      rw [ArgSig.shape?, ArgSig.rvalue, Ty.shape?_elementsDecayed, hs]
      rfl
    have hconvert : m.convert bindings q.1 q.1 = some .copy := by
      have hr := isReference_of_shape? hs
      rw [← m.convertValue_self hs]
      exact m.convert_of_value hr hr false
    constructor
    · rw [List.map_cons, List.mapM_cons, harg, hshapes]
      rfl
    · simp only [List.map_cons, bindAll, hconvert, hactions]
      rfl

/-- A type is read unless a name in it is reached over two constants, and what is read spells it
as long as only types with names are constant. A function with a parameter that is not read is
matched by no call; any other one is matched by arguments of the types of its parameters, arrays
decayed, and copies each. -/
theorem matchFunction_own (t : Ty) (f : FunctionTy) :
    ((ofType? (.ofType t)).isSome = t.singlyConst ∧
      (t.constNamed = true →
        ∃ s, ofType? (.ofType t) = some s ∧ s.spelled = (t.decayed, false))) ∧
      (Ty.singlyConstParams f.params = false → ∀ (args : List ArgSig) (templates : List Signature),
        m.matchFunction (.ofCall args) (.ofFunction f) templates = none) ∧
      (Ty.singlyConstParams f.params = true → (∀ p ∈ f.params, p.reference = false) →
        m.matchFunction (.ofCall (f.params.map fun p => .rvalue p.ty.elementsDecayed))
          (.ofFunction f) [] = some (f.params.map fun _ => .copy)) := by
  refine ⟨?_, fun hread args templates => ?_, fun hread hvalue => ?_⟩
  · rw [ofType?_ofType]
    exact ⟨Ty.isSome_shape?_false t, fun h => Ty.exists_shape? false t h nofun⟩
  · have hnone : Ty.paramShapes? f.params = none := by
      rw [← Option.isSome_eq_false_iff.trans Option.isNone_iff_eq_none, Ty.isSome_paramShapes?,
        hread]
    rw [matchFunction_ofCall, hnone]
    cases args.mapM ArgSig.shape? <;> rfl
  · obtain ⟨qs, hqs⟩ : ∃ qs, Ty.paramShapes? f.params = some qs := by
      rw [← Option.isSome_iff_exists, Ty.isSome_paramShapes?, hread]
    have hread := mapM_eq_some_iff.mp (Ty.paramShapes?_eq_mapM f.params ▸ hqs)
    obtain ⟨hshapes, hactions⟩ : _ ∧ m.bindAll [] f.variadic _ qs = _ :=
      m.bindAll_own hread hvalue
    rw [matchFunction_ofCall, hshapes, hqs]
    exact hactions

theorem matchFunction_own_pointers :
    (Ty.singlyConstParams [.plain (.pointer (.pointer .int false) true)] = true ∧
      (∀ p ∈ [ParamOf.plain (.pointer (.pointer .int false) true)], p.reference = false)) ∧
    Matcher.matchFunction ⟨.type, {}⟩ (.ofCall [.rvalue (.pointer (.pointer .int false) true)])
      (.ofFunction ⟨.void, [.plain (.pointer (.pointer .int false) true)], false⟩) [] =
        some [.copy] := by
  refine ⟨⟨by decide, by decide⟩, ?_⟩
  exact (matchFunction_own ⟨.type, {}⟩ .int
    ⟨.void, [.plain (.pointer (.pointer .int false) true)], false⟩).2.2 (by decide) (by decide)

/-- A pointer to a constant pointer to constants is not read, so that a function that takes one
cannot be called. -/
theorem const_pointer_to_const_refused :
    ¬ ∀ (m : Matcher) (f : FunctionTy), f.variadic = false → (∀ p ∈ f.params, p.reference = false) →
      m.matchFunction (.ofCall (f.params.map fun p => .rvalue p.ty.elementsDecayed))
        (.ofFunction f) [] = some (f.params.map fun _ => .copy) := by
  intro h
  let f : FunctionTy := ⟨.void, [.plain (.pointer (.pointer .int true) true)], false⟩
  have hnone : Matcher.matchFunction ⟨.type, {}⟩
      (.ofCall [.rvalue (.pointer (.pointer .int true) true)]) (.ofFunction f) [] = none := by
    rw [matchFunction_ofCall]
    rfl
  have hsome := h ⟨.type, {}⟩ f rfl (by decide)
  cases hnone.symm.trans hsome

end Own

end Matcher

end Stepwise
