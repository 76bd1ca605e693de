import Stepwise.Overload.Match

/-! # Shapes of types

What a matcher reads in the signatures of types, calls and functions. The mark of a constant
goes to the name under all pointer marks, wherever it stood in the type; two of them cannot
be read, and a function under pointer marks has none.
-/

namespace Stepwise

namespace Ty

mutual

/-- The shape of a type that comes after the mark of a constant if it is readonly. -/
def shape? (readonly : Bool) : Ty → Option Shape
  | void => some (.name "void" readonly)
  | marker => some (.name "dummy" readonly)
  | arith k => some (.name k.name readonly)
  | struct name _ => some (.struct name readonly)
  | pointer target isConst =>
    if readonly && isConst then none else (shape? (readonly || isConst) target).map .pointer
  | array element _ => (shape? readonly element).map .pointer
  | functionPointer f => (functionShape? f).map .pointer
  | function f => functionShape? f

def functionShape? : FunctionOf Ty → Option Shape
  | ⟨ret, params, variadic⟩ => do
    return .function (← shape? false ret) (← paramShapes? params) variadic

/-- The shapes of parameters, each with whether it is optional. -/
def paramShapes? : List (ParamOf Ty) → Option (List (Shape × Bool))
  | [] => some []
  | p :: ps => do return (← paramShape? p) :: (← paramShapes? ps)

def paramShape? : ParamOf Ty → Option (Shape × Bool)
  | ⟨ty, reference, readonly, optional⟩ => do
    let s ← shape? (readonly && reference) ty
    return (if reference then .reference s else s, optional)

end

end Ty

/-- The shape of an argument: lvalues come as references. -/
def ArgSig.shape? (a : ArgSig) : Option Shape :=
  (a.ty.shape? a.readonly).map fun s => if a.lvalue then .reference s else s

namespace Shape

/-- What was read, and the tokens after it. -/
def Read.pair {ts : Signature} {α : Type} (r : Read ts α) : α × Signature := (r.value, r.rest)

/-- The type at the beginning of the tokens, and the tokens after it. -/
def type? (ts : Signature) : Option (Shape × Signature) := (readType ts).map Read.pair

def function? (ts : Signature) : Option (Shape × Signature) := (readFunction ts).map Read.pair

def params? (params : List (Shape × Bool)) (variadic : Bool) (ts : Signature) :
    Option ((List (Shape × Bool) × Bool) × Signature) :=
  (readParams params variadic ts).map Read.pair

/-- The parameter at the beginning of the tokens, and the tokens after it. -/
def param? (ts : Signature) : Option ((Shape × Bool) × Signature) :=
  (type? ts).map fun r => ((r.1, (skip .optional r.2).1), (skip .optional r.2).2)

/-- Marks that a type may have after it. -/
def marks (pointers : Nat) (isReference : Bool) : Signature :=
  List.replicate pointers .pointer ++ if isReference then [.reference] else []

/-- The shape under marks. -/
def under : (pointers : Nat) → (isReference : Bool) → Shape → Shape
  | 0, isReference, s => if isReference then .reference s else s
  | n + 1, isReference, s => under n isReference (.pointer s)

/-- The tokens do not begin with the mark of a pointer or a reference. -/
def Ends : Signature → Prop
  | .pointer :: _ | .reference :: _ => False
  | _ => True

/-- The tokens begin with no mark that stands behind a type. -/
def Begins : Signature → Prop
  | .pointer :: _ | .reference :: _ | .optional :: _ => False
  | _ => True

/-- The tokens begin a type. -/
def Opens : Signature → Prop
  | .const :: _ | .name _ :: _ | .struct _ :: _ | .function :: _ => True
  | _ => False

section Equations

variable {c : Bool} {rest : Signature}

theorem type?_name (a : String) :
    type? (Signature.constIf c ++ SigToken.name a :: rest) = some (marked (.name a c) rest) := by
  cases c <;> (rw [type?, readType]; rfl)

theorem type?_struct (a : String) :
    type? (Signature.constIf c ++ SigToken.struct a :: rest) =
      some (marked (.struct a c) rest) := by
  cases c <;> (rw [type?, readType]; rfl)

theorem type?_result : type? (SigToken.result :: rest) = some (marked .result rest) := by
  rw [type?, readType]
  rfl

theorem type?_const_const : type? (SigToken.const :: .const :: rest) = none := by
  rw [type?, readType]
  rfl

theorem type?_function :
    type? (Signature.constIf c ++ SigToken.function :: rest) =
      (function? rest).map fun r => marked r.1 r.2 := by
  cases c <;>
    (rw [type?, readType, function?]; simp [skip, Signature.constIf]; cases readFunction rest <;> rfl)

theorem function?_of_type? {ts more : Signature} {ret : Shape}
    (h : type? ts = some (ret, .openParen :: more)) :
    function? ts = (params? [] false more).map fun r => (.function ret r.1.1 r.1.2, r.2) := by
  obtain ⟨r, hr, hp⟩ := Option.map_eq_some_iff.mp h
  obtain ⟨value, rest, hlt⟩ := r
  cases hp
  rw [function?, readFunction, hr, params?]
  dsimp only
  cases readParams [] false more <;> rfl

theorem function?_of_type?_none {ts : Signature} (h : type? ts = none) : function? ts = none := by
  rw [function?, readFunction, Option.map_eq_none_iff.mp h]
  rfl

variable {params : List (Shape × Bool)} {variadic : Bool}

theorem params?_closeParen :
    params? params variadic (.closeParen :: rest) = some ((params.reverse, variadic), rest) := by
  rw [params?, readParams]
  rfl

theorem params?_ellipsis :
    params? params variadic (.ellipsis :: rest) = params? params true rest := by
  rw [params?, readParams, params?]
  cases readParams params true rest <;> rfl

/-- What ends no parameter list and is no ellipsis is read as a parameter. -/
theorem params?_param {t : SigToken} {ts : Signature} (hclose : t ≠ .closeParen)
    (hellipsis : t ≠ .ellipsis) :
    params? params variadic (t :: ts) =
      (param? (t :: ts)).bind fun r => params? (r.1 :: params) variadic r.2 := by
  rw [param?, type?, params?, readParams]
  · dsimp only
    cases readType _ with
    | none => rfl
    | some r =>
      obtain ⟨s, rest, hlt⟩ := r
      simp only [Option.map_some, Option.bind_some, Read.pair, params?]
      cases readParams ((s, (skip .optional rest).1) :: params) variadic
        (skip .optional rest).2 <;> rfl
  · exact hclose
  · exact hellipsis

theorem params?_of_opens {ts : Signature} (h : Opens ts) :
    params? params variadic ts =
      (param? ts).bind fun r => params? (r.1 :: params) variadic r.2 := by
  cases ts with
  | nil => cases h
  | cons t ts => cases t <;> first | (cases h; done) | exact params?_param (by simp) (by simp)

end Equations

section Marks

variable {rest : Signature}

theorem marked_marks (hrest : Ends rest) (k : Nat) (r : Bool) (s : Shape) :
    marked s (marks k r ++ rest) = (under k r s, rest) := by
  induction k generalizing s with
  | zero =>
    cases r with
    | true => rfl
    | false =>
      cases rest with
      | nil => rfl
      | cons t rest => cases t <;> first | rfl | cases hrest
  | succ k ih => exact ih (.pointer s)

theorem begins_of_opens {ts : Signature} (h : Opens ts) : Begins ts := by
  cases ts with
  | nil => cases h
  | cons t ts => cases t <;> trivial

variable {more : Signature} (hmore : Begins more) (optional : Bool)

include hmore

theorem ends_optional : Ends ((if optional then [SigToken.optional] else []) ++ more) := by
  cases optional with
  | true => trivial
  | false =>
    cases more with
    | nil => trivial
    | cons t ts => cases t <;> trivial

theorem skip_optional :
    skip .optional ((if optional then [SigToken.optional] else []) ++ more) = (optional, more) := by
  cases optional with
  | true => rfl
  | false =>
    cases more with
    | nil => rfl
    | cons t ts => cases t <;> first | rfl | cases hmore

end Marks

section Types

open Signature

theorem opens_ofType (c : Bool) (more : Signature) :
    ∀ t : Ty, Opens (constIf c ++ (ofType t ++ more))
  | .pointer target isConst => by
    have h := opens_ofType isConst ([.pointer] ++ more) target
    cases c with
    | true => trivial
    | false => simpa [ofType, constIf] using h
  | .array element _ => by
    have h := opens_ofType c ([.pointer] ++ more) element
    simpa [ofType] using h
  | .functionPointer ⟨_, _, _⟩ | .function ⟨_, _, _⟩ => by cases c <;> trivial
  | .void | .marker | .arith _ | .struct .. => by cases c <;> trivial

theorem opens_ofParam (more : Signature) : ∀ p : ParamOf Ty, Opens (ofParam p ++ more)
  | ⟨ty, isReference, readonly, optional⟩ => by
    rw [ofParam]
    simp only [List.append_assoc]
    exact opens_ofType _ _ ty

/-- A parameter list with the end of its function, and the tokens after it. -/
def paramsTail (variadic : Bool) (rest : Signature) (ps : List (ParamOf Ty)) : Signature :=
  ofParams ps ++ ((if variadic then [.ellipsis] else []) ++ .closeParen :: rest)

/-- A function type after its mark, and the tokens after it. -/
def functionTail (rest : Signature) : FunctionOf Ty → Signature
  | ⟨ret, params, variadic⟩ => ofType ret ++ .openParen :: paramsTail variadic rest params

theorem ofFunctionType_append (rest : Signature) :
    ∀ f : FunctionOf Ty, ofFunctionType f ++ rest = .function :: functionTail rest f
  | ⟨ret, params, variadic⟩ => by simp [ofFunctionType, functionTail, paramsTail]

theorem begins_paramsTail (variadic : Bool) (rest : Signature) (ps : List (ParamOf Ty)) :
    Begins (paramsTail variadic rest ps) := by
  cases ps with
  | nil => cases variadic <;> trivial
  | cons p ps =>
    rw [paramsTail, ofParams, List.append_assoc]
    exact begins_of_opens (opens_ofParam _ p)

mutual

/-- A type is read from its signature, with the marks around it. -/
theorem type?_ofType {rest : Signature} (hrest : Ends rest) (c : Bool) (k : Nat) (r : Bool) :
    ∀ t : Ty, type? (constIf c ++ (ofType t ++ (marks k r ++ rest))) =
      (t.shape? c).map fun s => (under k r s, rest)
  | .void | .marker | .arith _ => by
    rw [ofType, List.singleton_append, type?_name, marked_marks hrest]
    rfl
  | .struct .. => by
    rw [ofType, List.singleton_append, type?_struct, marked_marks hrest]
    rfl
  | .array element n => by
    have ih := type?_ofType hrest c (k + 1) r element
    rw [ofType, List.append_assoc, Ty.shape?, Option.map_map]
    exact ih
  | .pointer target isConst => by
    have ih := type?_ofType hrest (c || isConst) (k + 1) r target
    rw [ofType, List.append_assoc, List.append_assoc, Ty.shape?]
    cases c with
    | false =>
      rw [Bool.false_and, if_neg Bool.false_ne_true, Option.map_map]
      exact ih
    | true =>
      cases isConst with
      | false =>
        rw [Bool.and_false, if_neg Bool.false_ne_true, Option.map_map]
        exact ih
      | true => exact type?_const_const
  | .functionPointer f => by
    have hf := function?_ofFunctionType (marks (k + 1) r ++ rest) f
    rw [ofType, List.append_assoc, ofFunctionType_append, type?_function, Ty.shape?,
      Option.map_map]
    refine (congrArg (Option.map fun q => marked q.1 q.2) hf).trans ?_
    rw [Option.map_map]
    simp only [Function.comp_def, marked_marks hrest]
    rfl
  | .function f => by
    have hf := function?_ofFunctionType (marks k r ++ rest) f
    rw [ofType, ofFunctionType_append, type?_function, Ty.shape?, hf, Option.map_map]
    simp only [Function.comp_def, marked_marks hrest]

theorem function?_ofFunctionType (rest : Signature) :
    ∀ f : FunctionOf Ty,
      function? (functionTail rest f) = (Ty.functionShape? f).map fun s => (s, rest)
  | ⟨ret, ps, variadic⟩ => by
    have hparen : Ends (.openParen :: paramsTail variadic rest ps) := trivial
    have hret := type?_ofType hparen false 0 false ret
    have hps := params?_ofParams variadic rest [] ps
    rw [functionTail, Ty.functionShape?]
    cases hs : ret.shape? false with
    | none =>
      rw [hs] at hret
      exact function?_of_type?_none hret
    | some s =>
      rw [hs] at hret
      refine (function?_of_type? hret).trans ?_
      rw [hps, Option.map_map]
      cases Ty.paramShapes? ps <;> rfl

theorem params?_ofParams (variadic : Bool) (rest : Signature) (qs : List (Shape × Bool)) :
    ∀ ps : List (ParamOf Ty),
      params? qs false (paramsTail variadic rest ps) =
        (Ty.paramShapes? ps).map fun ss => ((qs.reverse ++ ss, variadic), rest)
  | [] => by
    rw [paramsTail, ofParams, List.nil_append, Ty.paramShapes?, Option.map_some, List.append_nil]
    cases variadic with
    | true => exact params?_ellipsis.trans params?_closeParen
    | false => exact params?_closeParen
  | p :: ps => by
    have hp := param?_ofParam (begins_paramsTail variadic rest ps) p
    have ih (q : Shape × Bool) := params?_ofParams variadic rest (q :: qs) ps
    rw [paramsTail, ofParams, List.append_assoc, Ty.paramShapes?]
    refine (params?_of_opens (opens_ofParam (paramsTail variadic rest ps) p)).trans ?_
    rw [hp, Option.bind_map]
    cases Ty.paramShape? p with
    | none => rfl
    | some q =>
      refine (ih q).trans ?_
      cases Ty.paramShapes? ps <;> simp

theorem param?_ofParam {more : Signature} (hmore : Begins more) :
    ∀ p : ParamOf Ty, param? (ofParam p ++ more) = (Ty.paramShape? p).map fun q => (q, more)
  | ⟨ty, isReference, readonly, optional⟩ => by
    have hty := type?_ofType (ends_optional hmore optional) (readonly && isReference) 0
      isReference ty
    rw [marks, List.replicate_zero, List.nil_append] at hty
    rw [param?, ofParam, List.append_assoc, List.append_assoc, List.append_assoc, hty,
      Ty.paramShape?]
    cases ty.shape? (readonly && isReference) with
    | none => rfl
    | some s =>
      simp only [Option.map_some, skip_optional hmore]
      rfl

end

section Whole

theorem ofType?_of_type? {ts : Signature} {o : Option Shape}
    (h : type? ts = o.map fun s => (s, [])) : ofType? ts = o := by
  rw [ofType?]
  rw [type?] at h
  cases hr : readType ts with
  | none => rw [hr] at h; cases o <;> first | rfl | cases h
  | some r =>
    obtain ⟨value, rest, hlt⟩ := r
    rw [hr] at h
    cases o with
    | none => cases h
    | some s =>
      rw [Option.map_some, Option.map_some, Option.some.injEq] at h
      cases h
      rfl

theorem ofFunction?_of_function? {ts : Signature} {o : Option Shape}
    (h : function? ts = o.map fun s => (s, [])) : ofFunction? (.function :: ts) = o := by
  rw [ofFunction?]
  rw [function?] at h
  cases hr : readFunction ts with
  | none => rw [hr] at h; cases o <;> first | rfl | cases h
  | some r =>
    obtain ⟨value, rest, hlt⟩ := r
    rw [hr] at h
    cases o with
    | none => cases h
    | some s =>
      rw [Option.map_some, Option.map_some, Option.some.injEq] at h
      cases h
      rfl

/-- Both rules read a function in the same way. -/
theorem ofSignature?_of_function? {ts : Signature} {o : Option Shape}
    (h : function? ts = o.map fun s => (s, [])) (rule : SignatureRule) :
    ofSignature? rule (.function :: ts) = o := by
  cases rule with
  | function => exact ofFunction?_of_function? h
  | type =>
    refine ofType?_of_type? ((type?_function (c := false)).trans ?_)
    rw [h, Option.map_map]
    rfl

theorem ofType?_ofType (t : Ty) : ofType? (ofType t) = t.shape? false := by
  have hend : Ends [] := trivial
  have h := type?_ofType hend false 0 false t
  rw [marks, List.replicate_zero, if_neg Bool.false_ne_true, List.append_nil, List.append_nil,
    List.append_nil] at h
  exact ofType?_of_type? h

/-- A function type that leaves its return type open. -/
theorem function?_result {more : Signature} {o : Option (List (Shape × Bool) × Bool)}
    (h : params? [] false more = o.map fun r => (r, [])) :
    function? (.result :: .openParen :: more) =
      (o.map fun r => Shape.function .result r.1 r.2).map fun s => (s, []) := by
  rw [function?_of_type? type?_result, h, Option.map_map, Option.map_map]
  rfl

/-- The shape of a declared function. -/
theorem ofSignature?_ofFunction (rule : SignatureRule) (f : FunctionTy) :
    ofSignature? rule (ofFunction f) =
      (Ty.paramShapes? f.params).map fun ps => .function .result ps f.variadic := by
  have h : params? [] false (paramsTail f.variadic [] f.params) =
      ((Ty.paramShapes? f.params).map fun ps => (ps, f.variadic)).map fun r => (r, []) := by
    rw [params?_ofParams, Option.map_map]
    rfl
  have hf : ofFunction f = .function :: .result :: .openParen :: paramsTail f.variadic [] f.params := by
    simp [ofFunction, paramsTail]
  rw [hf, ofSignature?_of_function? (function?_result h), Option.map_map]
  rfl

theorem opens_ofArg (a : ArgSig) (more : Signature) : Opens (ofArg a ++ more) := by
  rw [ofArg, List.append_assoc, List.append_assoc]
  exact opens_ofType _ _ a.ty

theorem param?_ofArg {more : Signature} (hmore : Begins more) (a : ArgSig) :
    param? (ofArg a ++ more) = a.shape?.map fun s => ((s, false), more) := by
  have hty := type?_ofType (ends_optional hmore false) a.readonly 0 a.lvalue a.ty
  rw [marks, List.replicate_zero, List.nil_append] at hty
  rw [param?, ofArg, List.append_assoc, List.append_assoc]
  refine (congrArg (Option.map _) hty).trans ?_
  rw [ArgSig.shape?, Option.map_map, Option.map_map]
  simp only [Function.comp_def, skip_optional hmore]
  rfl

theorem begins_ofArgs (args : List ArgSig) : Begins (args.flatMap ofArg ++ [.closeParen]) := by
  cases args with
  | nil => trivial
  | cons a args =>
    rw [List.flatMap_cons, List.append_assoc]
    exact begins_of_opens (opens_ofArg a _)

theorem params?_ofArgs (args : List ArgSig) (qs : List (Shape × Bool)) :
    params? qs false (args.flatMap ofArg ++ [.closeParen]) =
      (args.mapM ArgSig.shape?).map fun ss => ((qs.reverse ++ ss.map (·, false), false), []) := by
  induction args generalizing qs with
  | nil =>
    rw [List.mapM_nil]
    exact params?_closeParen.trans (by simp)
  | cons a args ih =>
    rw [List.flatMap_cons, List.append_assoc, List.mapM_cons]
    refine (params?_of_opens (opens_ofArg a _)).trans ?_
    rw [param?_ofArg (begins_ofArgs args), Option.bind_map]
    cases a.shape? with
    | none => rfl
    | some s =>
      refine (ih ((s, false) :: qs)).trans ?_
      cases args.mapM ArgSig.shape? <;> simp

/-- The shape of a call. -/
theorem ofSignature?_ofCall (rule : SignatureRule) (args : List ArgSig) :
    ofSignature? rule (ofCall args) =
      (args.mapM ArgSig.shape?).map fun ss => .function .result (ss.map (·, false)) false := by
  have h : params? [] false (args.flatMap ofArg ++ [.closeParen]) =
      ((args.mapM ArgSig.shape?).map fun ss => (ss.map (·, false), false)).map fun r => (r, []) := by
    rw [params?_ofArgs, Option.map_map]
    rfl
  have hc : ofCall args =
      .function :: .result :: .openParen :: (args.flatMap ofArg ++ [.closeParen]) := by
    simp [ofCall]
  rw [hc, ofSignature?_of_function? (function?_result h), Option.map_map]
  rfl

end Whole

end Types

end Shape

/-- The binding of a call to a declared function goes argument by argument. -/
theorem Matcher.matchFunction_ofCall (m : Matcher) (args : List ArgSig) (f : FunctionTy)
    (templates : List Signature) :
    m.matchFunction (.ofCall args) (.ofFunction f) templates =
      (args.mapM ArgSig.shape?).bind fun ss => (Ty.paramShapes? f.params).bind fun ps =>
        (templates.mapM Shape.ofType?).bind fun bindings =>
          m.bindAll bindings f.variadic (ss.map (·, false)) ps := by
  rw [matchFunction, Shape.ofSignature?_ofCall, Shape.ofSignature?_ofFunction]
  cases args.mapM ArgSig.shape? with
  | none => rfl
  | some ss =>
    cases Ty.paramShapes? f.params with
    | none => rfl
    | some ps => exact Option.bind_congr fun bindings _ => m.ite_takes_bindAll bindings f.variadic _ ps

end Stepwise
