import Stepwise.Overload.Signature
import Mathlib.Data.List.Infix

/-! # Parameters from signatures

A signature puts every mark behind what it applies to, so a machine with a stack rebuilds
the parameters from its tokens. Only constness goes in front of the whole type, where it
reads as that of the base: signatures tell the parameters apart as long as no pointer and
no array is constant.
-/

namespace Stepwise

namespace Ty

/-- The pointer to a type, which to a function is a function pointer. -/
def pointerMarked : Ty → Bool → Ty
  | function f, _ => functionPointer f
  | target, c => pointer target c

mutual

/-- The type as far as parameters are compared: arrays are pointers at every level, a struct is
its name, and the constness of what is passed by value is left out. -/
def decayed : Ty → Ty
  | pointer target c => pointerMarked (decayed target) c
  | array element _ => pointerMarked (decayed element) false
  | functionPointer f => functionPointer (decayedFunction f)
  | function f => function (decayedFunction f)
  | struct name _ => struct name []
  | t => t

def decayedFunction : FunctionOf Ty → FunctionOf Ty
  | ⟨ret, params, variadic⟩ => ⟨decayed ret, decayedParams params, variadic⟩

def decayedParams : List (ParamOf Ty) → List (ParamOf Ty)
  | [] => []
  | p :: ps => decayedParam p :: decayedParams ps

def decayedParam : ParamOf Ty → ParamOf Ty
  | ⟨ty, reference, readonly, optional⟩ => ⟨decayed ty, reference, readonly && reference, optional⟩

end

/-- Constness in front of the type is that of the type itself. -/
def takesConst : Ty → Bool
  | pointer .. | array .. | function _ => false
  | _ => true

theorem isFunction_pointerMarked (t : Ty) (c : Bool) : (t.pointerMarked c).isFunction = false := by
  cases t <;> rfl

theorem isFunction_of_takesConst {t : Ty} (h : t.takesConst = true) : t.isFunction = false := by
  cases t <;> first | rfl | cases h

theorem isFunction_decayed (t : Ty) : t.decayed.isFunction = t.isFunction := by
  cases t <;> simp only [decayed, isFunction_pointerMarked] <;> rfl

mutual

/-- No pointer, array or function inside the type is constant. -/
def flat : Ty → Bool
  | pointer target c => (!c || target.takesConst) && flat target
  | array element _ => flat element
  | functionPointer f | function f => flatFunction f
  | _ => true

def flatFunction : FunctionOf Ty → Bool
  | ⟨ret, params, _⟩ => flat ret && flatParams params

def flatParams : List (ParamOf Ty) → Bool
  | [] => true
  | p :: ps => flatParam p && flatParams ps

def flatParam : ParamOf Ty → Bool
  | ⟨ty, reference, readonly, _⟩ => (!(readonly && reference) || ty.takesConst) && flat ty

end

end Ty

/-- The parameter lists are the same. -/
def SameParams (f g : FunctionTy) : Prop :=
  Ty.decayedParams f.params = Ty.decayedParams g.params ∧ f.variadic = g.variadic

namespace Signature

open Ty

/-- What the machine that reads signatures has on its stack. -/
inductive Item
  | const
  | function
  | openParen
  | ellipsis
  /-- A type with the marks of a parameter; it is constant if it is readonly. -/
  | type (p : ParamOf Ty)

/-- A type is put on the stack, constant if constness is expected. -/
def push (t : Ty) : List Item → List Item
  | .const :: st => .type ⟨t, false, true, false⟩ :: st
  | st => .type ⟨t, false, false, false⟩ :: st

/-- The types on the stack become the parameters of the function below them. -/
def closeWith (variadic : Bool) : List (ParamOf Ty) → List Item → List Item
  | ps, .type p :: st => closeWith variadic (p :: ps) st
  | ps, .openParen :: .type ret :: .function :: st => push (.function ⟨ret.ty, ps, variadic⟩) st
  | _, _ => []

def close : List Item → List Item
  | .ellipsis :: st => closeWith true [] st
  | st => closeWith false [] st

/-- The builtin type with a name. -/
def named (text : String) : Ty :=
  match ArithKind.ofName? text with
  | some k => .arith k
  | none => if text = "void" then .void else .marker

/-- The stack after a token. -/
def read (st : List Item) : SigToken → List Item
  | .name text => push (named text) st
  | .struct name => push (.struct name []) st
  | .result => push .void st
  | .const => .const :: st
  | .function => .function :: st
  | .openParen => .openParen :: st
  | .ellipsis => .ellipsis :: st
  | .closeParen => close st
  | .pointer =>
    match st with
    | .type p :: st =>
      .type ⟨pointerMarked p.ty p.readonly, false, p.ty.isFunction && p.readonly, false⟩ :: st
    | st => st
  | .reference =>
    match st with
    | .type p :: st => .type { p with reference := true } :: st
    | st => st
  | .optional =>
    match st with
    | .type p :: st => .type { p with optional := true } :: st
    | st => st
  | .template _ => st

/-- The stack after a signature. -/
def readAll (st : List Item) (s : Signature) : List Item := s.foldl read st

section

variable {st : List Item}

@[simp] theorem readAll_nil : readAll st [] = st := rfl

@[simp] theorem readAll_cons (t : SigToken) (s : Signature) :
    readAll st (t :: s) = readAll (read st t) s := rfl

@[simp] theorem readAll_append (s u : Signature) :
    readAll st (s ++ u) = readAll (readAll st s) u := List.foldl_append

/-- The stack with the constness of what comes next. -/
def expecting (c : Bool) (st : List Item) : List Item := readAll st (constIf c)

/-- The stack does not expect a constant type. -/
def Settled (st : List Item) : Prop := st.head? ≠ some .const

theorem push_expecting (hst : Settled st) (t : Ty) (c : Bool) :
    push t (expecting c st) = .type ⟨t, false, c, false⟩ :: st := by
  cases c with
  | true => rfl
  | false =>
    cases st with
    | nil => rfl
    | cons i st => cases i <;> first | rfl | exact absurd rfl hst

@[simp] theorem named_void : named "void" = .void := rfl

@[simp] theorem named_dummy : named "dummy" = .marker := rfl

@[simp] theorem named_name (k : ArithKind) : named k.name = .arith k := by
  rw [named, ArithKind.ofName?_name]

theorem closeWith_types (variadic : Bool) (qs ps : List (ParamOf Ty)) (st : List Item) :
    closeWith variadic qs ((ps.map Item.type).reverse ++ st) =
      closeWith variadic (ps ++ qs) st := by
  induction ps using List.reverseRecOn generalizing qs with
  | nil => rfl
  | append_singleton ps p ih => simp [closeWith, ih]

/-- A whole parameter list on the stack becomes that of the function below it. -/
theorem close_params (ret : ParamOf Ty) (ps : List (ParamOf Ty)) (variadic : Bool) :
    close (readAll ((ps.map Item.type).reverse ++ .openParen :: .type ret :: .function :: st)
        (if variadic then [.ellipsis] else [])) =
      push (.function ⟨ret.ty, ps, variadic⟩) st := by
  have hclose := closeWith_types variadic [] ps (.openParen :: .type ret :: .function :: st)
  cases variadic with
  | true => exact hclose.trans (by simp [closeWith])
  | false =>
    refine Eq.trans ?_ (hclose.trans (by simp [closeWith]))
    rcases ps.eq_nil_or_concat' with rfl | ⟨ps, p, rfl⟩
    · rfl
    · simp [close]

theorem settled_type (p : ParamOf Ty) (st : List Item) : Settled (.type p :: st) := nofun

mutual

/-- The machine rebuilds a type, constant if that is how it starts. -/
theorem readAll_ofType {st : List Item} (hst : Settled st) (c : Bool) : ∀ t : Ty, t.flat = true →
    (c = true → t.takesConst = true) →
      readAll (expecting c st) (ofType t) = .type ⟨t.decayed, false, c, false⟩ :: st
  | .void, _, _ => push_expecting hst .void c
  | .marker, _, _ => push_expecting hst .marker c
  | .arith k, _, _ => by
    simp only [ofType, readAll_cons, readAll_nil, read, named_name, push_expecting hst, decayed]
  | .struct name _, _, _ => push_expecting hst (.struct name []) c
  | .pointer target constTarget, hflat, hc => by
    obtain rfl : c = false := by simpa [takesConst] using hc
    simp only [flat, Bool.and_eq_true, Bool.or_eq_true, Bool.not_eq_true'] at hflat
    have ht := readAll_ofType hst constTarget target hflat.2 fun h => by simpa [h] using hflat.1
    simp only [ofType, readAll_append]
    show readAll (readAll (expecting constTarget st) _) _ = _
    have hf : (target.decayed.isFunction && constTarget) = false := by
      rw [isFunction_decayed]
      obtain h | h := hflat.1
      · rw [h, Bool.and_false]
      · rw [isFunction_of_takesConst h, Bool.false_and]
    rw [ht, readAll_cons, readAll_nil, read, hf, decayed]
  | .array element _, hflat, hc => by
    obtain rfl : c = false := by simpa [takesConst] using hc
    have ht := readAll_ofType hst false element (by simpa [flat] using hflat)
      (absurd · Bool.false_ne_true)
    simp only [ofType, readAll_append, ht, readAll_cons, readAll_nil, read, Bool.and_false, decayed]
  | .functionPointer f, hflat, _ => by
    simp only [ofType, readAll_append,
      readAll_ofFunctionType hst c f (by simpa [flat] using hflat)]
    rfl
  | .function f, hflat, hc => by
    rw [ofType, readAll_ofFunctionType hst c f (by simpa [flat] using hflat), decayed]

theorem readAll_ofFunctionType {st : List Item} (hst : Settled st) (c : Bool) : ∀ f : FunctionOf Ty,
    flatFunction f = true →
      readAll (expecting c st) (ofFunctionType f) =
        .type ⟨.function (decayedFunction f), false, c, false⟩ :: st
  | ⟨ret, params, variadic⟩, hflat => by
    simp only [flatFunction, Bool.and_eq_true] at hflat
    have hret : readAll (.function :: expecting c st) (ofType ret) =
        .type ⟨ret.decayed, false, false, false⟩ :: .function :: expecting c st :=
      have hfunction : Settled (.function :: expecting c st) := nofun
      readAll_ofType hfunction false ret hflat.1 (absurd · Bool.false_ne_true)
    have hopen : Settled (.openParen :: .type ⟨ret.decayed, false, false, false⟩ :: .function ::
      expecting c st) := nofun
    have hparams := readAll_ofParams hopen params hflat.2
    simp only [ofFunctionType, readAll_cons, readAll_append, read, hret, hparams, readAll_nil]
    rw [close_params, push_expecting hst, decayedFunction]

theorem readAll_ofParams {st : List Item} (hst : Settled st) :
    ∀ ps : List (ParamOf Ty), flatParams ps = true →
      readAll st (ofParams ps) = ((decayedParams ps).map Item.type).reverse ++ st
  | [], _ => rfl
  | p :: ps, hflat => by
    simp only [flatParams, Bool.and_eq_true] at hflat
    simp only [ofParams, readAll_append, readAll_ofParam hst p hflat.1,
      readAll_ofParams (settled_type _ st) ps hflat.2, decayedParams, List.map_cons,
      List.reverse_cons, List.append_assoc, List.singleton_append]

theorem readAll_ofParam {st : List Item} (hst : Settled st) : ∀ p : ParamOf Ty, flatParam p = true →
    readAll st (ofParam p) = .type (decayedParam p) :: st
  | ⟨ty, reference, readonly, optional⟩, hflat => by
    simp only [flatParam, Bool.and_eq_true, Bool.or_eq_true, Bool.not_eq_true'] at hflat
    have ht := readAll_ofType hst (readonly && reference) ty hflat.2 fun h => by
      simpa [h] using hflat.1
    simp only [ofParam, readAll_append]
    show readAll (readAll (readAll (expecting (readonly && reference) st) _) _) _ = _
    rw [ht]
    cases reference <;> cases optional <;> rfl

end

end

/-- The machine rebuilds the parameters of a declared function. -/
theorem readAll_ofFunction {f : FunctionTy} (hflat : flatParams f.params = true) :
    readAll [] (ofFunction f) =
      [.type ⟨.function ⟨.void, decayedParams f.params, f.variadic⟩, false, false, false⟩] := by
  have hst : Settled [.openParen, .type ⟨.void, false, false, false⟩, .function] := nofun
  have hparams := readAll_ofParams hst f.params hflat
  simp only [ofFunction, readAll_cons, readAll_append, readAll_nil, read, push, hparams]
  rw [close_params]
  rfl

theorem ofType_pointerMarked (t : Ty) (c : Bool) (h : c = true → t.takesConst = true) :
    ofType (t.pointerMarked c) = constIf c ++ ofType t ++ [.pointer] := by
  cases t with
  | function f =>
    cases c with
    | true => exact absurd (h rfl) nofun
    | false => simp [pointerMarked, ofType, constIf]
  | _ => rfl

theorem takesConst_decayed {t : Ty} (h : t.takesConst = true) : t.decayed.takesConst = true := by
  cases t <;> first | rfl | cases h

mutual

/-- Signatures tell no more than what parameters are compared by. -/
theorem ofType_decayed : ∀ t : Ty, t.flat = true → ofType t.decayed = ofType t
  | .void, _ | .marker, _ | .arith _, _ | .struct .., _ => rfl
  | .pointer target c, h => by
    simp only [flat, Bool.and_eq_true, Bool.or_eq_true, Bool.not_eq_true'] at h
    have hc : c = true → target.decayed.takesConst = true := fun hc =>
      takesConst_decayed (by simpa [hc] using h.1)
    rw [decayed, ofType_pointerMarked _ c hc, ofType_decayed target h.2, ofType]
  | .array element _, h => by
    rw [decayed, ofType_pointerMarked _ false (absurd · Bool.false_ne_true),
      ofType_decayed element (by simpa [flat] using h), ofType]
    rfl
  | .functionPointer f, h => by
    rw [decayed, ofType, ofFunctionType_decayed f (by simpa [flat] using h), ofType]
  | .function f, h => by
    rw [decayed, ofType, ofFunctionType_decayed f (by simpa [flat] using h), ofType]

theorem ofFunctionType_decayed : ∀ f : FunctionOf Ty, flatFunction f = true →
    ofFunctionType (decayedFunction f) = ofFunctionType f
  | ⟨ret, params, variadic⟩, h => by
    simp only [flatFunction, Bool.and_eq_true] at h
    rw [decayedFunction, ofFunctionType, ofType_decayed ret h.1, ofParams_decayed params h.2,
      ofFunctionType]

theorem ofParams_decayed : ∀ ps : List (ParamOf Ty), flatParams ps = true →
    ofParams (decayedParams ps) = ofParams ps
  | [], _ => rfl
  | p :: ps, h => by
    simp only [flatParams, Bool.and_eq_true] at h
    rw [decayedParams, ofParams, ofParam_decayed p h.1, ofParams_decayed ps h.2, ofParams]

theorem ofParam_decayed : ∀ p : ParamOf Ty, flatParam p = true →
    ofParam (decayedParam p) = ofParam p
  | ⟨ty, reference, readonly, _⟩, h => by
    simp only [flatParam, Bool.and_eq_true] at h
    rw [decayedParam, ofParam, ofType_decayed ty h.2, ofParam, Bool.and_assoc, Bool.and_self]

end

/-- Declared functions have one signature exactly when their parameter lists are the same. -/
theorem ofFunction_eq_iff {f g : FunctionTy} (hf : flatParams f.params = true)
    (hg : flatParams g.params = true) : ofFunction f = ofFunction g ↔ SameParams f g := by
  constructor
  · intro h
    have hread := readAll_ofFunction hf
    rw [h, readAll_ofFunction hg] at hread
    simp only [List.cons.injEq, Item.type.injEq, ParamOf.mk.injEq, function.injEq,
      FunctionOf.mk.injEq, and_true, true_and] at hread
    exact ⟨hread.1.symm, hread.2.symm⟩
  · rintro ⟨hparams, hvariadic⟩
    rw [ofFunction, ofFunction, ← ofParams_decayed f.params hf, hparams,
      ofParams_decayed g.params hg, hvariadic]

end Signature

end Stepwise
