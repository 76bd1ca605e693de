import Stepwise.Ty.Basic

/-! # Signatures

A type or function as a sequence of tokens in which every mark follows what it
applies to, so that a pointer to `const int` reads `const int *`. Arrays decay to
pointers, and a declared function leaves its return type open: two overloads that
differ only in it have one signature.
-/

namespace Stepwise

inductive SigToken
  | name (text : String)
  | const
  | pointer
  | reference
  | function
  /-- A return type that is left open. -/
  | result
  | openParen
  | closeParen
  | ellipsis
  /-- The parameter before it has a default argument. -/
  | optional
  | template (slot : Nat)
  /-- A struct type. -/
  | struct (name : String)
  deriving DecidableEq, Repr

namespace SigToken

def text : SigToken → String
  | name a => a
  | const => "const"
  | pointer => "*"
  | reference => "&"
  | function => "FUNCTION"
  | result => "Return"
  | openParen => "("
  | closeParen => ")"
  | ellipsis => "..."
  | optional => "?"
  | template slot => "T" ++ toString slot
  | struct a => a

end SigToken

abbrev Signature := List SigToken

/-- An argument of a call as overload resolution sees it. -/
structure ArgSig where
  ty : Ty
  lvalue : Bool
  readonly : Bool

namespace ArgSig

def rvalue (ty : Ty) : ArgSig := ⟨ty, false, false⟩

end ArgSig

namespace Signature

/-- The text under which overload tables file a signature. -/
def text (s : Signature) : String := " ".intercalate (s.map SigToken.text)

def constIf (readonly : Bool) : Signature := if readonly then [.const] else []

mutual

/-- The signature of a type. -/
def ofType : Ty → Signature
  | .void => [.name "void"]
  | .marker => [.name "dummy"]
  | .arith k => [.name k.name]
  | .struct name _ => [.struct name]
  | .pointer target isConst => constIf isConst ++ ofType target ++ [.pointer]
  | .array element _ => ofType element ++ [.pointer]
  | .functionPointer f => ofFunctionType f ++ [.pointer]
  | .function f => ofFunctionType f

/-- The signature of a function type with its return type. -/
def ofFunctionType : FunctionOf Ty → Signature
  | ⟨ret, params, variadic⟩ =>
    .function :: ofType ret ++ .openParen :: ofParams params
      ++ (if variadic then [.ellipsis] else []) ++ [.closeParen]

def ofParams : List (ParamOf Ty) → Signature
  | [] => []
  | p :: ps => ofParam p ++ ofParams ps

def ofParam : ParamOf Ty → Signature
  | ⟨ty, reference, readonly, optional⟩ =>
    constIf (readonly && reference) ++ ofType ty ++ (if reference then [.reference] else [])
      ++ if optional then [.optional] else []

end

/-- The signature under which a declared function is known. -/
def ofFunction (f : FunctionTy) : Signature :=
  [.function, .result, .openParen] ++ ofParams f.params
    ++ (if f.variadic then [.ellipsis] else []) ++ [.closeParen]

def ofArg (a : ArgSig) : Signature :=
  constIf a.readonly ++ ofType a.ty ++ if a.lvalue then [.reference] else []

/-- The signature of a call: the types of its arguments, lvalues marked. -/
def ofCall (args : List ArgSig) : Signature :=
  [.function, .result, .openParen] ++ args.flatMap ofArg ++ [.closeParen]

end Signature

end Stepwise
