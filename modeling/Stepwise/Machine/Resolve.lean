import Stepwise.Machine.State
import Stepwise.Operator.Constant

/-! # What declarations mean

The type, the name and the flags that a declarator gives to what it declares.
Pointer marks apply first, then the suffixes from right to left, and a declarator in
parentheses takes the type built so far. Array bounds are folded from constants and
from the present values of variables. Nothing of this changes the state.
-/

namespace Stepwise

/-- Questions to a state, which may fail at its cursor. -/
abbrev ReadM := ReaderT (Config × State) (Except Fault)

/-- A resolved declarator. -/
structure Declared where
  name : Option String
  type : Ty
  readonly : Bool
  reference : Bool
  /-- The first bound is left to the initializer. -/
  openBound : Bool
  /-- The parameters, if the type is that of a function. -/
  params : List ParamInfo

namespace ReadM

def fail {α : Type} (cause : FaultCause) : ReadM α := do
  throw ⟨cause, (← read).2.cursor⟩

def ofExcept {α : Type} : Except FaultCause α → ReadM α
  | .ok a => return a
  | .error cause => fail cause

/-- The type that the words of a specifier name. -/
def baseType (spec : TypeSpec) : ReadM Ty := do
  let (config, s) ← read
  match spec.specifiers.find? fun word => !config.isSpecifier word with
  | some word => fail (.declaration (.unknownSpecifier word))
  | none =>
    let named : Option Ty :=
      match spec.words with
      | [word] =>
        if word = "void" then some .void
        else s.typedefs.lookup word <|> (s.struct? word).map StructTy.type
      | _ => none
    match named <|> (ArithKind.ofWords? spec.words).map .arith with
    | some ty => return ty
    | none => fail (.declaration (.unknownType spec.words))

/-- The type under pointer marks, what the next mark would point to is constant, and the
constness of what is declared. -/
def pointed : List Bool → Ty → Bool → Bool → Ty × Bool
  | [], ty, _, readonly => (ty, readonly)
  | isConst :: marks, .function sig, _, _ => pointed marks (.functionPointer sig) isConst isConst
  | isConst :: marks, ty, constTarget, _ => pointed marks (.pointer ty constTarget) isConst isConst

/-- An object of the type holds no more cells than the limits allow. -/
def checkCells (ty : Ty) : ReadM Unit := do
  match ty.cells? with
  | some n => if n > (← read).1.limits.maxCells then fail (.declaration .tooLarge)
  | none => fail (.declaration .tooLarge)

/-- The size of an object in bytes. -/
def byteSize (ty : Ty) : ReadM Nat := do
  match ty.size? (← read).1.limits with
  | some n => return n
  | none => fail (.declaration .tooLarge)

/-- An array with a bound that was written. -/
def bounded (element : Ty) (size : Int) : ReadM Ty := do
  if size < 0 then fail (.declaration (.negativeSize size))
  if size ≥ pow2 64 then fail (.declaration .tooLarge)
  let ty := Ty.array element size.toNat
  checkCells ty
  return ty

/-- A parameter list that consists of the word `void`. -/
def isEmptyList (base : Ty) (only : Bool) : Declarator → Bool
  | .mk span pointers reference inner suffixes =>
    only && base.isVoid && pointers.isEmpty
      && (Declarator.name? (.mk span pointers reference inner suffixes)).isNone

mutual

/-- The value of a constant expression. -/
def constant : Expr → ReadM Int
  | .literal _ (.int v _ _ _) =>
    if v < pow2 127 then return v else fail (.declaration (.literalTooLarge none))
  | .literal _ (.char code _) => return code
  | .literal _ (.bool b) => return Constant.truth b
  | .identifier _ name => do
    match ((← read).2.value? name).bind Value.int? with
    | some v => return v
    | none => fail (.declaration .notConstant)
  | .unary _ op operand => do ofExcept (Constant.unary op (← constant operand))
  | .binary _ op left right => do
    let l ← constant left
    let r ← constant right
    ofExcept (Constant.binary op l r)
  | .conditional _ condition thenExpr elseExpr => do
    if (← constant condition) != 0 then constant thenExpr else constant elseExpr
  | .cast _ _ _ operand => constant operand
  | .sizeofType _ spec target => do
    byteSize (← declarator (← baseType spec) spec.isConst target).type
  | _ => fail (.declaration .notConstant)

/-- What a declarator declares, from the base type and its constness. -/
def declarator (base : Ty) (isConst : Bool) : Declarator → ReadM Declared
  | .mk _ marks reference inner suffixList => do
    let (ty, readonly) := pointed marks base isConst isConst
    let (type, openBound, params) ← suffixes ty true suffixList
    match inner with
    | .named name => return ⟨some name, type, readonly, reference, openBound, params⟩
    | .anonymous => return ⟨none, type, readonly, reference, openBound, params⟩
    | .nested d =>
      let declared ← declarator type false d
      return { declared with
        reference := declared.reference || reference
        openBound := declared.openBound || openBound }

/-- The type under suffixes, whether its first bound is open, and the parameters of a function;
`first` says that nothing stands before them. -/
def suffixes (ty : Ty) (first : Bool) :
    List DeclaratorSuffix → ReadM (Ty × Bool × List ParamInfo)
  | [] => return (ty, false, [])
  | .array (some size) :: rest => do
    let (element, openBound, params) ← suffixes ty false rest
    return (← bounded element (← constant size), openBound, params)
  | .array none :: rest => do
    let (element, _, params) ← suffixes ty false rest
    if !first then fail (.declaration .openInnerBound)
    return (.array element 0, true, params)
  | .params ps variadic :: rest => do
    let (ret, openBound, _) ← suffixes ty false rest
    let params ← parameters (ps.length == 1) false ps
    return (.function ⟨ret, params.map Prod.fst, variadic⟩, openBound, params.map Prod.snd)

/-- The parameters of a list; `only` says that it has one, and `defaulted` that an earlier one has
a default. -/
def parameters (only defaulted : Bool) : List Param → ReadM (List (ParamTy × ParamInfo))
  | [] => return []
  | .mk _ spec d default :: rest => do
    let base ← baseType spec
    if isEmptyList base only d then return []
    let declared ← declarator base spec.isConst d
    let optional := default.isSome
    if defaulted && !optional then fail (.declaration .defaultsNotLast)
    let readonly := declared.readonly || spec.specifiers.contains "static"
    let param : ParamTy := ⟨declared.type.decay, declared.reference, readonly, optional⟩
    return (param, ⟨declared.name, default⟩) :: (← parameters only (defaulted || optional) rest)

end

/-- What a specifier with a declarator declares. -/
def declared (spec : TypeSpec) (d : Declarator) : ReadM Declared := do
  declarator (← baseType spec) spec.isConst d

/-- The type that a specifier with a declarator names. -/
def typeNamed (spec : TypeSpec) (d : Declarator) : ReadM Ty := return (← declared spec d).type

end ReadM

/-- Asks the present state. -/
def RunM.ask {α : Type} (x : ReadM α) : RunM α := fun config s =>
  match x (config, s) with
  | .ok a => .ok a s
  | .error f => .error f s

end Stepwise
