import Stepwise.Machine.Call

/-! # Expressions

Operands are visited from left to right, each one a node of its own. Values of cells
know their place, so that operators can write through them. Lists in braces have the
struct type that their surroundings hint at.
-/

namespace Stepwise

namespace Literal

/-- The kinds that an integer literal may have, the first one that holds it. -/
def kinds (radix : Nat) (unsigned long : Bool) : List ArithKind :=
  match radix == 10, unsigned, long with
  | true, false, false => [.int, .longLong]
  | true, false, true => [.long, .longLong]
  | true, true, false => [.unsigned, .unsignedLongLong]
  | true, true, true => [.unsignedLong, .unsignedLongLong]
  | false, false, _ => [.int, .unsigned, .longLong, .unsignedLongLong]
  | false, true, _ => [.unsigned, .unsignedLongLong]

/-- The kind of the characters of a string. -/
def stringKind : CharWidth → ArithKind
  | .narrow => .char
  | .wide => .wchar
  | .utf16 => .char16
  | .utf32 => .char32

/-- The kind of a character, which for a narrow one that `char` does not hold is the wide one. -/
def charKind (limits : LimitsTable) (code : Nat) : CharWidth → ArithKind
  | .narrow => if limits.holds .char code then .char else .wchar
  | .wide => .wchar
  | .utf16 => .char16
  | .utf32 => .char32

end Literal

namespace RunM

/-- The elements of a string literal, which are constant and end with a zero. -/
def stringCells (limits : LimitsTable) (kind : ArithKind) : List Char → RunM (List Value)
  | [] => return [(Value.int kind 0).withReadonly true]
  | c :: cs => do
    if !limits.holds kind c.toNat then fail (.declaration (.characterRange c kind))
    return (Value.int kind c.toNat).withReadonly true :: (← stringCells limits kind cs)

/-- The value of a literal. -/
def literal (l : Literal) : RunM Value := do
  let limits := (← read).limits
  match l with
  | .int value radix unsigned long =>
    let kind := (Literal.kinds radix unsigned long).find? fun k => limits.holds k value
    match kind with
    | some k => return .int k value
    | none => fail (.declaration (.literalTooLarge (some value)))
  | .float value single => return .float (if single then .float else .double) value
  | .char code width => return .int (Literal.charKind limits code width) code
  | .string text width =>
    let kind := Literal.stringKind width
    let cells ← stringCells limits kind text.toList
    return .ofArray (.array (.arith kind) cells.length) (← alloc cells.toArray)
  | .bool b => return .bool b
  | .null => return .null (.pointerTo .void)

/-- The value of a name. -/
def named (found : Option Value) (name : String) : RunM Value := do
  match found with
  | some v => return v
  | none => fail (.name (.undefined name))

/-- A data member of an object, or its methods of a name bound to it. -/
def member (object : Value) (name : String) : RunM Value := do
  match (← inspect fun s => s.structOf? object.ty) with
  | none => fail (.name (.memberOf name object.ty))
  | some d =>
    match d.memberIndex? name, object.structStore? with
    | some _, none => fail (.name (.noStorage d.name))
    | some index, some store =>
      match (← inspect fun s => s.heap.load? (.member store index)) with
      | some v => return v.withReadonly (v.readonly || object.readonly)
      | none => fail (.name (.noMember d.name name))
    | none, store =>
      let owner := Owner.struct d.name
      match ((← get).tables.table owner).overloads name, store with
      | method :: _, some store =>
        let receiver : Receiver := ⟨object.ty, store, object.place⟩
        return .fresh (.function method.type) (.function ⟨name, owner, some receiver⟩)
      | _, _ => fail (.name (.noMember d.name name))

/-- The operator that a unary expression applies, and its marker for a postfix form. -/
def unaryOperator : UnaryOp → Operator × Option Value
  | .neg => (.neg, none)
  | .plus => (.plus, none)
  | .not => (.not, none)
  | .bitNot => (.bitNot, none)
  | .preInc => (.inc, none)
  | .preDec => (.dec, none)
  | .postInc => (.inc, some .marker)
  | .postDec => (.dec, some .marker)
  | .deref => (.deref, none)
  | .addrOf => (.addrOf, none)

def sizeValue (ty : Ty) : RunM (Progress .value) := do
  return .done (.int .int (← ask (ReadM.byteSize ty)))

/-- Evaluates an expression that was entered. -/
def evaluate (e : Expr) (hint : Option StructTy) : RunM (Progress .value) := do
  match e with
  | .literal _ l => return .done (← literal l)
  | .identifier _ name => return .done (← named ((← get).value? name) name)
  | .qualified _ path =>
    let found ← inspect fun s => (s.namespaces.lookup path).bind s.load?
    return .done (← named found ("::".intercalate path))
  | .binary _ op left right =>
    visit left hint (.one (.rightOperand (.binary op) right hint))
  | .logical _ op left right => visit left hint (.one (.logical op right hint))
  | .assign _ op target value =>
    let op := match op with
      | some op => Operator.compound op
      | none => .assign
    visit target hint (.one (.assign op value))
  | .comma _ left right => visit left hint (.one (.rightOperand .comma right hint))
  | .unary _ op operand => visit operand hint (.one (.unary op))
  | .conditional _ condition thenExpr elseExpr =>
    visit condition hint (.one (.choose thenExpr elseExpr hint))
  | .call _ f args => visit f hint (.one (.callee args hint))
  | .index _ base i => visit base hint (.one (.rightOperand .index i hint))
  | .member _ object name throughPointer =>
    visit object hint (.one (.member name throughPointer))
  | .cast _ spec target operand =>
    let ty ← ask (ReadM.typeNamed spec target)
    visit operand hint (.one (.cast ty))
  | .sizeofType _ spec target => sizeValue (← ask (ReadM.typeNamed spec target))
  | .sizeofExpr _ operand => visit operand hint (.one .size)
  | .list _ items =>
    match hint with
    | some d => make (.struct d items false hint)
    | none => fail (.declaration .untypedList)

/-- Applies an operator to two values. -/
def applyTo (op : Operator) (l r : Value) : RunM (Progress .value) := do
  return .done (← operate (op.apply l (some r)))

/-- Decides a logical expression by its left operand, or visits the right one. -/
def decideLogical (op : LogicalOp) (right : Expr) (hint : Option StructTy) (l : Value) :
    RunM (Progress .value) := do
  match op, (← operate (OperatorM.condition l)) with
  | .and, false => return .done (.bool false)
  | .or, true => return .done (.bool true)
  | _, _ => visit right hint (.one .truth)

/-- Visits the next argument of a call, or makes the call; `values` has the last argument first. -/
def nextArgument (f : Value) (values : List Value) (hint : Option StructTy) :
    List Expr → RunM (Progress .value)
  | [] => call f values.reverse
  | e :: rest => visit e hint (.one (.argument f values rest hint))

/-- Goes on with a member of an object or, through a pointer, of what it points to. -/
def memberOf (object : Value) (name : String) (throughPointer : Bool) :
    RunM (Progress .value) := do
  let object ← if throughPointer then operate (Operator.apply .deref object none) else pure object
  return .done (← member object name)

def applyUnary (op : UnaryOp) (v : Value) : RunM (Progress .value) := do
  let (op, marker) := unaryOperator op
  return .done (← operate (op.apply v marker))

end RunM

end Stepwise
