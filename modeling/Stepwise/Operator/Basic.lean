import Stepwise.Operator.Number
import Stepwise.Overload.Table
import Stepwise.Value.Text

/-! # Operators and their setting

The operators that values have, and what applying one may consult: the rules of
arithmetic, the overload tables, and the node to blame. An operator reads and
writes the heap and nothing else.
-/

namespace Stepwise

inductive Operator
  | binary (op : BinaryOp)
  /-- A binary operator followed by `=`. -/
  | compound (op : BinaryOp)
  | assign
  | comma
  | neg
  | plus
  | deref
  | addrOf
  | not
  | bitNot
  /-- `++`; the marker as right operand asks for the postfix form. -/
  | inc
  | dec
  | index
  deriving DecidableEq, Repr

/-- The spelling of an operator in messages. -/
def Operator.text : Operator → String
  | binary op => op.text
  | compound op => op.text ++ "="
  | assign => "="
  | comma => ","
  | neg => "-"
  | plus => "+"
  | deref => "*"
  | addrOf => "&"
  | not => "!"
  | bitNot => "~"
  | inc => "++"
  | dec => "--"
  | index => "[]"

/-- The overload tables by owner. -/
abbrev OwnerTables := List (Owner × OverloadTable)

namespace OwnerTables

def table (t : OwnerTables) (owner : Owner) : OverloadTable :=
  (t.lookup owner).getD {}

def put (t : OwnerTables) (owner : Owner) (table : OverloadTable) : OwnerTables :=
  if t.any fun (o, _) => o == owner then
    t.map fun (o, old) => if o == owner then (o, table) else (o, old)
  else t ++ [(owner, table)]

end OwnerTables

/-- What an operator may consult. -/
structure OperatorContext where
  numerics : Numerics
  tables : OwnerTables
  node : Option Node

/-- The matcher for calls of declared functions. -/
def Numerics.matcher (n : Numerics) : Matcher := ⟨.function, n.limits⟩

/-- Computations of operators: they use the heap, and blame the node of their context. -/
abbrev OperatorM := ReaderT OperatorContext (EStateM Fault Heap)

namespace OperatorM

/-- The fault of a cause at the node of the context. -/
def fail {α : Type} (cause : OperatorFault) : OperatorM α := do
  throw ⟨.operator cause, (← read).node⟩

def ofExcept {α : Type} : Except OperatorFault α → OperatorM α
  | .ok a => return a
  | .error cause => fail cause

/-- The fault of an operator that the type of `l` does not have for `r`. -/
def unsupportedCause (op : Operator) (l : Value) (r : Option Value) : OperatorFault :=
  .unsupported l.ty op.text ((r.filter fun r => !r.isMarker).map Value.ty)

def unsupported {α : Type} (op : Operator) (l : Value) (r : Option Value) : OperatorM α :=
  fail (unsupportedCause op l r)

/-- The text of a value in messages. -/
def text (v : Value) : OperatorM String := return (← get).text v

def load? (p : Place) : OperatorM (Option Value) := return (← get).load? p

/-- The place of a left value. -/
def place (l : Value) : OperatorM Place := do
  match l.place with
  | some p => return p
  | none => fail (.notLvalue (← text l))

/-- Faults unless `l` is a left value that may be written. -/
def checkWritable (l : Value) : OperatorM Unit := do
  discard (place l)
  if l.readonly then fail (.readonly (← text l))

/-- Stores into the place of `l` and loads it again. -/
def write (l v : Value) : OperatorM Value := do
  let p ← place l
  if ← HeapM.attempt fun h => h.store? p v then
    match ← load? p with
    | some stored => return stored
    | none => fail .indexOutOfBounds
  else fail .indexOutOfBounds

/-- The right operand of an operator that needs one. -/
def operand (op : Operator) (l : Value) : Option Value → OperatorM Value
  | some r => return r
  | none => unsupported op l none

end OperatorM

end Stepwise
