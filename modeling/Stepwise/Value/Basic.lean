import Stepwise.Ty.Basic
import Stepwise.Value.SignedFloat

/-! # Values

A value is a payload with its type. A value that was read from a cell also knows
the place of that cell, which makes it an lvalue. Arrays, structs and variables
live in blocks of cells; pointers name blocks and cells, never their contents.
-/

namespace Stepwise

/-- A block of cells in the heap. -/
abbrev BlockId := Nat

/-- What the cell at a place is part of. -/
inductive PlaceRole
  | slot
  | element
  | member
  deriving DecidableEq, Repr

/-- A cell of a block, as a variable, an array element or a struct member. -/
structure Place where
  role : PlaceRole
  block : BlockId
  index : Nat
  deriving DecidableEq, Repr

namespace Place

def slot (block : BlockId) : Place := ⟨.slot, block, 0⟩
def element (block : BlockId) (index : Nat) : Place := ⟨.element, block, index⟩
def member (block : BlockId) (index : Nat) : Place := ⟨.member, block, index⟩

end Place

/-- The object that a method is called on. -/
structure Receiver where
  ty : Ty
  store : BlockId
  place : Option Place

/-- Whose overload table holds a function. -/
inductive Owner
  | global
  | struct (name : String)
  deriving DecidableEq, Repr

/-- The overload set `name` of `owner`, and the object if it is a set of methods. -/
structure FunctionRef where
  name : String
  owner : Owner
  receiver : Option Receiver

inductive Data
  | int (v : Int)
  | float (x : SignedFloat)
  /-- A pointer to one cell; nothing for null. -/
  | pointer (target : Option Place)
  /-- An array, or a pointer into one; the position may lie outside it. -/
  | array (store : Option BlockId) (position : Int)
  | functionPointer (target : Option FunctionRef)
  | function (target : FunctionRef)
  | struct (store : BlockId)
  | void

/-- The number that an arithmetic payload is. -/
inductive Number
  | int (v : Int)
  | float (x : SignedFloat)

namespace Number

def toSigned : Number → SignedFloat
  | int v => .ofFloat (Binary.nearestInt v)
  | float x => x

def toFloat (x : Number) : Float := x.toSigned.value

def isZero : Number → Bool
  | int v => v == 0
  | float x => x.value == 0.0

end Number

namespace Data

def number? : Data → Option Number
  | int v => some (.int v)
  | float x => some (.float x)
  | _ => none

def isPointer : Data → Bool
  | pointer _ | array .. | functionPointer _ => true
  | _ => false

/-- A null pointer of some kind. -/
def isNull : Data → Bool
  | pointer none | array none _ | functionPointer none => true
  | _ => false

/-- The null pointer of a pointer type. -/
def null : Ty → Data
  | .functionPointer _ => functionPointer none
  | .array .. => array none 0
  | _ => pointer none

/-- Non-zero numbers, pointers that are not null, functions and structs count as true. -/
def truthy : Data → Bool
  | int v => v != 0
  | float x => x.value != 0.0
  | pointer p => p.isSome
  | array s _ => s.isSome
  | functionPointer f => f.isSome
  | function _ => true
  | struct _ => true
  | void => false

end Data

structure Value where
  ty : Ty
  data : Data
  place : Option Place := none
  readonly : Bool := false

instance : Inhabited Value := ⟨{ ty := .void, data := .void }⟩

namespace Value

/-- A value that was read from no cell. -/
def fresh (ty : Ty) (data : Data) : Value := { ty, data }

def int (k : ArithKind) (v : Int) : Value := .fresh (.arith k) (.int v)
def float (k : ArithKind) (x : Float) : Value := .fresh (.arith k) (.float (.ofFloat x))
def bool (b : Bool) : Value := int .bool (if b then 1 else 0)
def void : Value := .fresh .void .void

/-- The operand that marks the postfix forms of `++` and `--`. -/
def marker : Value := .fresh .marker .void

def null (ty : Ty) : Value := .fresh ty (.null ty)

def isLvalue (v : Value) : Bool := v.place.isSome

def isMarker (v : Value) : Bool := v.ty matches .marker

/-- The value detached from its cell. -/
def rvalue (v : Value) : Value := { v with place := none, readonly := false }

def withReadonly (v : Value) (readonly : Bool) : Value := { v with readonly }

def number? (v : Value) : Option Number := v.data.number?

def int? (v : Value) : Option Int :=
  match v.data with
  | .int n => some n
  | _ => none

/-- The block of an array that is not null, and the position in it. -/
def array? (v : Value) : Option (BlockId × Int) :=
  match v.data with
  | .array (some store) position => some (store, position)
  | _ => none

def structStore? (v : Value) : Option BlockId :=
  match v.data with
  | .struct store => some store
  | _ => none

def truthy (v : Value) : Bool := v.data.truthy

/-- The value of an array type whose elements fill a block. -/
def ofArray (ty : Ty) (store : BlockId) : Value := .fresh ty (.array (some store) 0)

end Value

end Stepwise
