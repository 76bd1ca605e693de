import Stepwise.Syntax.Tree
import Stepwise.Ty.Limits

/-! # Types

Types as values have them. A struct type carries the members that its definition
had when the type was written; two struct types are the same when their names are.
Functions of sizes and counts answer nothing when the number needs more than a
machine word.
-/

namespace Stepwise

/-- A parameter of a function type over types `τ`. -/
structure ParamOf (τ : Type) where
  ty : τ
  reference : Bool
  readonly : Bool
  optional : Bool

structure FunctionOf (τ : Type) where
  ret : τ
  params : List (ParamOf τ)
  variadic : Bool

/-- A data member of a struct type over types `τ`. -/
structure MemberOf (τ : Type) where
  name : String
  ty : τ
  readonly : Bool
  default : Option Initializer

inductive Ty
  | void
  | arith (kind : ArithKind)
  | pointer (target : Ty) (constTarget : Bool)
  | array (element : Ty) (size : Nat)
  | functionPointer (sig : FunctionOf Ty)
  | function (sig : FunctionOf Ty)
  | struct (name : String) (members : List (MemberOf Ty))
  /-- The type of the operand that marks the postfix forms of `++` and `--`. -/
  | marker

instance : Inhabited Ty := ⟨.void⟩

instance : Inhabited (FunctionOf Ty) := ⟨⟨.void, [], false⟩⟩

abbrev ParamTy := ParamOf Ty
abbrev FunctionTy := FunctionOf Ty
abbrev MemberTy := MemberOf Ty

/-- A struct definition: its name and its members in order. -/
structure StructTy where
  name : String
  members : List MemberTy

namespace StructTy

def type (d : StructTy) : Ty := .struct d.name d.members

def memberIndex? (d : StructTy) (name : String) : Option Nat :=
  d.members.findIdx? fun m => m.name == name

end StructTy

/-- A parameter passed by value without a default. -/
def ParamOf.plain (ty : Ty) : ParamOf Ty := ⟨ty, false, false, false⟩

namespace Ty

def int : Ty := arith .int
def bool : Ty := arith .bool
def char : Ty := arith .char

/-- A pointer to `target`, which for a function is a function pointer. -/
def pointerTo : Ty → Ty
  | function sig => functionPointer sig
  | target => pointer target false

def constPointerTo (target : Ty) : Ty := pointer target true

/-- Arrays and functions passed as parameters become pointers. -/
def decay : Ty → Ty
  | array element _ => pointer element false
  | function sig => functionPointer sig
  | ty => ty

mutual

/-- The same type; struct types are told apart by their names alone. -/
def beq : Ty → Ty → Bool
  | void, void => true
  | arith a, arith b => a == b
  | pointer a c, pointer b d => beq a b && c == d
  | array a m, array b n => beq a b && m == n
  | functionPointer f, functionPointer g => beqFunction f g
  | function f, function g => beqFunction f g
  | struct a _, struct b _ => a == b
  | marker, marker => true
  | _, _ => false

def beqFunction : FunctionOf Ty → FunctionOf Ty → Bool
  | ⟨r, ps, v⟩, ⟨s, qs, w⟩ => beq r s && beqParams ps qs && v == w

def beqParams : List (ParamOf Ty) → List (ParamOf Ty) → Bool
  | [], [] => true
  | p :: ps, q :: qs => beqParam p q && beqParams ps qs
  | _, _ => false

def beqParam : ParamOf Ty → ParamOf Ty → Bool
  | ⟨a, r, c, o⟩, ⟨b, s, d, p⟩ => beq a b && r == s && c == d && o == p

end

instance : BEq Ty := ⟨beq⟩

def arith? : Ty → Option ArithKind
  | arith k => some k
  | _ => none

def isArith (t : Ty) : Bool := t.arith?.isSome

def isIntegral (t : Ty) : Bool := t.arith?.any ArithKind.isIntegral

def isFloat (t : Ty) : Bool := t.arith?.any ArithKind.isFloat

def isPointer : Ty → Bool
  | pointer .. | array .. | functionPointer _ => true
  | _ => false

def isArray : Ty → Bool
  | array .. => true
  | _ => false

def isFunction : Ty → Bool
  | function _ => true
  | _ => false

def isVoid : Ty → Bool
  | void => true
  | _ => false

/-- The target of a data pointer, which for an array is its element type. -/
def pointee? : Ty → Option Ty
  | pointer target _ => some target
  | array element _ => some element
  | _ => none

def arraySize? : Ty → Option Nat
  | array _ n => some n
  | _ => none

/-- The same type up to the size of arrays, the kind of data pointers and the constness of what
they point to. -/
def sameShape : Ty → Ty → Bool
  | pointer a _, pointer b _ => sameShape a b
  | pointer a _, array b _ => sameShape a b
  | array a _, pointer b _ => sameShape a b
  | array a _, array b _ => sameShape a b
  | a, b => a == b

/-- The name of the kind of a type; struct types own their methods under it. -/
def key : Ty → String
  | void => "void"
  | arith k => "(" ++ k.name ++ ")"
  | pointer .. => "pointer_normal"
  | array .. => "pointer_array"
  | functionPointer _ => "pointer_function"
  | function _ => "function"
  | struct name _ => "struct " ++ name
  | marker => "dummy"

/-- The kinds of a type whose operators it has, the most specific first. -/
def keys (t : Ty) : List String :=
  t.key :: match t with
    | arith _ => ["arithmetic"]
    | pointer .. | array .. | functionPointer _ => ["pointer"]
    | struct .. => ["struct"]
    | _ => []

/-- A number that fits a machine word. -/
def word? (n : Nat) : Option Nat := if n < pow2 64 then some n else none

mutual

/-- The size of an object in bytes. -/
def size? (t : LimitsTable) : Ty → Option Nat
  | void => some 1
  | marker => some 1
  | arith k => some (t.get k).bytes
  | array element n => (size? t element).bind fun bytes => word? (n * bytes)
  | pointer .. => some t.pointerBytes
  | functionPointer _ => some t.pointerBytes
  | function _ => some t.pointerBytes
  | struct _ members => sizes? t members 0

def sizes? (t : LimitsTable) : List (MemberOf Ty) → Nat → Option Nat
  | [], total => some total
  | ⟨_, ty, _, _⟩ :: ms, total =>
    match size? t ty with
    | none => none
    | some bytes => (word? (total + bytes)).bind (sizes? t ms)

end

mutual

/-- The number of scalar cells of an object. -/
def cells? : Ty → Option Nat
  | array element n => (cells? element).bind fun count => word? (n * count)
  | struct _ members => memberCells? members 0
  | _ => some 1

def memberCells? : List (MemberOf Ty) → Nat → Option Nat
  | [], total => some total
  | ⟨_, ty, _, _⟩ :: ms, total =>
    match cells? ty with
    | none => none
    | some count => (word? (total + count)).bind (memberCells? ms)

end

mutual

/-- The text of a type as its element text and its array dimensions. -/
def parts : Ty → String × String
  | void => ("void", "")
  | arith k => (k.name, "")
  | pointer target isConst =>
    let (element, dims) := parts target
    ((if isConst then "const " else "") ++ element ++ dims ++ "*", "")
  | array element n =>
    let (text, dims) := parts element
    (text, "[" ++ toString n ++ "]" ++ dims)
  | functionPointer f => (functionText " (*)(" f, "")
  | function f => (functionText "(" f, "")
  | struct name _ => (name, "")
  | marker => ("dummy", "")

/-- The text of a function type whose parameter list is opened by `opening`. -/
def functionText (opening : String) : FunctionOf Ty → String
  | ⟨ret, params, variadic⟩ =>
    let (element, dims) := parts ret
    let listed := paramTexts params ++ if variadic then ["..."] else []
    element ++ dims ++ opening ++ ", ".intercalate listed ++ ")"

def paramTexts : List (ParamOf Ty) → List String
  | [] => []
  | p :: ps => paramText p :: paramTexts ps

def paramText : ParamOf Ty → String
  | ⟨ty, reference, _, _⟩ =>
    let (element, dims) := parts ty
    element ++ dims ++ if reference then "&" else ""

end

/-- The text of a type in messages. -/
def text (t : Ty) : String := t.parts.1 ++ t.parts.2

end Ty

end Stepwise
