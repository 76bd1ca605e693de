import Stepwise.Overload.Signature

/-! # Shapes

The trees that signatures spell. A type is a base, constant or not, under any
number of pointer marks and at most one reference mark; a function is a return
type with parameters, each of which may be optional.
-/

namespace Stepwise

inductive Shape
  | name (text : String) (readonly : Bool)
  | struct (name : String) (readonly : Bool)
  | template (slot : Nat) (readonly : Bool)
  | result
  | pointer (target : Shape)
  | reference (target : Shape)
  /-- Parameters come with whether they are optional. -/
  | function (ret : Shape) (params : List (Shape × Bool)) (variadic : Bool)

namespace Shape

mutual

def beq : Shape → Shape → Bool
  | name a r, name b s => a == b && r == s
  | struct a r, struct b s => a == b && r == s
  | template a r, template b s => a == b && r == s
  | result, result => true
  | pointer a, pointer b => beq a b
  | reference a, reference b => beq a b
  | function r ps v, function s qs w => beq r s && beqParams ps qs && v == w
  | _, _ => false

def beqParams : List (Shape × Bool) → List (Shape × Bool) → Bool
  | [], [] => true
  | p :: ps, q :: qs => beqParam p q && beqParams ps qs
  | _, _ => false

def beqParam : Shape × Bool → Shape × Bool → Bool
  | (a, o), (b, p) => beq a b && o == p

end

instance : BEq Shape := ⟨beq⟩

def isReadonly : Shape → Bool
  | name _ r | struct _ r | template _ r => r
  | _ => false

/-- The shape without its own constness. -/
def unqualified : Shape → Shape
  | name a _ => name a false
  | struct a _ => struct a false
  | template a _ => template a false
  | s => s

def arith? : Shape → Option ArithKind
  | name a _ => ArithKind.ofName? a
  | _ => none

def isVoid : Shape → Bool
  | name a _ => a == "void"
  | _ => false

/-- The shape under as many pointer marks as the tokens start with. -/
def pointers (s : Shape) : Signature → Shape × Signature
  | .pointer :: ts => pointers (pointer s) ts
  | ts => (s, ts)

/-- The shape under the pointer and reference marks that the tokens start with. -/
def marked (s : Shape) (ts : Signature) : Shape × Signature :=
  match pointers s ts with
  | (t, .reference :: rest) => (reference t, rest)
  | (t, rest) => (t, rest)

theorem length_pointers_le (s : Shape) (ts : Signature) :
    (pointers s ts).2.length ≤ ts.length := by
  fun_induction pointers s ts with
  | case1 s ts ih => simp; omega
  | case2 => simp

theorem length_marked_le (s : Shape) (ts : Signature) : (marked s ts).2.length ≤ ts.length := by
  have := length_pointers_le s ts
  unfold marked
  split
  · next h => rw [h] at this; simp at this ⊢; omega
  · next h => rw [h] at this; simpa using this

/-- Whether the tokens start with a mark, and the tokens after it. -/
def skip (x : SigToken) : Signature → Bool × Signature
  | [] => (false, [])
  | t :: ts => if t = x then (true, ts) else (false, t :: ts)

theorem length_skip_le (x : SigToken) (ts : Signature) : (skip x ts).2.length ≤ ts.length := by
  cases ts with
  | nil => simp [skip]
  | cons t ts => simp only [skip]; split <;> simp

/-- A shape, and the tokens after it, which are fewer than `ts`. -/
structure Read (ts : Signature) (α : Type) where
  value : α
  rest : Signature
  shorter : rest.length < ts.length

mutual

/-- Reads a type. -/
def readType (ts : Signature) : Option (Read ts Shape) :=
  let readonly := (skip .const ts).1
  have hle := length_skip_le .const ts
  match h : (skip .const ts).2 with
  | [] => none
  | t :: rest =>
    have hlt : rest.length < ts.length := by rw [h] at hle; exact hle
    let finish (s : Shape) : Option (Read ts Shape) :=
      have := length_marked_le s rest
      some ⟨(marked s rest).1, (marked s rest).2, by omega⟩
    match t with
    | .name a => finish (name a readonly)
    | .struct a => finish (struct a readonly)
    | .template slot => finish (template slot readonly)
    | .result => finish result
    | .function =>
      match readFunction rest with
      | none => none
      | some ⟨f, after, hf⟩ =>
        have := length_marked_le f after
        some ⟨(marked f after).1, (marked f after).2, by omega⟩
    | _ => none
termination_by 2 * ts.length + 1

/-- Reads a return type and a parameter list. -/
def readFunction (ts : Signature) : Option (Read ts Shape) :=
  match readType ts with
  | none => none
  | some ⟨ret, rest, h⟩ =>
    match rest with
    | .openParen :: more =>
      have : more.length < ts.length := Nat.lt_trans (Nat.lt_succ_self _) h
      match readParams [] false more with
      | none => none
      | some ⟨(params, variadic), after, _⟩ =>
        some ⟨function ret params variadic, after, by omega⟩
    | _ => none
termination_by 2 * ts.length + 2

/-- Reads parameters up to the closing parenthesis; those read so far come last one first. -/
def readParams (params : List (Shape × Bool)) (variadic : Bool) (ts : Signature) :
    Option (Read ts (List (Shape × Bool) × Bool)) :=
  match ts with
  | [] => none
  | .closeParen :: rest => some ⟨(params.reverse, variadic), rest, Nat.lt_succ_self _⟩
  | .ellipsis :: rest =>
    match readParams params true rest with
    | none => none
    | some ⟨value, after, h⟩ => some ⟨value, after, Nat.lt_succ_of_lt h⟩
  | t :: ts' =>
    match readType (t :: ts') with
    | none => none
    | some ⟨s, rest, h⟩ =>
      have hle : (skip .optional rest).2.length ≤ ts'.length :=
        Nat.le_trans (length_skip_le .optional rest) (Nat.le_of_lt_succ h)
      match readParams ((s, (skip .optional rest).1) :: params) variadic
          (skip .optional rest).2 with
      | none => none
      | some ⟨value, after, h'⟩ => some ⟨value, after, Nat.lt_succ_of_lt (Nat.lt_of_lt_of_le h' hle)⟩
termination_by 2 * ts.length + 2

end

/-- The type that a whole signature spells. -/
def ofType? (ts : Signature) : Option Shape :=
  match readType ts with
  | some ⟨s, [], _⟩ => some s
  | _ => none

/-- The function that a whole signature spells. -/
def ofFunction? : Signature → Option Shape
  | .function :: ts =>
    match readFunction ts with
    | some ⟨s, [], _⟩ => some s
    | _ => none
  | _ => none

end Shape

/-- What a matcher takes a whole signature for. -/
inductive SignatureRule
  | type
  | function
  deriving DecidableEq

def Shape.ofSignature? : SignatureRule → Signature → Option Shape
  | .type => Shape.ofType?
  | .function => Shape.ofFunction?

end Stepwise
