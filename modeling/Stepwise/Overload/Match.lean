import Stepwise.Overload.Shape

/-! # Matching calls

How each argument of a call is bound to its parameter. Identical types and
promotions are copied, other conversions are casts, and an lvalue that fits a
reference parameter is aliased.
-/

namespace Stepwise

/-- How an argument is bound to its parameter. -/
inductive ArgAction
  /-- A fresh cell with a copy, converted without loss if need be. -/
  | copy
  /-- The argument's own cell. -/
  | share
  /-- A fresh cell with the converted value. -/
  | cast
  deriving DecidableEq, Repr

structure Matcher where
  rule : SignatureRule
  limits : LimitsTable

namespace Matcher

/-- A conversion that keeps every value and ranks as a copy. -/
def isPromotion (m : Matcher) : ArithKind → ArithKind → Bool
  | .float, .double => true
  | .bool, k => k.isIntegral
  | k, .int => k.isIntegral && m.limits.rank k < m.limits.rank .int
  | _, _ => false

/-- The shape that stands for a template slot: none, if the slot has no argument. The search goes on
where an argument is a slot itself, and does not end if slots lead back to themselves. -/
def resolveSlot (bindings : List Shape) (slot : Nat) : Option (Option Shape) :=
  match bindings[slot]? with
  | none => some none
  | some (.template next _) => by
    -- a recursive call that is written out keeps its place in the file in the value of a fixpoint
    apply resolveSlot
    · exact bindings
    · exact next
  | some s => some (some s)
partial_fixpoint

/-- What stands for a parameter once template slots are replaced by their arguments. -/
def substitute (bindings : List Shape) : Shape → Option (Option Shape)
  | .template slot _ => resolveSlot bindings slot
  | s => some (some s)

/-- How a value of shape `a` converts to a parameter of shape `p` that is no template slot. -/
def convertShape (m : Matcher) (a p : Shape) : Option ArgAction :=
  if a.unqualified == p.unqualified then some .copy
  else
    match a.arith?, p.arith? with
    | some j, some k => some (if m.isPromotion j k then .copy else .cast)
    | _, _ =>
      match a, p with
      | .pointer a, .pointer p =>
        if a.isVoid || p.isVoid then some .cast
        else if a.unqualified == p.unqualified && p.isReadonly then some .cast
        else none
      | .function .., .pointer (.function ..) => if Shape.pointer a == p then some .copy else none
      | _, _ => none

/-- How a value of shape `a` converts to a parameter of shape `p`. -/
def convertValue (m : Matcher) (bindings : List Shape) (a p : Shape) : Option ArgAction :=
  match substitute bindings p with
  | none => none
  | some none => some .copy
  | some (some p) => m.convertShape a p

/-- How an argument of shape `a` is bound to a parameter of shape `p`; lvalues come as references. -/
def convert (m : Matcher) (bindings : List Shape) (a p : Shape) : Option ArgAction :=
  match a, p with
  | .reference a, .reference p =>
    if a.unqualified == p.unqualified && (p.isReadonly || !a.isReadonly) then some .share
    else if p.isReadonly then m.convertValue bindings a p
    else none
  | a, .reference p => if p.isReadonly then m.convertValue bindings a p else none
  | .reference a, p => m.convertValue bindings a p
  | a, p => m.convertValue bindings a p

/-- The actions that bind arguments to parameters in order; further arguments of a variadic
candidate are copied, and parameters without an argument must be optional. -/
def bindAll (m : Matcher) (bindings : List Shape) (variadic : Bool) :
    List (Shape × Bool) → List (Shape × Bool) → Option (List ArgAction)
  | [], params => if params.all Prod.snd then some [] else none
  | args, [] => if variadic then some (args.map fun _ => .copy) else none
  | (a, _) :: args, (p, _) :: params => do
    let action ← m.convert bindings a p
    return action :: (← bindAll m bindings variadic args params)

/-- So many arguments can be bound, as there are parameters for them or none is needed, and the
parameters without an argument are optional. -/
def takes (variadic : Bool) (args params : List (Shape × Bool)) : Bool :=
  (args.length ≤ params.length || variadic) && (params.drop args.length).all Prod.snd

theorem bindAll_of_not_takes {m : Matcher} {bindings : List Shape} {variadic : Bool}
    {args params : List (Shape × Bool)} (h : takes variadic args params = false) :
    m.bindAll bindings variadic args params = none := by
  induction args generalizing params with
  | nil => simpa [takes, bindAll] using h
  | cons a args ih =>
    cases params with
    | nil => simpa [takes, bindAll] using h
    | cons p params =>
      have hrest : m.bindAll bindings variadic args params = none :=
        ih (by simpa [takes] using h)
      rw [bindAll, hrest]
      cases m.convert bindings a.1 p.1 <;> rfl

theorem ite_takes_bindAll (m : Matcher) (bindings : List Shape) (variadic : Bool)
    (args params : List (Shape × Bool)) :
    (if takes variadic args params then m.bindAll bindings variadic args params else none) =
      m.bindAll bindings variadic args params := by
  split
  · rfl
  · next h => exact (bindAll_of_not_takes (by simpa using h)).symm

/-- The actions that bind a call to a candidate, or nothing if it does not accept the call. What
cannot be bound for its number of arguments is not looked at further. -/
def matchFunction (m : Matcher) (call candidate : Signature) (templates : List Signature) :
    Option (List ArgAction) := do
  match ← Shape.ofSignature? m.rule call, ← Shape.ofSignature? m.rule candidate with
  | .function _ args _, .function _ params variadic =>
    let bindings ← templates.mapM Shape.ofType?
    if takes variadic args params then m.bindAll bindings variadic args params else none
  | _, _ => none

/-- A value of one type converts to another without a cast being written. -/
def converts (m : Matcher) (a b : Signature) : Bool :=
  match Shape.ofType? a, Shape.ofType? b with
  | some a, some b => (m.convertValue [] a b).isSome
  | _, _ => false

end Matcher

end Stepwise
