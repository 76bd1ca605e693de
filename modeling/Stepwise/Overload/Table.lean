import Stepwise.Fault.Basic
import Stepwise.Overload.Match

/-! # Overload tables

The overloads of each name in the order of their declaration. A call goes to the
candidate that needs the fewest casts, and several such candidates are a fault.
Answers are remembered by the text of the call until an overload is added.
-/

namespace Stepwise

structure Overload where
  signature : Signature
  id : Nat
  templateSlots : Nat
  type : FunctionTy

/-- The overload that a call goes to, and how its arguments are bound. -/
structure FunctionMatch where
  id : Nat
  type : FunctionTy
  actions : List ArgAction

def FunctionMatch.casts (m : FunctionMatch) : Nat := m.actions.count .cast

/-- The overloads of one name. -/
structure OverloadSet where
  overloads : List Overload := []
  /-- The answers given since the last overload was added, by the text of the call. -/
  answers : List (String × Option FunctionMatch) := []

namespace OverloadSet

/-- The overload declared with exactly this signature. -/
def declared? (s : OverloadSet) (signature : Signature) : Option Nat :=
  (s.overloads.find? fun o => o.signature.text == signature.text).map Overload.id

/-- Adds an overload, unless one with the same signature is known. -/
def add (s : OverloadSet) (name : String) (o : Overload) : Except NameFault OverloadSet :=
  match s.declared? o.signature with
  | some _ => .error (.redeclared name)
  | none => .ok { overloads := s.overloads ++ [o], answers := [] }

/-- The candidates that accept a call, in the order of their declaration. -/
def candidates (s : OverloadSet) (m : Matcher) (call : Signature) (templates : List Signature) :
    List (Overload × FunctionMatch) :=
  (s.overloads.filter fun o => templates.length ≤ o.templateSlots).filterMap fun o =>
    (m.matchFunction call o.signature templates).map fun actions => (o, ⟨o.id, o.type, actions⟩)

/-- The elements whose cost is least. -/
def cheapest {α : Type} (cost : α → Nat) (xs : List α) : List α :=
  xs.filter fun x => xs.all fun y => cost x ≤ cost y

/-- The resolution of a call over the overloads declared so far. -/
def resolveFresh (s : OverloadSet) (name : String) (m : Matcher) (call : Signature)
    (templates : List Signature) : Except NameFault (Option FunctionMatch) :=
  match cheapest (fun c => c.2.casts) (s.candidates m call templates) with
  | [] => .ok none
  | [(_, found)] => .ok (some found)
  | several => .error (.ambiguous name (several.map fun (o, _) => o.signature.text))

/-- The text under which an answer is remembered. -/
def callText (call : Signature) (templates : List Signature) : String :=
  templates.foldl (fun text t => text ++ " <" ++ t.text ++ ">") call.text

/-- The resolution of a call, and the set that remembers it. -/
def resolve (s : OverloadSet) (name : String) (m : Matcher) (call : Signature)
    (templates : List Signature) : Except NameFault (Option FunctionMatch × OverloadSet) :=
  let text := callText call templates
  match s.answers.lookup text with
  | some answer => .ok (answer, s)
  | none => do
    let answer ← s.resolveFresh name m call templates
    return (answer, { s with answers := (text, answer) :: s.answers })

/-- The only overload; there may be none, but not several. -/
def single? (s : OverloadSet) (name : String) : Except NameFault (Option Overload) :=
  match s.overloads with
  | [] => .ok none
  | [o] => .ok (some o)
  | _ => .error (.manyCandidates name)

end OverloadSet

/-- The overload sets of one owner: the global scope, a namespace or a struct. -/
structure OverloadTable where
  sets : List (String × OverloadSet) := []

namespace OverloadTable

def set? (t : OverloadTable) (name : String) : Option OverloadSet := t.sets.lookup name

def contains (t : OverloadTable) (name : String) : Bool := (t.set? name).isSome

/-- The table with the set of `name` replaced, or added at the end. -/
def put (t : OverloadTable) (name : String) (s : OverloadSet) : OverloadTable :=
  if t.contains name then
    { sets := t.sets.map fun (n, old) => if n == name then (n, s) else (n, old) }
  else { sets := t.sets ++ [(name, s)] }

def overloads (t : OverloadTable) (name : String) : List Overload :=
  ((t.set? name).map OverloadSet.overloads).getD []

/-- Registers a function under its name. -/
def add (t : OverloadTable) (name : String) (type : FunctionTy) (id templateSlots : Nat) :
    Except NameFault OverloadTable := do
  let s := (t.set? name).getD {}
  return t.put name (← s.add name ⟨.ofFunction type, id, templateSlots, type⟩)

/-- The function declared with exactly the parameters of `type`. -/
def declared? (t : OverloadTable) (name : String) (type : FunctionTy) : Option Nat :=
  (t.set? name).bind fun s => s.declared? (.ofFunction type)

/-- The resolution of a call, and the table that remembers it. -/
def resolve (t : OverloadTable) (m : Matcher) (name : String) (args : List ArgSig)
    (templates : List Ty) : Except NameFault (Option FunctionMatch × OverloadTable) :=
  match t.set? name with
  | none => .ok (none, t)
  | some s => do
    let (answer, s') ← s.resolve name m (.ofCall args) (templates.map .ofType)
    return (answer, t.put name s')

/-- The only function of a name. -/
def single? (t : OverloadTable) (name : String) : Except NameFault (Option (Nat × FunctionTy)) :=
  match t.set? name with
  | none => .ok none
  | some s => do return (← s.single? name).map fun o => (o.id, o.type)

end OverloadTable

end Stepwise
