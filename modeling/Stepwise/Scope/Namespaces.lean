/-! # Namespaces

Libraries bind names into namespaces. A program reaches them by qualified names,
by another name that it gives to the namespace, or as bare names once it uses the
namespace. Paths are written with `::`.
-/

namespace Stepwise

structure Namespaces (α : Type) where
  /-- The bindings of each namespace, the latest first. -/
  tables : List (String × List (String × α)) := []
  aliases : List (String × String) := []
  /-- The namespaces in use, in the order in which that began. -/
  imported : List String := []

namespace Namespaces

variable {α : Type}

/-- The namespace that a path names. -/
def canonical (n : Namespaces α) (path : List String) : String :=
  let joined := "::".intercalate path
  (n.aliases.lookup joined).getD joined

def contains (n : Namespaces α) (name : String) : Bool := (n.tables.lookup name).isSome

/-- Binds a name; an earlier binding of it is forgotten. -/
def bind (n : Namespaces α) (space name : String) (a : α) : Namespaces α :=
  let bindings := (n.tables.lookup space).getD []
  { n with tables := (space, (name, a) :: bindings) :: n.tables }

/-- Gives the namespace at a path another name; an error is the namespace that is missing. -/
def addAlias (n : Namespaces α) (name : String) (path : List String) :
    Except String (Namespaces α) :=
  let target := n.canonical path
  if n.contains target then .ok { n with aliases := (name, target) :: n.aliases }
  else .error target

/-- Makes the names of the namespace at a path visible as bare names. -/
def use (n : Namespaces α) (path : List String) : Except String (Namespaces α) :=
  let target := n.canonical path
  if !n.contains target then .error target
  else if n.imported.contains target then .ok n
  else .ok { n with imported := n.imported ++ [target] }

def lookupIn (n : Namespaces α) (space name : String) : Option α := do
  (← n.tables.lookup space).lookup name

/-- What a qualified name stands for. -/
def lookup (n : Namespaces α) (path : List String) : Option α := do
  n.lookupIn (n.canonical path.dropLast) (← path.getLast?)

/-- What a bare name stands for in the namespaces in use. -/
def lookupImported (n : Namespaces α) (name : String) : Option α :=
  n.imported.findSome? fun space => n.lookupIn space name

end Namespaces

end Stepwise
