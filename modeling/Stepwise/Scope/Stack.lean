/-! # Scopes

Scopes nest inside the global scope, and a function call opens a frame. Names are
looked up in the scopes of the innermost frame and then in the global scope, so
that a function never sees the names of its caller. The things that names stand
for are of any type `α`.
-/

namespace Stepwise

structure Scope (α : Type) where
  name : String
  /-- The first scope of a function call, or the global one. -/
  frame : Bool
  /-- The names in the order of their declaration, each at most once. -/
  entries : List (String × α) := []

namespace Scope

variable {α : Type}

def get? (s : Scope α) (name : String) : Option α := s.entries.lookup name

def contains (s : Scope α) (name : String) : Bool := (s.get? name).isSome

/-- The scope with one more name at the end. -/
def add (s : Scope α) (name : String) (a : α) : Scope α :=
  { s with entries := s.entries ++ [(name, a)] }

end Scope

structure Scopes (α : Type) where
  /-- The scopes above the global one, the innermost first. -/
  inner : List (Scope α) := []
  global : Scope α := { name := "global", frame := true }

namespace Scopes

variable {α : Type}

def push (s : Scopes α) (name : String) : Scopes α :=
  { s with inner := { name, frame := false } :: s.inner }

/-- Opens the first scope of a function call. -/
def pushFrame (s : Scopes α) (name : String) : Scopes α :=
  { s with inner := { name, frame := true } :: s.inner }

/-- Leaves the innermost scope; the global one stays. -/
def pop (s : Scopes α) : Scopes α := { s with inner := s.inner.tail }

/-- The number of scopes, the global one included. -/
def depth (s : Scopes α) : Nat := s.inner.length + 1

/-- Leaves scopes until there are at most `depth`. -/
def truncate (s : Scopes α) (depth : Nat) : Scopes α :=
  { s with inner := s.inner.drop (s.inner.length - (depth - 1)) }

def current (s : Scopes α) : Scope α := s.inner.headD s.global

/-- Adds a name to the innermost scope; nothing if it has that name. -/
def define? (s : Scopes α) (name : String) (a : α) : Option (Scopes α) :=
  if s.current.contains name then none
  else
    match s.inner with
    | [] => some { s with global := s.global.add name a }
    | scope :: rest => some { s with inner := scope.add name a :: rest }

/-- Adds a name to the global scope, unless it has that name. -/
def defineGlobal (s : Scopes α) (name : String) (a : α) : Scopes α :=
  if s.global.contains name then s else { s with global := s.global.add name a }

/-- The scopes up to the first frame. -/
def frameScopes : List (Scope α) → List (Scope α)
  | [] => []
  | scope :: rest => scope :: if scope.frame then [] else frameScopes rest

/-- The scopes in which names are looked up, in that order. -/
def visible (s : Scopes α) : List (Scope α) := frameScopes s.inner ++ [s.global]

def lookup (s : Scopes α) (name : String) : Option α :=
  s.visible.findSome? fun scope => scope.get? name

/-- The entries whose name neither is in `seen` nor comes earlier. -/
def unshadowed (seen : List String) : List (String × α) → List (String × α)
  | [] => []
  | (name, a) :: rest =>
    if seen.contains name then unshadowed seen rest
    else (name, a) :: unshadowed (name :: seen) rest

/-- The names in view, the innermost first, and what they stand for. -/
def bindings (s : Scopes α) : List (String × α) :=
  unshadowed [] (s.visible.flatMap Scope.entries)

@[simp] theorem depth_push (s : Scopes α) (name : String) :
    (s.push name).depth = s.depth + 1 := rfl

@[simp] theorem depth_pushFrame (s : Scopes α) (name : String) :
    (s.pushFrame name).depth = s.depth + 1 := rfl

@[simp] theorem pop_push (s : Scopes α) (name : String) : (s.push name).pop = s := rfl

theorem depth_truncate (s : Scopes α) {d : Nat} (h : 0 < d) :
    (s.truncate d).depth = min d s.depth := by
  simp only [truncate, depth, List.length_drop]
  omega

theorem depth_define? {s t : Scopes α} {name : String} {a : α} (h : s.define? name a = some t) :
    t.depth = s.depth := by
  unfold define? at h
  split at h
  · cases h
  · split at h <;> · cases h; simp_all [depth]

end Scopes

end Stepwise
