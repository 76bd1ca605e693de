import Stepwise.Machine.State

/-! # Registering functions

A function is an entry under a number, and the overload table of its owner files the
number by name and parameters. A definition completes an earlier prototype with the
same parameters, and takes over its number.
-/

namespace Stepwise

namespace RunM

def redeclared {α : Type} (name : String) : RunM α := fail (.name (.redeclared name))

/-- The entry with a number. -/
def function (id : Nat) : RunM FunctionEntry := do
  match (← get).functions[id]? with
  | some entry => return entry
  | none => fail (.name (.unknownFunction id))

/-- Completes the prototype with a number by its definition. -/
def complete (id : Nat) (entry : FunctionEntry) : RunM Unit := do
  let existing ← function id
  if !(existing.type.ret == entry.type.ret) then redeclared entry.name
  match existing.body, entry.body with
  | _, .prototype => return
  | .prototype, body =>
    modify fun s =>
      { s with functions := s.functions.modify id fun e => { e with body, params := entry.params } }
  | _, _ => redeclared entry.name

/-- Registers an overload, or completes its prototype. -/
def register (entry : FunctionEntry) : RunM Unit := do
  let s ← get
  let table := s.tables.table entry.owner
  match table.declared? entry.name entry.type with
  | some id => complete id entry
  | none =>
    match table.add entry.name entry.type s.functions.size 0 with
    | .error cause => fail (.name cause)
    | .ok table =>
      modify fun s =>
        { s with tables := s.tables.put entry.owner table, functions := s.functions.push entry }

/-- The value of a global function's name. -/
def functionValue (name : String) (type : FunctionTy) : Value :=
  { ty := .function type, data := .function ⟨name, .global, none⟩, readonly := true }

/-- Makes a global function visible by its name. -/
def defineFunctionName (name : String) (type : FunctionTy) : RunM Unit := do
  let p ← onHeap (HeapM.newSlot (functionValue name type))
  onScopes fun s => s.defineGlobal name p

end RunM

end Stepwise
