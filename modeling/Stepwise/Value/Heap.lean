import Stepwise.Value.Basic

/-! # The heap

Blocks of cells, never freed, so that a cell stays reachable as long as any
pointer names it. A loaded value has the place it was loaded from, whatever place
its cell was filled with. Storing into a cell keeps its flags, and filling it anew keeps
it constant if it is. Copies of structs and arrays get blocks of their own.
-/

namespace Stepwise

structure Heap where
  blocks : Array (Array Value) := #[]

namespace Heap

/-- The cells of a block. -/
def cells (h : Heap) (id : BlockId) : Array Value := h.blocks.getD id #[]

/-- The heap with a new block. -/
def alloc (h : Heap) (cells : Array Value) : BlockId × Heap :=
  (h.blocks.size, ⟨h.blocks.push cells⟩)

/-- The value of a cell as an lvalue; nothing outside its block. -/
def load? (h : Heap) (p : Place) : Option Value :=
  (h.cells p.block)[p.index]?.map fun v => { v with place := some p }

/-- Changes a cell; nothing if there is none at the place. -/
def modify? (h : Heap) (p : Place) (f : Value → Value) : Option Heap :=
  if p.index < (h.cells p.block).size then
    some ⟨h.blocks.modify p.block fun cells => cells.modify p.index f⟩
  else none

/-- Stores a payload with its type; the cell keeps its flags. -/
def store? (h : Heap) (p : Place) (v : Value) : Option Heap :=
  h.modify? p fun cell => { cell with ty := v.ty, data := v.data }

/-- Fills a cell anew; it stays constant if it is. -/
def init? (h : Heap) (p : Place) (v : Value) : Option Heap :=
  h.modify? p fun cell => { v with place := none, readonly := v.readonly || cell.readonly }

end Heap

/-- Computations that read and change the heap. -/
abbrev HeapM := StateM Heap

instance {ε : Type} : MonadLift HeapM (EStateM ε Heap) := ⟨fun x => modifyGet x.run⟩

namespace HeapM

def alloc (cells : Array Value) : HeapM BlockId := modifyGet fun h => h.alloc cells

/-- A new variable that holds `v`. -/
def newSlot (v : Value) : HeapM Place := return .slot (← alloc #[v])

def load? (p : Place) : HeapM (Option Value) := return (← get).load? p

def cells (id : BlockId) : HeapM (Array Value) := return (← get).cells id

/-- Changes the heap by `f`, and says whether it could. -/
def attempt (f : Heap → Option Heap) : HeapM Bool :=
  modifyGet fun h =>
    match f h with
    | some h' => (true, h')
    | none => (false, h)

/-- A copy with storage of its own for struct members and owned arrays. A chain of blocks that own
one another is no longer than the heap, which bounds the recursion. -/
def deepCopyWithin : Nat → Value → HeapM Value
  | 0, v => return v.rvalue
  | bound + 1, v => do
    let copyBlock (store : BlockId) : HeapM BlockId := do
      let copies ← (← cells store).mapM fun cell => do
        return (← deepCopyWithin bound cell).withReadonly cell.readonly
      alloc copies
    match v.data with
    | .struct store => return { v.rvalue with data := .struct (← copyBlock store) }
    | .array (some store) position =>
      if v.ty.isArray then
        return { v.rvalue with data := .array (some (← copyBlock store)) position }
      else return v.rvalue
    | _ => return v.rvalue

def deepCopy (v : Value) : HeapM Value := do
  deepCopyWithin ((← get).blocks.size + 1) v

end HeapM

end Stepwise
