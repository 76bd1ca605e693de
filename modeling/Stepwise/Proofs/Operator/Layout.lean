import Stepwise.Operator.Number
import Stepwise.Value.Heap

/-! # Well-formed heaps

Every cell of a well-formed heap holds a payload of its type. Types are compared as the
language compares them, with structs told apart by their names, and a struct payload is a
block with one cell for each member of its definition. Cells may change their payloads
and blocks may be added, but no cell changes its type.
-/

namespace Stepwise

namespace Ty

mutual

/-- The type with its structs reduced to their names. -/
def named : Ty → Ty
  | pointer target c => pointer (named target) c
  | array element n => array (named element) n
  | functionPointer f => functionPointer (namedFunction f)
  | function f => function (namedFunction f)
  | struct name _ => struct name []
  | t => t

def namedFunction : FunctionOf Ty → FunctionOf Ty
  | ⟨ret, params, variadic⟩ => ⟨named ret, namedParams params, variadic⟩

def namedParams : List (ParamOf Ty) → List (ParamOf Ty)
  | [] => []
  | p :: ps => namedParam p :: namedParams ps

def namedParam : ParamOf Ty → ParamOf Ty
  | ⟨ty, reference, readonly, optional⟩ => ⟨named ty, reference, readonly, optional⟩

end

mutual

theorem beq_iff : ∀ t u : Ty, beq t u = true ↔ t.named = u.named
  | .pointer a _, u => by cases u <;> simp [beq, named, beq_iff a]
  | .array a _, u => by cases u <;> simp [beq, named, beq_iff a]
  | .functionPointer f, u => by cases u <;> simp [beq, named, beqFunction_iff f]
  | .function f, u => by cases u <;> simp [beq, named, beqFunction_iff f]
  | .struct .., u | .void, u | .marker, u | .arith _, u => by cases u <;> simp [beq, named]

theorem beqFunction_iff : ∀ f g : FunctionOf Ty,
    beqFunction f g = true ↔ namedFunction f = namedFunction g
  | ⟨ret, params, _⟩, ⟨_, _, _⟩ => by
    simp [beqFunction, namedFunction, beq_iff ret, beqParams_iff params, and_assoc]

theorem beqParams_iff : ∀ ps qs : List (ParamOf Ty),
    beqParams ps qs = true ↔ namedParams ps = namedParams qs
  | [], qs => by cases qs <;> simp [beqParams, namedParams]
  | p :: ps, qs => by
    cases qs <;> simp [beqParams, namedParams, beqParam_iff p, beqParams_iff ps]

theorem beqParam_iff : ∀ p q : ParamOf Ty, beqParam p q = true ↔ namedParam p = namedParam q
  | ⟨ty, _, _, _⟩, ⟨_, _, _, _⟩ => by simp [beqParam, namedParam, beq_iff ty, and_assoc]

end

/-- Types are the same when their names for structs are. -/
theorem beq_iff_named {t u : Ty} : (t == u) = true ↔ t.named = u.named := beq_iff t u

end Ty

namespace Heap

/-- The types of the cells of a block. -/
def types (h : Heap) (b : BlockId) : List Ty := (h.cells b).toList.map fun cell => cell.ty.named

/-- The payloads of a type, where each struct has members of the types that are given. -/
inductive Fits (members : String → List Ty) (h : Heap) : Ty → Data → Prop
  | void : Fits members h .void .void
  | marker : Fits members h .marker .void
  | int {k : ArithKind} {v : Int} (hk : k.isIntegral = true)
      (hv : ({} : LimitsTable).holds k v = true) : Fits members h (.arith k) (.int v)
  | float {k : ArithKind} {x : SignedFloat} (hk : k.isFloat = true) :
      Fits members h (.arith k) (.float x)
  | pointer {ty : Ty} {d : Data} (hty : ty.isPointer = true) (hd : d.isPointer = true) :
      Fits members h ty d
  | function {f : FunctionTy} {target : FunctionRef} :
      Fits members h (.function f) (.function target)
  | struct {name : String} {ms : List MemberTy} {store : BlockId} (hs : store < h.blocks.size)
      (ht : h.types store = (members name).map Ty.named) :
      Fits members h (.struct name ms) (.struct store)

/-- Every cell holds a payload of its type. -/
def WellFormed (members : String → List Ty) (h : Heap) : Prop :=
  ∀ b, ∀ cell ∈ h.cells b, h.Fits members cell.ty cell.data

/-- The cells of the first heap are in the second one, with their types. -/
structure Keeps (h h' : Heap) : Prop where
  size : h.blocks.size ≤ h'.blocks.size
  types : ∀ b < h.blocks.size, h'.types b = h.types b

variable {members : String → List Ty} {h h' h'' : Heap}

theorem Keeps.refl (h : Heap) : h.Keeps h := ⟨Nat.le_refl _, fun _ _ => rfl⟩

theorem Keeps.trans (hk : h.Keeps h') (hk' : h'.Keeps h'') : h.Keeps h'' where
  size := Nat.le_trans hk.size hk'.size
  types b hb := (hk'.types b (Nat.lt_of_lt_of_le hb hk.size)).trans (hk.types b hb)

theorem Fits.mono {ty : Ty} {d : Data} (hf : h.Fits members ty d) (hk : h.Keeps h') :
    h'.Fits members ty d := by
  cases hf with
  | void => exact .void
  | marker => exact .marker
  | int hi hv => exact .int hi hv
  | float hx => exact .float hx
  | pointer hty hd => exact .pointer hty hd
  | function => exact .function
  | struct hs ht => exact .struct (Nat.lt_of_lt_of_le hs hk.size) ((hk.types _ hs).trans ht)

theorem isPointer_named (t : Ty) : t.named.isPointer = t.isPointer := by cases t <;> rfl

/-- Types that are the same have the same payloads. -/
theorem Fits.congr {t u : Ty} {d : Data} (hf : h.Fits members t d) (htu : t.named = u.named) :
    h.Fits members u d := by
  cases hf with
  | pointer hty hd =>
    refine .pointer ?_ hd
    rw [← isPointer_named, ← htu, isPointer_named, hty]
  | void => cases u <;> simp [Ty.named] at htu; exact .void
  | marker => cases u <;> simp [Ty.named] at htu; exact .marker
  | int hi hv => cases u <;> simp [Ty.named] at htu; exact htu ▸ .int hi hv
  | float hx => cases u <;> simp [Ty.named] at htu; exact htu ▸ .float hx
  | function => cases u <;> simp [Ty.named] at htu; exact .function
  | struct hs ht => cases u <;> simp [Ty.named] at htu; exact htu ▸ .struct hs ht

section Cells

theorem cells_eq_getD (h : Heap) (b : BlockId) : h.cells b = (h.blocks[b]?).getD #[] := by
  rw [cells, Array.getD_eq_getD_getElem?]

theorem lt_size_of_mem_cells {b : BlockId} {cell : Value} (hc : cell ∈ h.cells b) :
    b < h.blocks.size := by
  refine Nat.lt_of_not_le fun hb => ?_
  rw [cells_eq_getD, Array.getElem?_eq_none hb] at hc
  simp at hc

theorem getElem?_types (h : Heap) (b : BlockId) (i : Nat) :
    (h.types b)[i]? = ((h.cells b)[i]?).map fun cell => cell.ty.named := by
  simp [types]

/-- The type of a cell that is kept. -/
theorem Keeps.cell (hk : h.Keeps h') {b : BlockId} {i : Nat} {cell : Value}
    (hc : (h.cells b)[i]? = some cell) :
    ∃ cell', (h'.cells b)[i]? = some cell' ∧ cell'.ty.named = cell.ty.named := by
  have ht := hk.types b (lt_size_of_mem_cells (Array.mem_of_getElem? hc))
  have hi := (getElem?_types h' b i).symm.trans (ht ▸ getElem?_types h b i)
  rw [hc, Option.map_some, Option.map_eq_some_iff] at hi
  exact hi

theorem cells_alloc (h : Heap) (cells : Array Value) (b : BlockId) :
    (h.alloc cells).2.cells b = if b = h.blocks.size then cells else h.cells b := by
  simp only [alloc, cells_eq_getD, Array.getElem?_push]
  split <;> rfl

theorem keeps_alloc (h : Heap) (cells : Array Value) : h.Keeps (h.alloc cells).2 where
  size := by simp [alloc]
  types b hb := by rw [types, types, cells_alloc, if_neg (Nat.ne_of_lt hb)]

theorem wellFormed_empty : ({} : Heap).WellFormed members := fun b cell hc => by
  rw [cells_eq_getD] at hc
  simp at hc

theorem WellFormed.alloc (hw : h.WellFormed members) {cells : Array Value}
    (hc : ∀ cell ∈ cells, h.Fits members cell.ty cell.data) :
    (h.alloc cells).2.WellFormed members := by
  intro b cell hm
  rw [cells_alloc] at hm
  refine Fits.mono ?_ (keeps_alloc h cells)
  split at hm
  · exact hc cell hm
  · exact hw b cell hm

variable {p : Place} {f : Value → Value}

theorem cells_of_modify? (hm : h.modify? p f = some h') (b : BlockId) :
    h'.cells b = if p.block = b then (h.cells b).modify p.index f else h.cells b := by
  obtain ⟨-, h'⟩ := Option.ite_none_right_eq_some.mp hm
  cases h'
  simp only [cells_eq_getD, Array.getElem?_modify]
  split
  · cases h.blocks[b]? <;> simp
  · rfl

theorem size_of_modify? (hm : h.modify? p f = some h') : h'.blocks.size = h.blocks.size := by
  obtain ⟨-, h'⟩ := Option.ite_none_right_eq_some.mp hm
  cases h'
  simp

theorem size_cells_of_modify? (hm : h.modify? p f = some h') (b : BlockId) :
    (h'.cells b).size = (h.cells b).size := by
  rw [cells_of_modify? hm]
  split
  · exact Array.size_modify
  · rfl

theorem getElem?_cells_of_modify? (hm : h.modify? p f = some h') (b : BlockId) (i : Nat) :
    (h'.cells b)[i]? =
      if p.block = b ∧ p.index = i then (h.cells b)[i]?.map f else (h.cells b)[i]? := by
  rw [cells_of_modify? hm]
  by_cases hb : p.block = b
  · simp only [hb, if_true, true_and, Array.getElem?_modify]
  · simp only [hb, false_and, if_false]

/-- A cell was there before, or it is the one that was changed. -/
theorem mem_cells_of_modify? (hm : h.modify? p f = some h') {b : BlockId} {cell : Value}
    (hc : cell ∈ h'.cells b) : cell ∈ h.cells b ∨
      p.block = b ∧ ∃ old, (h.cells b)[p.index]? = some old ∧ f old = cell := by
  obtain ⟨i, hi⟩ := Array.mem_iff_getElem?.mp hc
  rw [getElem?_cells_of_modify? hm] at hi
  split at hi
  · rename_i hp
    obtain ⟨hb, rfl⟩ := hp
    exact .inr ⟨hb, Option.map_eq_some_iff.mp hi⟩
  · exact .inl (Array.mem_of_getElem? hi)

theorem keeps_of_modify? (hm : h.modify? p f = some h')
    (hf : ∀ cell, (h.cells p.block)[p.index]? = some cell → (f cell).ty.named = cell.ty.named) :
    h.Keeps h' where
  size := Nat.le_of_eq (size_of_modify? hm).symm
  types b _ := by
    refine List.ext_getElem? fun i => ?_
    rw [getElem?_types, getElem?_types, getElem?_cells_of_modify? hm]
    split
    · rename_i hp
      obtain ⟨rfl, rfl⟩ := hp
      cases hc : (h.cells p.block)[p.index]? with
      | none => rfl
      | some cell => exact congrArg some (hf cell hc)
    · rfl

theorem WellFormed.modify? (hw : h.WellFormed members) (hm : h.modify? p f = some h')
    (hf : ∀ cell, (h.cells p.block)[p.index]? = some cell →
      (f cell).ty.named = cell.ty.named ∧ h.Fits members (f cell).ty (f cell).data) :
    h'.WellFormed members := by
  have hk := keeps_of_modify? hm fun cell hc => (hf cell hc).1
  intro b cell hc
  refine Fits.mono ?_ hk
  rcases mem_cells_of_modify? hm hc with hc | ⟨rfl, old, hold, rfl⟩
  · exact hw b cell hc
  · exact (hf old hold).2

end Cells

end Heap

end Stepwise

/-! ## Numbers of their kinds

Whatever the overflow policy, every number that arithmetic hands out is fitted to its
kind: an integer between the bounds of an integral kind, a float of a floating one.
-/

namespace Stepwise

theorem exists_of_bind_eq_ok {ε α β : Type} {x : Except ε α} {f : α → Except ε β} {b : β}
    (h : x >>= f = .ok b) : ∃ a, x = .ok a ∧ f a = .ok b := by
  cases x with
  | error => cases h
  | ok a => exact ⟨a, rfl, h⟩

namespace Limits

theorem exists_integral {k : ArithKind} (hk : k.isIntegral = true) :
    ∃ min max, (standard k).range = .integral min max ∧ min ≤ max := by
  cases k <;> first | exact ⟨_, _, rfl, by decide⟩ | cases hk

theorem exists_floating {k : ArithKind} (hk : k.isFloat = true) :
    ∃ max, (standard k).range = .floating max := by
  cases k <;> first | exact ⟨_, rfl⟩ | cases hk

end Limits

namespace LimitsTable

/-- The table has the standard limits. -/
def Standard (t : LimitsTable) : Prop := ∀ k, t.get k = .standard k

theorem standard_empty : ({} : LimitsTable).Standard := get_default

theorem holds_iff {k : ArithKind} {min max v : Int}
    (hr : (Limits.standard k).range = .integral min max) :
    ({} : LimitsTable).holds k v = true ↔ min ≤ v ∧ v ≤ max := by
  simp [holds, get_default, hr]

end LimitsTable

/-- A value as an operand: its payload is of its type, and the cell that it was read from has that
type too. -/
structure Heap.Holds (members : String → List Ty) (h : Heap) (v : Value) : Prop where
  fits : h.Fits members v.ty v.data
  placed : ∀ p, v.place = some p → ∃ cell, h.load? p = some cell ∧ cell.ty.named = v.ty.named

section

variable {members : String → List Ty} {h : Heap} {n : Numerics} {k : ArithKind} {x : Number}
  {v w a b : Int} {d : Data} {r : Value}

theorem Heap.Holds.fresh {ty : Ty} (hf : h.Fits members ty d) : h.Holds members (.fresh ty d) :=
  ⟨hf, nofun⟩

theorem Heap.holds_bool (b : Bool) : h.Holds members (.bool b) :=
  .fresh (.int rfl (by cases b <;> decide))

namespace Numerics

theorem holds_of_fitInt (hn : n.limits.Standard) (hk : k.isIntegral = true)
    (hw : n.fitInt k v = .ok w) : ({} : LimitsTable).holds k w = true := by
  obtain ⟨min, max, hr, hle⟩ := Limits.exists_integral hk
  rw [LimitsTable.holds_iff hr]
  simp only [fitInt, hn k, hr] at hw
  split at hw
  · rename_i hin
    cases hw
    simpa using hin
  · split at hw <;> cases hw
    exact wrapInto_mem v hle

theorem fits_int_of_fitInt (hn : n.limits.Standard) (hk : k.isIntegral = true)
    (hd : (do return .int (← n.fitInt k v)) = Except.ok d) : h.Fits members (.arith k) d := by
  obtain ⟨w, hw, hd⟩ := exists_of_bind_eq_ok hd
  cases hd
  exact .int hk (holds_of_fitInt hn hk hw)

theorem fits_of_fit (hn : n.limits.Standard) (hd : n.fit k x = .ok d) :
    h.Fits members (.arith k) d := by
  unfold fit at hd
  split at hd
  · rename_i hk
    cases hd
    exact hk ▸ .int rfl (by split <;> decide)
  rw [hn k] at hd
  cases hk : k.isFloat with
  | true =>
    obtain ⟨max, hr⟩ := Limits.exists_floating hk
    simp only [hr] at hd
    split at hd <;> cases hd
    exact .float hk
  | false =>
    have hk : k.isIntegral = true := by rw [ArithKind.isIntegral, hk]; rfl
    obtain ⟨min, max, hr, -⟩ := Limits.exists_integral hk
    simp only [hr] at hd
    cases x with
    | int v => exact fits_int_of_fitInt hn hk hd
    | float f =>
      dsimp only at hd
      split at hd
      · exact fits_int_of_fitInt hn hk hd
      · cases hd

theorem holds_of_value (hn : n.limits.Standard) (hr : n.value k x = .ok r) :
    h.Holds members r := by
  obtain ⟨d, hd, hr⟩ := exists_of_bind_eq_ok hr
  cases hr
  exact .fresh (fits_of_fit hn hd)

theorem holds_of_shift (hn : n.limits.Standard) {op : BinaryOp}
    (hr : n.shift op k a b = .ok r) : h.Holds members r := by
  unfold shift at hr
  dsimp only at hr
  split at hr
  · cases hr
  · split at hr
    · exact holds_of_value hn hr
    · split at hr
      · exact holds_of_value hn hr
      · split at hr
        · exact holds_of_value hn hr
        · cases hr

/-- Every operator on two numbers has a number as its result. -/
theorem holds_of_binary (hn : n.limits.Standard) {op : BinaryOp} {cause : OperatorFault}
    {j : ArithKind} {y : Number} (hr : n.binary op cause j x k y = .ok r) :
    h.Holds members r := by
  unfold binary at hr
  dsimp only at hr
  split at hr
  · cases hr
    exact Heap.holds_bool _
  · split at hr
    · split at hr
      · exact holds_of_value hn hr
      · cases hr
    · split at hr
      · split at hr
        · exact holds_of_shift hn hr
        · split at hr
          · obtain ⟨v, -, hr⟩ := exists_of_bind_eq_ok hr
            exact holds_of_value hn hr
          · cases hr
      · cases hr

theorem holds_of_negate (hn : n.limits.Standard) (hr : n.negate k x = .ok r) :
    h.Holds members r := by
  cases x <;> exact holds_of_value hn hr

theorem holds_of_complement (hn : n.limits.Standard) (hr : n.complement k v = .ok r) :
    h.Holds members r := holds_of_value hn hr

/-- A number that is stepped stays one of its kind. -/
theorem fits_of_step (hn : n.limits.Standard) {increment : Bool} {overflow : Unit → OperatorFault}
    {old : Data} (hold : h.Fits members (.arith k) old) (hx : old.number? = some x)
    (hd : n.step k x increment overflow = .ok d) : h.Fits members (.arith k) d := by
  cases x with
  | float f => exact fits_of_fit hn hd
  | int v =>
    have hk : k.isIntegral = true := by
      cases hold with
      | int hk => exact hk
      | float hk => cases hx
      | pointer hty => cases hty
    simp only [step] at hd
    generalize (if increment = true then v + 1 else v - 1) = next at hd
    split at hd
    · cases hd
    · exact fits_int_of_fitInt hn hk hd

end Numerics

end

end Stepwise
