import Mathlib.Data.List.Forall2
import Stepwise.Proofs.Operator.Atomicity

/-! # Parts of objects and deep copies

A struct owns the block of its members, and an array the block of its elements. A part of an
object is reached by the indices on the way down to it. It is read from a cell, so it is a left
value, and its contents are what is left of it without the places of its cell and of its parts.

A deep copy has the parts of the original with their contents and their flags, and it owns blocks of
its own, however deep they lie.
-/

namespace Stepwise

namespace Value

/-- The block that the value owns. -/
def block? (v : Value) : Option BlockId :=
  match v.data with
  | .struct store => some store
  | .array store _ => if v.ty.isArray then store else none
  | _ => none

/-- What the parts of the value are. -/
def partRole (v : Value) : PlaceRole :=
  match v.data with
  | .struct _ => .member
  | _ => .element

/-- The value apart from where its cell and its parts are. -/
def contents (v : Value) : Value :=
  { v with
    place := none
    data := match v.data with
      | .struct _ => .struct 0
      | .array store position => .array (if v.ty.isArray then store.map fun _ => 0 else store) position
      | data => data }

/-- The value as it is read from a place. -/
def placed (v : Value) (p : Place) : Value := { v with place := some p }

variable {v w : Value} {p : Place} {a b : BlockId}

@[simp] theorem block?_placed : (v.placed p).block? = v.block? := rfl

@[simp] theorem block?_rvalue : v.rvalue.block? = v.block? := rfl

@[simp] theorem block?_withReadonly (r : Bool) : (v.withReadonly r).block? = v.block? := rfl

@[simp] theorem contents_placed : (v.placed p).contents = v.contents := rfl

@[simp] theorem readonly_contents : v.contents.readonly = v.readonly := rfl

theorem block?_eq_some_iff : v.block? = some b ↔ v.data = .struct b ∨
    v.ty.isArray = true ∧ ∃ position, v.data = .array (some b) position := by
  unfold block?
  split <;> simp_all

/-- A value that is no left value and owns the block instead of the one that this value owns. -/
def onBlock (v : Value) (b : BlockId) : Value :=
  { v.rvalue with
    data := match v.data with
      | .struct _ => .struct b
      | .array _ position => .array (some b) position
      | data => data }

theorem block?_onBlock (h : v.block? = some a) : (v.onBlock b).block? = some b := by
  rcases block?_eq_some_iff.mp h with hd | ⟨harray, position, hd⟩
  · exact block?_eq_some_iff.mpr (.inl (by rw [onBlock, hd]))
  · exact block?_eq_some_iff.mpr (.inr ⟨harray, position, by rw [onBlock, hd]⟩)

theorem contents_onBlock (h : v.block? = some a) (b : BlockId) :
    (v.onBlock b).contents = v.rvalue.contents := by
  rcases block?_eq_some_iff.mp h with hd | ⟨harray, position, hd⟩
  · simp only [onBlock, contents, rvalue, hd]
  · simp only [onBlock, contents, rvalue, hd, if_pos harray, Option.map_some]

end Value

namespace Heap

open Value

/-- The part of a value at the end of a way down. -/
def part? (h : Heap) : Value → List Nat → Option Value
  | v, [] => some v
  | v, i :: path =>
    v.block?.bind fun b => (h.load? ⟨v.partRole, b, i⟩).bind fun w => h.part? w path

/-- Every block that a cell owns is there. -/
def Closed (h : Heap) : Prop :=
  ∀ b, ∀ cell ∈ h.cells b, ∀ s, cell.block? = some s → s < h.blocks.size

/-- The block that the value owns is there. -/
def Covers (h : Heap) (v : Value) : Prop := ∀ b, v.block? = some b → b < h.blocks.size

variable {h h' h'' : Heap} {v w u : Value} {b : BlockId} {i : Nat} {path : List Nat}

/-- What holds of all cells is checked block by block. -/
theorem forall_cells {P : BlockId → Value → Prop} : (∀ b, ∀ cell ∈ h.cells b, P b cell) ↔
    ∀ b < h.blocks.size, ∀ cell ∈ h.cells b, P b cell :=
  ⟨fun hP b _ => hP b, fun hP b cell hcell => hP b (lt_size_of_mem_cells hcell) cell hcell⟩

instance : Decidable (h.Covers v) :=
  inferInstanceAs (Decidable (∀ b, v.block? = some b → b < h.blocks.size))

instance : Decidable h.Closed := decidable_of_iff
  (∀ b < h.blocks.size, ∀ cell ∈ h.cells b, ∀ s ∈ cell.block?, s < h.blocks.size) forall_cells.symm

theorem part?_cons : h.part? v (i :: path) = v.block?.bind fun b =>
    (h.cells b)[i]?.bind fun cell => h.part? (cell.placed ⟨v.partRole, b, i⟩) path := by
  simp only [part?, load?, Option.bind_map]
  rfl

theorem part?_of_block? (hb : v.block? = some b) : h.part? v (i :: path) =
    (h.cells b)[i]?.bind fun cell => h.part? (cell.placed ⟨v.partRole, b, i⟩) path := by
  rw [part?_cons, hb, Option.bind_some]

theorem part?_of_block?_none (hb : v.block? = none) : h.part? v (i :: path) = none := by
  rw [part?_cons, hb, Option.bind_none]

/-- The way down begins with the payload. -/
theorem part?_congr (hb : v.block? = w.block?) (hr : v.partRole = w.partRole) (hp : path ≠ []) :
    h.part? v path = h.part? w path := by
  cases path with
  | nil => exact absurd rfl hp
  | cons i path => rw [part?_cons, part?_cons, hb, hr]

theorem contents_part?_placed (p : Place) :
    (h.part? (v.placed p) path).map contents = (h.part? v path).map contents := by
  cases path with
  | nil => rfl
  | cons i path => exact congrArg _ (part?_congr rfl rfl (List.cons_ne_nil i path))

/-- The block that a part of the value owns. -/
def partBlock? (h : Heap) (v : Value) (path : List Nat) : Option BlockId :=
  (h.part? v path).bind Value.block?

theorem partBlock?_congr (hb : v.block? = w.block?) (hr : v.partRole = w.partRole) :
    h.partBlock? v path = h.partBlock? w path := by
  cases path with
  | nil => exact hb
  | cons i path => rw [partBlock?, part?_congr hb hr (List.cons_ne_nil i path), partBlock?]

theorem partBlock?_placed (p : Place) : h.partBlock? (v.placed p) path = h.partBlock? v path :=
  partBlock?_congr rfl rfl

theorem partBlock?_of_block? (hb : v.block? = some b) : h.partBlock? v (i :: path) =
    (h.cells b)[i]?.bind fun cell => h.partBlock? cell path := by
  rw [partBlock?, part?_of_block? hb]
  cases (h.cells b)[i]? with
  | none => rfl
  | some cell => exact partBlock?_placed _

theorem partBlock?_of_block?_none (hb : v.block? = none) : h.partBlock? v path = none := by
  cases path with
  | nil => exact hb
  | cons i path => rw [partBlock?, part?_of_block?_none hb, Option.bind_none]

theorem part?_append (path path' : List Nat) :
    h.part? v (path ++ path') = (h.part? v path).bind fun w => h.part? w path' := by
  induction path generalizing v with
  | nil => rfl
  | cons i path ih =>
    rw [List.cons_append, part?_cons, part?_cons]
    cases v.block? with
    | none => rfl
    | some b =>
      cases hc : (h.cells b)[i]? with
      | none => simp [hc]
      | some cell => simpa [hc] using ih

theorem Closed.covers (hc : h.Closed) {cell : Value} (hcell : (h.cells b)[i]? = some cell)
    (p : Place) : h.Covers (cell.placed p) := hc b cell (Array.mem_of_getElem? hcell)

/-- What holds of the block of a value, and of all blocks that are owned by such blocks, holds of the
blocks of its parts. -/
theorem of_partBlock? {P : BlockId → Prop} (hv : ∀ s, v.block? = some s → P s)
    (hP : ∀ s, P s → ∀ cell ∈ h.cells s, ∀ s', cell.block? = some s' → P s')
    (hb : h.partBlock? v path = some b) : P b := by
  induction path generalizing v with
  | nil => exact hv b hb
  | cons i path ih =>
    cases hv' : v.block? with
    | none =>
      rw [partBlock?_of_block?_none hv'] at hb
      cases hb
    | some s =>
      rw [partBlock?_of_block? hv'] at hb
      obtain ⟨cell, hcell, hb⟩ := Option.bind_eq_some_iff.mp hb
      exact ih (hP s (hv s hv') cell (Array.mem_of_getElem? hcell)) hb

/-- The blocks of all parts are there. -/
theorem Closed.partBlock?_lt (hc : h.Closed) (hv : h.Covers v) (hb : h.partBlock? v path = some b) :
    b < h.blocks.size :=
  of_partBlock? (P := fun s => s < h.blocks.size) hv (fun s _ => hc s) hb

theorem Closed.alloc (hc : h.Closed) {cells : Array Value}
    (hcells : ∀ cell ∈ cells, (h.alloc cells).2.Covers cell) : (h.alloc cells).2.Closed := by
  intro b cell hcell s hs
  rw [cells_alloc] at hcell
  split at hcell
  · exact hcells cell hcell s hs
  · exact Nat.lt_of_lt_of_le (hc b cell hcell s hs) (keeps_alloc h cells).size

/-- Nothing that was there has changed. -/
abbrev GrowsTo (h h' : Heap) : Prop := h.SameBut (fun _ _ => False) h'

theorem Covers.mono {touched : BlockId → Nat → Prop} (hv : h.Covers v) (hs : h.SameBut touched h') :
    h'.Covers v := fun b hb => Nat.lt_of_lt_of_le (hv b hb) hs.blocks

/-- What is touched is no part of the value. -/
def Spared (h : Heap) (touched : BlockId → Nat → Prop) (v : Value) : Prop :=
  ∀ path b i, h.partBlock? v path = some b → ¬touched b i

theorem Spared.nothing : h.Spared (fun _ _ => False) v := fun _ _ _ _ => id

/-- An object whose cells stay as they are has the parts that it had. -/
theorem part?_of_sameBut {touched : BlockId → Nat → Prop} (hs : h.SameBut touched h')
    (hc : h.Closed) (hv : h.Covers v) (hn : h.Spared touched v) (path : List Nat) :
    h'.part? v path = h.part? v path := by
  induction path generalizing v with
  | nil => rfl
  | cons i path ih =>
    rw [part?_cons, part?_cons]
    cases hb : v.block? with
    | none => rfl
    | some b =>
      rw [Option.bind_some, Option.bind_some, hs.cells b (hv b hb) i (hn [] b i hb)]
      cases hcell : (h.cells b)[i]? with
      | none => rfl
      | some cell =>
        refine ih (hc.covers hcell _) fun path' b' i' hp => hn (i :: path') b' i' ?_
        rw [partBlock?_placed] at hp
        rw [partBlock?_of_block? hb, hcell]
        exact hp

theorem partBlock?_of_sameBut {touched : BlockId → Nat → Prop} (hs : h.SameBut touched h')
    (hc : h.Closed) (hv : h.Covers v) (hn : h.Spared touched v) (path : List Nat) :
    h'.partBlock? v path = h.partBlock? v path := by
  rw [partBlock?, part?_of_sameBut hs hc hv hn, partBlock?]

end Heap

open Value

namespace Heap

variable {h h' h'' : Heap} {v w u : Value} {bound : Nat}

/-- In the second heap there is a copy of what is a value in the first one. Down to the bound it owns
blocks that are new, and below it may own blocks of the original. -/
structure Copies (bound : Nat) (h : Heap) (v : Value) (h' : Heap) (w : Value) : Prop where
  root : (w.withReadonly v.readonly).contents = v.contents
  parts : ∀ path ≠ [], (h'.part? w path).map contents = (h.part? v path).map contents
  owned : ∀ path b, h'.partBlock? w path = some b → b < h'.blocks.size ∧
    (h.blocks.size ≤ b ∨ bound ≤ path.length ∧ h.partBlock? v path = some b)

namespace Copies

theorem covers (hw : Copies bound h v h' w) : h'.Covers w := fun b hb => (hw.owned [] b hb).1

/-- What does not touch a copy makes no difference to it. -/
theorem extend {touched : BlockId → Nat → Prop} (hw : Copies bound h v h' w) (hc : h'.Closed)
    (hs : h'.SameBut touched h'') (hn : h'.Spared touched w) : Copies bound h v h'' w where
  root := hw.root
  parts path hp := by rw [part?_of_sameBut hs hc hw.covers hn, hw.parts path hp]
  owned path b hb := by
    rw [partBlock?_of_sameBut hs hc hw.covers hn] at hb
    obtain ⟨hlt, ho⟩ := hw.owned path b hb
    exact ⟨Nat.lt_of_lt_of_le hlt hs.blocks, ho⟩

/-- What was not touched before the copy was begun is copied as it was then. -/
theorem before {touched : BlockId → Nat → Prop} (hs : h.SameBut touched h') (hc : h.Closed)
    (hv : h.Covers v) (hn : h.Spared touched v) (hw : Copies bound h' v h'' w) :
    Copies bound h v h'' w where
  root := hw.root
  parts path hp := by rw [hw.parts path hp, part?_of_sameBut hs hc hv hn]
  owned path b hb := by
    obtain ⟨hlt, ho⟩ := hw.owned path b hb
    rw [partBlock?_of_sameBut hs hc hv hn] at ho
    exact ⟨hlt, ho.imp_left (Nat.le_trans hs.blocks)⟩

theorem of_le {bound' : Nat} (hb : bound' ≤ bound) (hw : Copies bound h v h' w) :
    Copies bound' h v h' w where
  root := hw.root
  parts := hw.parts
  owned path b hpath := by
    obtain ⟨hlt, ho⟩ := hw.owned path b hpath
    exact ⟨hlt, ho.imp_right fun ho => ⟨Nat.le_trans hb ho.1, ho.2⟩⟩

/-- A value shares what it owns with itself. -/
theorem shared (hc : h.Closed) (hv : h.Covers v) (hb : bound = 0 ∨ v.block? = none) :
    Copies bound h v h v.rvalue where
  root := rfl
  parts path hp := by rw [part?_congr (v := v.rvalue) (w := v) rfl rfl hp]
  owned path b hpath := by
    rw [partBlock?_congr (v := v.rvalue) (w := v) rfl rfl] at hpath
    refine ⟨hc.partBlock?_lt hv hpath, .inr ⟨?_, hpath⟩⟩
    rcases hb with rfl | hb
    · exact Nat.zero_le _
    · rw [partBlock?_of_block?_none hb] at hpath
      cases hpath

/-- The cell and the flag of the original make no difference to a copy of it. -/
theorem of_rvalue (hw : Copies bound h v.rvalue h' w) : Copies bound h v h' w where
  root := congrArg (withReadonly · v.readonly) hw.root
  parts path hp := by rw [hw.parts path hp, part?_congr (v := v.rvalue) (w := v) rfl rfl hp]
  owned path b hb := by
    rw [← partBlock?_congr (v := v.rvalue) (w := v) rfl rfl]
    exact hw.owned path b hb

/-- A cell of a new block is a copy of a cell, with its flag. -/
structure Cell (bound : Nat) (h : Heap) (cell : Value) (h' : Heap) (w : Value) : Prop
    extends Copies bound h cell h' w where
  readonly : w.readonly = cell.readonly

/-- A flag makes no difference to what a value owns. -/
theorem flagged (hw : Copies bound h v h' w) (r : Bool) :
    Copies bound h v h' (w.withReadonly r) where
  root := hw.root
  parts path hp := by
    rw [part?_congr (v := w.withReadonly r) (w := w) rfl rfl hp, hw.parts path hp]
  owned path b hb := by
    rw [partBlock?_congr (v := w.withReadonly r) (w := w) rfl rfl] at hb
    exact hw.owned path b hb

theorem Cell.contents {cell : Value} (hw : Cell bound h cell h' w) : w.contents = cell.contents := by
  have hroot := hw.root
  rwa [← hw.readonly] at hroot

theorem exists_of_forall₂ {α β : Type} {R : α → β → Prop} {as : List α} {bs : List β}
    (h : List.Forall₂ R as bs) {i : Nat} {b : β} (hb : bs[i]? = some b) :
    ∃ a, as[i]? = some a ∧ R a b := by
  induction h generalizing i with
  | nil => cases hb
  | cons hab _ ih =>
    cases i with
    | zero =>
      cases hb
      exact ⟨_, rfl, hab⟩
    | succ i => exact ih hb

section Block

variable {cells ws : List Value} {b : BlockId}
  (hws : List.Forall₂ (fun cell w => Cell bound h cell h' w) cells ws) (hc : h'.Closed)

include hws hc

/-- The cells of a new block own what is there. -/
theorem closed_alloc : (h'.alloc ws.toArray).2.Closed := by
  refine hc.alloc fun w hw => ?_
  obtain ⟨i, hi⟩ := List.getElem?_of_mem (List.mem_toArray.mp hw)
  obtain ⟨cell, -, hcell⟩ := exists_of_forall₂ hws hi
  have hgrows : h'.GrowsTo (h'.alloc ws.toArray).2 := .alloc h' ws.toArray
  exact hcell.covers.mono hgrows

/-- Copies of all cells in a block of their own make a copy of what owns the cells. -/
theorem of_cells (hs : h.GrowsTo h') (hb : v.block? = some b) (hcells : (h.cells b).toList = cells)
    (hw : w.block? = some h'.blocks.size)
    (hroot : (w.withReadonly v.readonly).contents = v.contents) :
    Copies (bound + 1) h v (h'.alloc ws.toArray).2 w where
  root := hroot
  parts path hp := by
    cases path with
    | nil => exact absurd rfl hp
    | cons i path =>
      have hold : (h.cells b)[i]? = cells[i]? := by rw [← hcells, Array.getElem?_toList]
      have hnew : ((h'.alloc ws.toArray).2.cells h'.blocks.size)[i]? = ws[i]? := by
        rw [cells_alloc, if_pos rfl, List.getElem?_toArray]
      rw [part?_of_block? hw, part?_of_block? hb, hold, hnew]
      cases hwi : ws[i]? with
      | none =>
        cases hci : cells[i]? with
        | none => rfl
        | some cell =>
          obtain ⟨w, hw, -⟩ := exists_of_forall₂ hws.flip hci
          cases hwi.symm.trans hw
      | some w =>
        obtain ⟨cell, hci, hcell⟩ := exists_of_forall₂ hws hwi
        rw [hci, Option.bind_some, Option.bind_some, contents_part?_placed, contents_part?_placed]
        by_cases hp : path = []
        · subst hp
          exact congrArg some hcell.contents
        · exact (hcell.toCopies.extend hc (.alloc h' ws.toArray) .nothing).parts path hp
  owned path b' hb' := by
    have hsize : (h'.alloc ws.toArray).2.blocks.size = h'.blocks.size + 1 := Array.size_push _
    cases path with
    | nil =>
      cases hw.symm.trans hb'
      exact ⟨hsize ▸ Nat.lt_succ_self _, .inl hs.blocks⟩
    | cons i path =>
      rw [partBlock?_of_block? hw, cells_alloc, if_pos rfl, List.getElem?_toArray] at hb'
      obtain ⟨w, hwi, hb'⟩ := Option.bind_eq_some_iff.mp hb'
      obtain ⟨cell, hci, hcell⟩ := exists_of_forall₂ hws hwi
      obtain ⟨hlt, ho⟩ := (hcell.toCopies.extend hc (.alloc h' ws.toArray) .nothing).owned path b' hb'
      refine ⟨hlt, ho.imp_right fun ⟨hle, hb'⟩ => ⟨Nat.succ_le_succ hle, ?_⟩⟩
      rw [partBlock?_of_block? hb, ← Array.getElem?_toList, hcells, hci]
      exact hb'

end Block

end Copies

end Heap

namespace HeapM

variable {h : Heap} {v : Value} {b : BlockId}

/-- What owns no block is copied as it is. -/
theorem deepCopyWithin_of_none {bound : Nat} (hb : v.block? = none) :
    deepCopyWithin (bound + 1) v = return v.rvalue := by
  unfold deepCopyWithin
  split
  · rename_i store hd
    cases (Value.block?_eq_some_iff.mpr (.inl hd)).symm.trans hb
  · rename_i store position hd
    refine if_neg fun harray => ?_
    cases (Value.block?_eq_some_iff.mpr (.inr ⟨harray, position, hd⟩)).symm.trans hb
  · rfl

/-- What owns a block is copied with its cells. -/
theorem deepCopyWithin_of_block? {bound : Nat} (hb : v.block? = some b) :
    deepCopyWithin (bound + 1) v = (do
      let copies ← (← cells b).mapM fun cell => do
        return (← deepCopyWithin bound cell).withReadonly cell.readonly
      return v.onBlock (← alloc copies)) := by
  rw [deepCopyWithin]
  rcases Value.block?_eq_some_iff.mp hb with hd | ⟨harray, position, hd⟩
  · simp only [Value.onBlock, hd, bind_assoc]
  · simp only [Value.onBlock, hd, if_pos harray, bind_assoc]

theorem run_deepCopyWithin (hb : v.block? = some b) (bound : Nat) (h : Heap) :
    (deepCopyWithin (bound + 1) v).run h =
      let r := ((h.cells b).toList.mapM fun cell => do
        return (← deepCopyWithin bound cell).withReadonly cell.readonly).run h
      (v.onBlock r.2.blocks.size, (r.2.alloc r.1.toArray).2) := by
  rw [deepCopyWithin_of_block? hb]
  simp only [Array.mapM_eq_mapM_toList]
  rfl

/-- The heap has only grown, and there is a copy in it that is no left value. -/
structure Duplicates (bound : Nat) (h : Heap) (v : Value) (r : Value × Heap) : Prop where
  grows : h.GrowsTo r.2
  closed : r.2.Closed
  copies : Heap.Copies bound h v r.2 r.1
  rvalue : r.1.rvalue = r.1

open Heap.Copies (Cell)

/-- Cells that were there in the heap `h₀` are copied one by one. -/
theorem forall₂_mapM {bound : Nat} {h₀ : Heap}
    (hcopy : ∀ (h : Heap) v, h.Closed → h.Covers v →
      Duplicates bound h v ((deepCopyWithin bound v).run h))
    (hc₀ : h₀.Closed) (cells : List Value) (hcells : ∀ cell ∈ cells, h₀.Covers cell)
    (hs : h₀.GrowsTo h) (hc : h.Closed) :
    let r := (cells.mapM fun cell => do
      return (← deepCopyWithin bound cell).withReadonly cell.readonly).run h
    h.GrowsTo r.2 ∧ r.2.Closed ∧
      List.Forall₂ (fun cell w => Cell bound h₀ cell r.2 w) cells r.1 := by
  induction cells generalizing h with
  | nil => exact ⟨.refl h, hc, .nil⟩
  | cons cell cells ih =>
    obtain ⟨hfirst, hrest⟩ := List.forall_mem_cons.mp hcells
    have hone := hcopy h cell hc (hfirst.mono hs)
    obtain ⟨hgrows, hclosed, hall⟩ := ih hrest (hs.trans hone.grows) hone.closed
    rw [List.mapM_cons]
    refine ⟨hone.grows.trans hgrows, hclosed, .cons ?_ hall⟩
    have hcopies := (hone.copies.flagged cell.readonly).before hs hc₀ hfirst .nothing
    exact ⟨hcopies.extend hone.closed hgrows .nothing, rfl⟩

/-- A deep copy is a copy. -/
theorem duplicates_deepCopyWithin (bound : Nat) (hc : h.Closed) (hv : h.Covers v) :
    Duplicates bound h v ((deepCopyWithin bound v).run h) := by
  induction bound generalizing h v with
  | zero => exact ⟨.refl h, hc, .shared hc hv (.inl rfl), rfl⟩
  | succ bound ih =>
    cases hb : v.block? with
    | none =>
      rw [deepCopyWithin_of_none hb]
      exact ⟨.refl h, hc, .shared hc hv (.inr hb), rfl⟩
    | some b =>
      obtain ⟨hgrows, hclosed, hall⟩ := forall₂_mapM (fun _ _ => ih) hc (h.cells b).toList
        (fun cell hm => hc b cell (Array.mem_toList_iff.mp hm)) (.refl h) hc
      have hroot (b : BlockId) : ((v.onBlock b).withReadonly v.readonly).contents = v.contents :=
        congrArg (·.withReadonly v.readonly) (Value.contents_onBlock hb b)
      rw [run_deepCopyWithin hb]
      exact {
        grows := hgrows.trans (.alloc _ _)
        closed := Heap.Copies.closed_alloc hall hclosed
        copies := .of_cells hall hclosed hgrows hb rfl (Value.block?_onBlock hb) (hroot _)
        rvalue := rfl }

theorem duplicates_deepCopy (hc : h.Closed) (hv : h.Covers v) :
    Duplicates (h.blocks.size + 1) h v ((deepCopy v).run h) :=
  duplicates_deepCopyWithin (h.blocks.size + 1) hc hv

end HeapM

end Stepwise
