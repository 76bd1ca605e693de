import Mathlib.Data.Set.Basic
import Stepwise.Proofs.Copies.Ownership
import Stepwise.Proofs.Operator.Payloads

/-! # Hidden blocks

A value leads to the blocks that its payload and its place name. Blocks are hidden if nothing
outside of them leads to them. A change of the heap passes them by if their cells stay as they are,
and they stay hidden. New blocks whose cells do not lead there pass them by, and so do changes of
other cells, and copies.
-/

namespace Stepwise

open Value

/-- The blocks of the object that a function is bound to. -/
def FunctionRef.blocks (f : FunctionRef) : List BlockId :=
  match f.receiver with
  | some r => r.store :: (r.place.map Place.block).toList
  | none => []

/-- The blocks that the payload names. -/
def Data.blocks : Data → List BlockId
  | int _ | float _ | void => []
  | pointer target => (target.map Place.block).toList
  | array store _ => store.toList
  | functionPointer target => target.elim [] FunctionRef.blocks
  | function f => f.blocks
  | struct store => [store]

/-- The payload leads only to blocks of the set. -/
def Data.Within (R : Set BlockId) (d : Data) : Prop := ∀ b ∈ d.blocks, b ∈ R

/-- What leads to an object that methods are called on leads only to blocks of the set. -/
structure Receiver.Within (R : Set BlockId) (r : Receiver) : Prop where
  store : r.store ∈ R
  place : ∀ p, r.place = some p → p.block ∈ R

theorem Receiver.Within.mono {R S : Set BlockId} {r : Receiver} (hr : r.Within R) (hs : R ⊆ S) :
    r.Within S := ⟨hs hr.store, fun p hp => hs (hr.place p hp)⟩

/-- The object that a function is bound to, if there is one. -/
def FunctionRef.Within (R : Set BlockId) (f : FunctionRef) : Prop :=
  ∀ r, f.receiver = some r → r.Within R

theorem FunctionRef.within_of_blocks {R : Set BlockId} {f : FunctionRef}
    (hf : ∀ b ∈ f.blocks, b ∈ R) : f.Within R := by
  intro r hr
  simp only [blocks, hr] at hf
  obtain ⟨hstore, hplace⟩ := List.forall_mem_cons.mp hf
  exact ⟨hstore, fun p hp => hplace p.block (by rw [hp]; exact List.mem_singleton_self _)⟩

/-- The value has a payload for its type, which leads only to blocks of the set. -/
structure Value.Lies (R : Set BlockId) (v : Value) : Prop where
  regular : v.Regular
  data : v.data.Within R

/-- The value leads only to blocks of the set, and was read from one of them if from any. -/
structure Value.Within (R : Set BlockId) (v : Value) : Prop extends v.Lies R where
  place : ∀ p, v.place = some p → p.block ∈ R

namespace Data

variable {R S : Set BlockId} {d : Data}

theorem Within.mono (hd : d.Within R) (hs : R ⊆ S) : d.Within S := fun b hb => hs (hd b hb)

theorem derivable_within : Derivable (Within R) where
  number {d} hd := by
    cases d with
    | int | float => exact nofun
    | _ => cases hd
  null ty := by cases ty <;> exact nofun
  void := nofun
  moved _ h := h
  element _ h b hb := h b hb
  function h := h

end Data

namespace Value

variable {R S : Set BlockId} {v : Value}

theorem Lies.mono (hv : v.Lies R) (hs : R ⊆ S) : v.Lies S := ⟨hv.regular, hv.data.mono hs⟩

theorem Lies.rvalue (hv : v.Lies R) : v.rvalue.Within R :=
  ⟨⟨hv.regular, hv.data⟩, fun _ hp => nomatch hp⟩

theorem Lies.withReadonly (hv : v.Lies R) (r : Bool) : (v.withReadonly r).Lies R :=
  ⟨hv.regular, hv.data⟩

theorem Lies.placed (hv : v.Lies R) {p : Place} (hp : p.block ∈ R) : (v.placed p).Within R := by
  refine ⟨⟨hv.regular, hv.data⟩, fun q hq => ?_⟩
  obtain rfl := Option.some.inj hq
  exact hp

/-- The block that a value owns is one that it leads to. -/
theorem Lies.block? (hv : v.Lies R) {b : BlockId} (hb : v.block? = some b) : b ∈ R := by
  refine hv.data b ?_
  rcases block?_eq_some_iff.mp hb with hd | ⟨-, position, hd⟩
  · rw [hd]
    exact List.mem_singleton_self _
  · rw [hd]
    exact List.mem_singleton_self _

/-- On another block, a value leads to this block only. -/
theorem Lies.onBlock (hv : v.Lies R) {a b : BlockId} (ha : v.block? = some a) (hb : b ∈ S) :
    (v.onBlock b).Within S := by
  rcases block?_eq_some_iff.mp ha with hd | ⟨-, position, hd⟩
  · have hregular := hv.regular.resolve_left fun hs => hs a hd
    refine ⟨⟨.inr hregular, fun s hs => ?_⟩, fun _ hp => nomatch hp⟩
    simp only [Value.onBlock, hd] at hs
    exact List.mem_singleton.mp hs ▸ hb
  · have hdata : (v.onBlock b).data = .array (some b) position := by simp only [Value.onBlock, hd]
    refine ⟨⟨.inl (hdata ▸ Data.simple_pointer rfl), fun s hs => ?_⟩, fun _ hp => nomatch hp⟩
    rw [hdata] at hs
    exact List.mem_singleton.mp hs ▸ hb

theorem Lies.structStore? (hv : v.Lies R) {b : BlockId} (hb : v.structStore? = some b) : b ∈ R := by
  refine hv.data b ?_
  unfold Value.structStore? at hb
  split at hb
  · cases hb
    rename_i hd
    rw [hd]
    exact List.mem_singleton_self _
  · cases hb

/-- The block that an array or a pointer into one leads to. -/
theorem Lies.array? (hv : v.Lies R) {b : BlockId} {i : Int} (hb : v.array? = some (b, i)) :
    b ∈ R := by
  refine hv.data b ?_
  unfold Value.array? at hb
  split at hb
  · cases hb
    rename_i hd
    rw [hd]
    exact List.mem_singleton_self _
  · cases hb

theorem Within.mono (hv : v.Within R) (hs : R ⊆ S) : v.Within S :=
  ⟨hv.toLies.mono hs, fun p hp => hs (hv.place p hp)⟩

theorem Within.withReadonly (hv : v.Within R) (r : Bool) : (v.withReadonly r).Within R :=
  ⟨hv.toLies.withReadonly r, hv.place⟩

/-- A value that no cell holds, and whose payload is not that of a struct. -/
theorem Derived.within (hv : v.Derived fun d => d.Simple ∧ d.Within R) : v.Within R :=
  ⟨⟨.inl hv.payload.1, hv.payload.2⟩, fun _ hp => nomatch hv.detached.symm.trans hp⟩

theorem within_fresh {ty : Ty} {d : Data} (hs : d.Simple) (hd : d.Within R) :
    (Value.fresh ty d).Within R := Derived.within ⟨rfl, hs, hd⟩

theorem within_number {ty : Ty} {d : Data} (hd : d.number?.isSome = true) :
    (Value.fresh ty d).Within R :=
  within_fresh (Data.simple_number hd) (Data.derivable_within.number hd)

theorem within_int (k : ArithKind) (i : Int) : (Value.int k i).Within R := within_number rfl

theorem within_bool (b : Bool) : (Value.bool b).Within R := within_int _ _

theorem within_void : Value.void.Within R := within_fresh nofun nofun

theorem within_null (ty : Ty) : (Value.null ty).Within R :=
  within_fresh (Data.derivable_simple.null ty) (Data.derivable_within.null ty)

end Value

namespace Heap

variable {H : Set BlockId} {h h' h'' : Heap} {v : Value} {p : Place}

/-- The blocks of the heap that are not hidden. -/
def reach (h : Heap) (H : Set BlockId) : Set BlockId := {b | b < h.blocks.size ∧ b ∉ H}

/-- The hidden blocks are there, and the cells outside of them do not lead to them. -/
structure Outside (H : Set BlockId) (h : Heap) : Prop where
  held : ∀ b ∈ H, b < h.blocks.size
  cells : ∀ b ∉ H, ∀ cell ∈ h.cells b, cell.Lies (h.reach H)

/-- Blocks are hidden, and otherwise the heap is in order: cells own what is there, and nothing owns
blocks without end. -/
structure Hides (H : Set BlockId) (h : Heap) : Prop extends Outside H h where
  closed : h.Closed
  founded : h.Founded

/-- The second heap comes of the first one, and the hidden blocks are passed by. -/
structure PassesBy (H : Set BlockId) (h h' : Heap) : Prop where
  hides : h'.Hides H
  blocks : h.blocks.size ≤ h'.blocks.size
  same : ∀ b ∈ H, h'.cells b = h.cells b

theorem reach_mono (hn : h.blocks.size ≤ h'.blocks.size) : h.reach H ⊆ h'.reach H :=
  fun _ hb => ⟨Nat.lt_of_lt_of_le hb.1 hn, hb.2⟩

theorem covers_of_lies (hv : v.Lies (h.reach H)) : h.Covers v := fun _ hb => (hv.block? hb).1

/-- What is read from a block in reach leads to blocks in reach. -/
theorem Hides.load? (hh : h.Hides H) (hp : p.block ∈ h.reach H) (hv : h.load? p = some v) :
    v.Within (h.reach H) := by
  obtain ⟨cell, hcell, rfl⟩ := Option.map_eq_some_iff.mp hv
  exact (hh.cells p.block hp.2 cell (Array.mem_of_getElem? hcell)).placed hp

namespace PassesBy

theorem refl (hh : h.Hides H) : h.PassesBy H h := ⟨hh, Nat.le_refl _, fun _ _ => rfl⟩

theorem trans (hp : h.PassesBy H h') (hp' : h'.PassesBy H h'') : h.PassesBy H h'' where
  hides := hp'.hides
  blocks := Nat.le_trans hp.blocks hp'.blocks
  same b hb := (hp'.same b hb).trans (hp.same b hb)

theorem reach (hp : h.PassesBy H h') : h.reach H ⊆ h'.reach H := reach_mono hp.blocks

/-- Nothing changes in the blocks that were there, and the cells of new ones do not lead to
hidden blocks. -/
theorem of_growsTo (hh : h.Hides H) (hg : h.GrowsTo h') (hc : h'.Closed) (hf : h'.Founded)
    (hnew : ∀ b ≥ h.blocks.size, ∀ cell ∈ h'.cells b, cell.Lies (h'.reach H)) :
    h.PassesBy H h' := by
  have hsame (b : BlockId) (hb : b < h.blocks.size) : h'.cells b = h.cells b :=
    Array.ext_getElem? fun i => hg.cells b hb i id
  refine ⟨⟨⟨fun b hb => ?_, fun b hb cell hcell => ?_⟩, hc, hf⟩, hg.blocks, fun b hb => ?_⟩
  · exact Nat.lt_of_lt_of_le (hh.held b hb) hg.blocks
  · by_cases hlt : b < h.blocks.size
    · rw [hsame b hlt] at hcell
      exact (hh.cells b hb cell hcell).mono (reach_mono hg.blocks)
    · exact hnew b (Nat.le_of_not_lt hlt) cell hcell
  · exact hsame b (hh.held b hb)

/-- One cell in reach is changed. -/
theorem of_modify? {f : Value → Value} (hh : h.Hides H) (hp : p.block ∉ H)
    (hf : ∀ cell, (f cell).Lies (h.reach H)) (hm : h.modify? p f = some h')
    (hc : h'.Closed) (hfounded : h'.Founded) : h.PassesBy H h' := by
  have hsize := size_of_modify? hm
  have hreach : h'.reach H = h.reach H := by rw [Heap.reach, hsize]; rfl
  refine ⟨⟨⟨fun b hb => hsize ▸ hh.held b hb, fun b hb cell hcell => ?_⟩, hc, hfounded⟩,
    Nat.le_of_eq hsize.symm, fun b hb => ?_⟩
  · rw [hreach]
    rcases mem_cells_of_modify? hm hcell with hcell | ⟨-, old, -, rfl⟩
    · exact hh.cells b hb cell hcell
    · exact hf old
  · rw [cells_of_modify? hm, if_neg]
    rintro rfl
    exact hp hb

/-- A payload that owns nothing is stored into a cell in reach. -/
theorem store? (hh : h.Hides H) (hp : p.block ∉ H) (hv : v.Lies (h.reach H))
    (hb : v.block? = none) (hs : h.store? p v = some h') : h.PassesBy H h' := by
  have hrenews := Renews.store? hh.closed hh.founded hb hs
  exact of_modify? (f := fun cell => { cell with ty := v.ty, data := v.data }) hh hp
    (fun _ => ⟨hv.regular, hv.data⟩) hs hrenews.closed hrenews.founded

end PassesBy

/-- A new block owns what was there before, so nothing owns blocks without end. -/
theorem Founded.alloc (hf : h.Founded) (hc : h.Closed) {cells : Array Value}
    (hcells : ∀ cell ∈ cells, h.Covers cell) : (h.alloc cells).2.Founded := by
  have hgrows : h.GrowsTo (h.alloc cells).2 := .alloc h cells
  have hold (b : BlockId) : b < h.blocks.size → Acc (fun s b => (h.alloc cells).2.Owns b s) b := by
    induction b using hf.induction with
    | _ b ih =>
      refine fun hb => ⟨b, fun s ho => ?_⟩
      have ho := (hgrows.owns_iff hb).mp ho
      exact ih s ho (hc.lt_of_owns ho)
  refine ⟨fun b => ?_⟩
  by_cases hb : b < h.blocks.size
  · exact hold b hb
  · refine ⟨b, fun s ho => hold s ?_⟩
    obtain ⟨cell, hcell, hs⟩ := ho
    rw [cells_alloc] at hcell
    split at hcell
    · exact hcells cell hcell s hs
    · exact absurd (lt_size_of_mem_cells hcell) hb

theorem Outside.alloc (ho : Outside H h) {cells : Array Value}
    (hcells : ∀ cell ∈ cells, cell.Lies (h.reach H)) :
    h.blocks.size ≤ (h.alloc cells).2.blocks.size ∧ Outside H (h.alloc cells).2 ∧
      (h.alloc cells).1 ∈ (h.alloc cells).2.reach H := by
  have hsize : (h.alloc cells).2.blocks.size = h.blocks.size + 1 := Array.size_push _
  have hn : h.blocks.size ≤ (h.alloc cells).2.blocks.size := hsize ▸ Nat.le_succ _
  refine ⟨hn, ⟨fun b hb => Nat.lt_of_lt_of_le (ho.held b hb) hn, fun b hb cell hcell => ?_⟩, ?_, ?_⟩
  · rw [cells_alloc] at hcell
    split at hcell
    · exact (hcells cell hcell).mono (reach_mono hn)
    · exact (ho.cells b hb cell hcell).mono (reach_mono hn)
  · exact hsize ▸ Nat.lt_succ_self _
  · exact fun hb => Nat.lt_irrefl _ (ho.held _ hb)

theorem PassesBy.alloc (hh : h.Hides H) {cells : Array Value}
    (hcells : ∀ cell ∈ cells, cell.Lies (h.reach H)) : h.PassesBy H (h.alloc cells).2 := by
  have hcovers (cell : Value) (hm : cell ∈ cells) : h.Covers cell := covers_of_lies (hcells cell hm)
  have hgrows : h.GrowsTo (h.alloc cells).2 := .alloc h cells
  obtain ⟨-, ho, -⟩ := hh.toOutside.alloc hcells
  refine .of_growsTo hh hgrows (hh.closed.alloc fun cell hm => (hcovers cell hm).mono hgrows)
    (hh.founded.alloc hh.closed hcovers) fun b hb => ho.cells b fun hm => ?_
  exact Nat.not_lt_of_le hb (hh.held b hm)

end Heap

namespace HeapM

open Heap

variable {H : Set BlockId} {h : Heap} {v : Value} {bound : Nat}

/-- The heap has only grown, and what was made does not lead to hidden blocks. -/
structure Grows (H : Set BlockId) (h : Heap) (r : Value × Heap) : Prop where
  blocks : h.blocks.size ≤ r.2.blocks.size
  outside : r.2.Outside H
  within : r.1.Within (r.2.reach H)

/-- Cells are copied one by one. -/
theorem grows_mapM (hcopy : ∀ (h : Heap) v, h.Outside H → v.Lies (h.reach H) →
      Grows H h ((deepCopyWithin bound v).run h)) (cells : List Value) (ho : h.Outside H)
    (hcells : ∀ cell ∈ cells, cell.Lies (h.reach H)) :
    let r := (cells.mapM fun cell => do
      return (← deepCopyWithin bound cell).withReadonly cell.readonly).run h
    h.blocks.size ≤ r.2.blocks.size ∧ r.2.Outside H ∧ ∀ w ∈ r.1, w.Lies (r.2.reach H) := by
  induction cells generalizing h with
  | nil => exact ⟨Nat.le_refl _, ho, nofun⟩
  | cons cell cells ih =>
    obtain ⟨hfirst, hrest⟩ := List.forall_mem_cons.mp hcells
    have hone := hcopy h cell ho hfirst
    obtain ⟨hn, ho', hws⟩ := ih hone.outside fun w hw => (hrest w hw).mono (reach_mono hone.blocks)
    rw [List.mapM_cons]
    refine ⟨Nat.le_trans hone.blocks hn, ho', List.forall_mem_cons.mpr ⟨?_, hws⟩⟩
    exact (hone.within.toLies.withReadonly cell.readonly).mono (reach_mono hn)

/-- A copy of what is in reach does not lead to hidden blocks, and nor does any new cell. -/
theorem grows_deepCopyWithin (bound : Nat) (ho : h.Outside H) (hv : v.Lies (h.reach H)) :
    Grows H h ((deepCopyWithin bound v).run h) := by
  induction bound generalizing h v with
  | zero => exact ⟨Nat.le_refl _, ho, hv.rvalue⟩
  | succ bound ih =>
    cases hb : v.block? with
    | none =>
      rw [deepCopyWithin_of_none hb]
      exact ⟨Nat.le_refl _, ho, hv.rvalue⟩
    | some b =>
      obtain ⟨hn, ho', hws⟩ := grows_mapM (fun _ _ => ih) (h.cells b).toList ho
        fun cell hm => ho.cells b (hv.block? hb).2 cell (Array.mem_toList_iff.mp hm)
      obtain ⟨hn', hoa, hnew⟩ := ho'.alloc fun w hm => hws w (List.mem_toArray.mp hm)
      rw [run_deepCopyWithin hb]
      exact ⟨Nat.le_trans hn hn', hoa, hv.onBlock hb hnew⟩

theorem passesBy_deepCopy (hh : h.Hides H) (hv : v.Lies (h.reach H)) :
    let r := (deepCopy v).run h
    h.PassesBy H r.2 ∧ r.1.Within (r.2.reach H) := by
  have hcovers := covers_of_lies hv
  have hone := duplicates_deepCopy hh.closed hcovers
  have hrenews := renews_deepCopy hh.closed hh.founded hcovers
  have hgrows : Grows H h ((deepCopy v).run h) :=
    grows_deepCopyWithin _ hh.toOutside hv
  refine ⟨.of_growsTo hh hone.grows hone.closed hrenews.founded fun b hb => ?_, hgrows.within⟩
  exact hgrows.outside.cells b fun hm => Nat.not_lt_of_le hb (hh.held b hm)

end HeapM

end Stepwise
