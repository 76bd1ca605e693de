import Stepwise.Proofs.Copies.Pointers

/-! # Ownership

Cells own blocks. What copies objects, or fills cells with copies of them, adds blocks that own only
blocks that were added before them, and lets no block own one that was there already. So nothing
owns blocks without end afterwards if nothing did before.
-/

namespace Stepwise

open Value

namespace Heap

variable {h h' h'' : Heap} {v w : Value} {b s : BlockId} {n : Nat} {path : List Nat}

/-- A cell of the block owns the other block. -/
def Owns (h : Heap) (b s : BlockId) : Prop := ∃ cell ∈ h.cells b, cell.block? = some s

/-- Nothing owns blocks without end. -/
def Founded (h : Heap) : Prop := WellFounded fun s b => h.Owns b s

theorem Owns.lt_size (ho : h.Owns b s) : b < h.blocks.size := by
  obtain ⟨cell, hcell, -⟩ := ho
  exact lt_size_of_mem_cells hcell

theorem Closed.lt_of_owns (hc : h.Closed) (ho : h.Owns b s) : s < h.blocks.size := by
  obtain ⟨cell, hcell, hs⟩ := ho
  exact hc b cell hcell s hs

theorem owns_congr (hb : h'.cells b = h.cells b) : h'.Owns b s ↔ h.Owns b s := by
  rw [Owns, hb, Owns]

theorem GrowsTo.owns_iff (hs : h.GrowsTo h') (hb : b < h.blocks.size) :
    h'.Owns b s ↔ h.Owns b s :=
  owns_congr (Array.ext_getElem? fun i => hs.cells b hb i id)

/-- What leads to a block leads on to what the block owns. -/
theorem partBlock?_of_owns (hb : h.partBlock? v path = some b) (ho : h.Owns b s) :
    ∃ i, h.partBlock? v (path ++ [i]) = some s := by
  obtain ⟨cell, hcell, hs⟩ := ho
  obtain ⟨i, hi⟩ := Array.mem_iff_getElem?.mp hcell
  obtain ⟨w, hw, hwb⟩ := Option.bind_eq_some_iff.mp hb
  refine ⟨i, ?_⟩
  rw [partBlock?_append, hw, Option.bind_some, partBlock?_of_block? hwb, hi]
  exact hs

/-- Where nothing owns blocks without end, no object is a part of itself. -/
theorem Founded.grounded (hf : h.Founded) : h.Grounded := by
  intro v b path hv hp hb
  cases path with
  | nil => exact hp rfl
  | cons i path =>
    rw [partBlock?_of_block? hv] at hb
    obtain ⟨cell, hcell, hb⟩ := Option.bind_eq_some_iff.mp hb
    have hmem := Array.mem_of_getElem? hcell
    have hbelow := of_partBlock? (P := fun s => Relation.TransGen (fun s b => h.Owns b s) s b)
      (fun s hs => .single ⟨cell, hmem, hs⟩)
      (fun s hs cell hcell s' hs' => .head ⟨cell, hcell, hs'⟩ hs) hb
    exact (WellFounded.transGen hf).asymmetric _ _ hbelow hbelow

/-- The blocks from `n` on own blocks from `n` on, and only such that were there before them. -/
def Descends (n : Nat) (h : Heap) : Prop := ∀ b ≥ n, ∀ s, h.Owns b s → n ≤ s ∧ s < b

theorem descends_size (h : Heap) : h.Descends h.blocks.size :=
  fun _ hb _ ho => absurd ho.lt_size (Nat.not_lt_of_le hb)

theorem Descends.alloc (hd : h.Descends n) {cells : Array Value}
    (hcells : ∀ cell ∈ cells, ∀ s, cell.block? = some s → n ≤ s ∧ s < h.blocks.size) :
    (h.alloc cells).2.Descends n := by
  rintro b hb s ⟨cell, hcell, hs⟩
  rw [cells_alloc] at hcell
  split at hcell
  · subst b
    exact hcells cell hcell s hs
  · exact hd b hb s ⟨cell, hcell, hs⟩

/-- In the second heap no block owns one of the first heap that it did not own there. -/
structure Renews (h h' : Heap) : Prop where
  blocks : h.blocks.size ≤ h'.blocks.size
  closed : h'.Closed
  founded : h'.Founded
  owned : ∀ b s, h'.Owns b s → h.Owns b s ∨ h.blocks.size ≤ s

namespace Renews

theorem refl (hc : h.Closed) (hf : h.Founded) : h.Renews h :=
  ⟨Nat.le_refl _, hc, hf, fun _ _ => .inl⟩

theorem trans (hr : h.Renews h') (hr' : h'.Renews h'') : h.Renews h'' where
  blocks := Nat.le_trans hr.blocks hr'.blocks
  closed := hr'.closed
  founded := hr'.founded
  owned b s ho := by
    rcases hr'.owned b s ho with ho | hs
    · exact hr.owned b s ho
    · exact .inr (Nat.le_trans hr.blocks hs)

/-- New blocks do not own without end, so old ones still do not. -/
theorem of_descends (hf : h.Founded) (hn : h.blocks.size ≤ h'.blocks.size) (hc : h'.Closed)
    (hold : ∀ b < h.blocks.size, ∀ s, h'.Owns b s → h.Owns b s ∨ h.blocks.size ≤ s)
    (hd : h'.Descends h.blocks.size) : h.Renews h' := by
  have hnew (b : BlockId) : h.blocks.size ≤ b → Acc (fun s b => h'.Owns b s) b := by
    induction b using Nat.strong_induction_on with
    | _ b ih =>
      intro hb
      refine ⟨b, fun s ho => ?_⟩
      obtain ⟨hs, hlt⟩ := hd b hb s ho
      exact ih s hlt hs
  refine ⟨hn, hc, ⟨fun b => ?_⟩, fun b s ho => ?_⟩
  · induction b using hf.induction with
    | _ b ih =>
      refine ⟨b, fun s ho => ?_⟩
      by_cases hb : b < h.blocks.size
      · exact (hold b hb s ho).elim (ih s) (hnew s)
      · exact hnew s (hd b (Nat.le_of_not_lt hb) s ho).1
  · by_cases hb : b < h.blocks.size
    · exact hold b hb s ho
    · exact .inr (hd b (Nat.le_of_not_lt hb) s ho).1

/-- A change of cells that come to own nothing more. -/
theorem of_owns (hc : h.Closed) (hf : h.Founded) (hn : h'.blocks.size = h.blocks.size)
    (ho : ∀ b s, h'.Owns b s → h.Owns b s) : h.Renews h' where
  blocks := Nat.le_of_eq hn.symm
  closed b cell hcell s hs := hn ▸ hc.lt_of_owns (ho b s ⟨cell, hcell, hs⟩)
  founded := Subrelation.wf (fun {s b} => ho b s) hf
  owned b s hos := .inl (ho b s hos)

end Renews

/-- What a block owns after one of its cells was changed. -/
theorem owns_modify? {p : Place} {f : Value → Value} (hm : h.modify? p f = some h')
    (ho : h'.Owns b s) : h.Owns b s ∨ p.block = b ∧ ∃ cell, (f cell).block? = some s := by
  obtain ⟨cell, hcell, hs⟩ := ho
  rcases mem_cells_of_modify? hm hcell with hcell | ⟨hb, old, -, rfl⟩
  · exact .inl ⟨cell, hcell, hs⟩
  · exact .inr ⟨hb, old, hs⟩

/-- A cell that is stored to owns nothing if what is stored does not. -/
theorem Renews.store? {p : Place} (hc : h.Closed) (hf : h.Founded) (hv : v.block? = none)
    (hs : h.store? p v = some h') : h.Renews h' := by
  refine .of_owns hc hf (size_of_modify? hs) fun b s ho => ?_
  rcases owns_modify? hs ho with ho | ⟨-, cell, hcell⟩
  · exact ho
  · cases hv.symm.trans hcell

end Heap

namespace HeapM

open Heap

variable {h h₀ : Heap} {v : Value} {b : BlockId} {n bound : Nat}

/-- No way down from the value is as long as the bound. -/
def Shallow (bound : Nat) (h : Heap) (v : Value) : Prop :=
  ∀ path b, h.partBlock? v path = some b → path.length < bound

/-- The cells that the value owns are one step down. -/
theorem Shallow.cells (hs : Shallow (bound + 1) h v) (hc : h.Closed) (hb : v.block? = some b) :
    ∀ cell ∈ (h.cells b).toList, h.Covers cell ∧ Shallow bound h cell := by
  intro cell hm
  have hmem := Array.mem_toList_iff.mp hm
  obtain ⟨i, hi⟩ := Array.mem_iff_getElem?.mp hmem
  refine ⟨hc b cell hmem, fun path b' hb' => ?_⟩
  refine Nat.lt_of_succ_lt_succ (hs (i :: path) b' ?_)
  rw [partBlock?_of_block? hb, hi]
  exact hb'

/-- What was made owns blocks from `n` on, which own one another in the order in which they came. -/
structure Made (n : Nat) (r : Value × Heap) : Prop where
  descends : r.2.Descends n
  fresh : ∀ s, r.1.block? = some s → n ≤ s

/-- Cells are copied one by one. -/
theorem made_mapM (hcopy : ∀ (h : Heap) v, h.Closed → h.Covers v → h.Descends n →
      n ≤ h.blocks.size → Shallow bound h v → Made n ((deepCopyWithin bound v).run h))
    (hc₀ : h₀.Closed) (cells : List Value)
    (hcells : ∀ cell ∈ cells, h₀.Covers cell ∧ Shallow bound h₀ cell) (hs : h₀.GrowsTo h)
    (hc : h.Closed) (hd : h.Descends n) (hn : n ≤ h.blocks.size) :
    let r := (cells.mapM fun cell => do
      return (← deepCopyWithin bound cell).withReadonly cell.readonly).run h
    r.2.Descends n ∧ ∀ w ∈ r.1, ∀ s, w.block? = some s → n ≤ s ∧ s < r.2.blocks.size := by
  induction cells generalizing h with
  | nil => exact ⟨hd, nofun⟩
  | cons cell cells ih =>
    obtain ⟨⟨hcovers, hshallow⟩, hrest⟩ := List.forall_mem_cons.mp hcells
    have hone := duplicates_deepCopyWithin bound hc (hcovers.mono hs)
    have hmade := hcopy h cell hc (hcovers.mono hs) hd hn fun path b hb => by
      rw [partBlock?_of_sameBut hs hc₀ hcovers .nothing] at hb
      exact hshallow path b hb
    have hn' := Nat.le_trans hn hone.grows.blocks
    have hall := forall₂_mapM (fun _ _ => duplicates_deepCopyWithin bound) hc₀ cells
      (fun cell hm => (hrest cell hm).1) (hs.trans hone.grows) hone.closed
    obtain ⟨hd', hfresh⟩ := ih hrest (hs.trans hone.grows) hone.closed hmade.descends hn'
    rw [List.mapM_cons]
    refine ⟨hd', List.forall_mem_cons.mpr ⟨fun s hb => ⟨hmade.fresh s hb, ?_⟩, hfresh⟩⟩
    exact Nat.lt_of_lt_of_le (hone.copies.covers s hb) hall.1.blocks

/-- What is copied down to its last parts shares nothing. -/
theorem made_deepCopyWithin (bound : Nat) (hc : h.Closed) (hv : h.Covers v) (hd : h.Descends n)
    (hn : n ≤ h.blocks.size) (hs : Shallow bound h v) :
    Made n ((deepCopyWithin bound v).run h) := by
  induction bound generalizing h v with
  | zero => exact ⟨hd, fun s hb => absurd (hs [] s hb) (Nat.not_lt_zero _)⟩
  | succ bound ih =>
    cases hb : v.block? with
    | none =>
      rw [deepCopyWithin_of_none hb]
      exact ⟨hd, fun s hb' => nomatch hb.symm.trans hb'⟩
    | some b =>
      have hcells := hs.cells hc hb
      obtain ⟨hgrows, -, -⟩ := forall₂_mapM (fun _ _ => duplicates_deepCopyWithin bound) hc
        (h.cells b).toList (fun cell hm => (hcells cell hm).1) (.refl h) hc
      obtain ⟨hd', hfresh⟩ := made_mapM (fun _ _ => ih) hc (h.cells b).toList hcells (.refl h) hc hd
        hn
      rw [run_deepCopyWithin hb]
      refine ⟨hd'.alloc fun w hw => hfresh w (List.mem_toArray.mp hw), fun s hb' => ?_⟩
      cases (Value.block?_onBlock hb).symm.trans hb'
      exact Nat.le_trans hn hgrows.blocks

section DeepCopy

variable (hc : h.Closed) (hf : h.Founded) (hv : h.Covers v)

include hc hf hv

theorem made_deepCopy : Made h.blocks.size ((deepCopy v).run h) := by
  refine made_deepCopyWithin _ hc hv (descends_size h) (Nat.le_refl _) fun path b hb => ?_
  exact Nat.lt_succ_of_lt (hf.grounded.length_lt hc hv hb)

theorem renews_deepCopy : h.Renews ((deepCopy v).run h).2 := by
  have hone := duplicates_deepCopy hc hv
  refine .of_descends hf hone.grows.blocks hone.closed (fun b hb s ho => .inl ?_)
    (made_deepCopy hc hf hv).descends
  exact (hone.grows.owns_iff hb).mp ho

end DeepCopy

end HeapM

namespace OperatorM

open Heap

variable {h h' : Heap} {target : BlockId} {ctx : OperatorContext}

/-- A cell takes a copy, or there is no such cell. -/
theorem copyMember_apply (new old : Value) (n : Nat) (ctx : OperatorContext) :
    let r := (HeapM.deepCopy new).run h
    copyMember target (new, old) n ctx h =
      .ok .unit ((r.2.init? (.member target n) (r.1.withReadonly old.readonly)).getD r.2) := by
  intro r
  have hcopy : (HeapM.deepCopy new : OperatorM Value) ctx h = .ok r.1 r.2 := rfl
  exact (bind_ok hcopy).trans (discard_ok (attempt_apply _ ctx r.2))

/-- The cell that is filled owns the copy, which is new. -/
theorem renews_copyMember {new old : Value} {n : Nat} (hc : h.Closed) (hf : h.Founded)
    (hnew : h.Covers new) (ht : target < h.blocks.size)
    (hx : copyMember target (new, old) n ctx h = .ok .unit h') : h.Renews h' := by
  rw [copyMember_apply] at hx
  have hone := HeapM.duplicates_deepCopy hc hnew
  have hmade := HeapM.made_deepCopy hc hf hnew
  have hrenews := HeapM.renews_deepCopy hc hf hnew
  generalize hr : (HeapM.deepCopy new).run h = r at hx hone hmade hrenews
  cases hm : r.2.init? (.member target n) (r.1.withReadonly old.readonly) with
  | none =>
    rw [hm] at hx
    cases hx
    exact hrenews
  | some h₂ =>
    rw [hm] at hx
    obtain rfl : h₂ = h' := (EStateM.Result.ok.inj hx).2
    have hsize := size_of_modify? hm
    have howns (b s : BlockId) (ho : h₂.Owns b s) :
        r.2.Owns b s ∨ target = b ∧ r.1.block? = some s := by
      rcases owns_modify? hm ho with ho | ⟨hb, cell, hs⟩
      · exact .inl ho
      · exact .inr ⟨hb, hs⟩
    refine .of_descends hf (hsize ▸ hrenews.blocks) (fun b cell hcell s hs => ?_)
      (fun b hb s ho => ?_) fun b hb s ho => ?_
    · rw [hsize]
      rcases howns b s ⟨cell, hcell, hs⟩ with ho | ⟨-, hs⟩
      · exact hone.closed.lt_of_owns ho
      · exact hone.copies.covers s hs
    · rcases howns b s ho with ho | ⟨-, hs⟩
      · exact hrenews.owned b s ho
      · exact .inr (hmade.fresh s hs)
    · rcases howns b s ho with ho | ⟨rfl, -⟩
      · exact hmade.descends b hb s ho
      · exact absurd ht (Nat.not_lt_of_le hb)

theorem renews_copyFrom {members : List (Value × Value)} {n : Nat} (hc : h.Closed) (hf : h.Founded)
    (hm : ∀ c ∈ members, h.Covers c.1) (ht : target < h.blocks.size)
    (hx : copyFrom target members n ctx h = .ok .unit h') : h.Renews h' := by
  induction members generalizing n h with
  | nil =>
    cases hx
    exact .refl hc hf
  | cons c members ih =>
    obtain ⟨hfirst, hrest⟩ := List.forall_mem_cons.mp hm
    have hone : copyMember target (c.1, c.2) n ctx h = _ := copyMember_apply c.1 c.2 n ctx
    rw [copyFrom, bind_ok hone] at hx
    have hrenews := renews_copyMember hc hf hfirst ht hone
    refine hrenews.trans (ih hrenews.closed hrenews.founded (fun c hc b hb => ?_)
      (Nat.lt_of_lt_of_le ht hrenews.blocks) hx)
    exact Nat.lt_of_lt_of_le (hrest c hc b hb) hrenews.blocks

/-- A struct that is assigned to owns new blocks, or those that it owned. -/
theorem renews_copyMembers {source : BlockId} (hc : h.Closed) (hf : h.Founded)
    (ht : target < h.blocks.size) (hx : copyMembers source target ctx h = .ok .unit h') :
    h.Renews h' := by
  rw [copyMembers_eq_copyFrom] at hx
  refine renews_copyFrom hc hf (fun c hm => ?_) ht hx
  rw [Array.toList_zip] at hm
  exact hc source c.1 (Array.mem_toList_iff.mp (List.of_mem_zip hm).1)

end OperatorM

end Stepwise
