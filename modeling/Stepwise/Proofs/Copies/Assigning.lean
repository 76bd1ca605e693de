import Stepwise.Proofs.Constants.Cells
import Stepwise.Proofs.Copies.Deep

/-! # Struct assignment

The members of a struct are copied one by one into cells that are there, which keep their flags
and their places. What is below them is copied into new blocks.
-/

namespace Stepwise

open Value

variable {h h' h'' : Heap} {source target : BlockId} {ctx : OperatorContext}

namespace OperatorM

/-- The copies of members from an index on. -/
def copyFrom (target : BlockId) : List (Value × Value) → Nat → OperatorM PUnit
  | [], _ => return
  | c :: cs, n => do
    copyMember target c n
    copyFrom target cs (n + 1)

theorem forIn_eq_copyFrom (members : List (Value × Value)) (counter : Std.Legacy.Range)
    (hstep : counter.step = 1) (hstop : counter.stop = counter.start + members.length) :
    (do
      let _ ← forIn members counter fun c counter =>
        match Std.Stream.next? counter with
        | none => return ForInStep.done counter
        | some (index, counter) => copyMember target c index >>= fun _ =>
          return ForInStep.yield counter
      return : OperatorM PUnit) = copyFrom target members counter.start := by
  induction members generalizing counter with
  | nil => rfl
  | cons c cs ih =>
    have hlt : counter.start < counter.stop := by
      rw [hstop, List.length_cons]
      omega
    have hrest := ih { counter with start := counter.start + 1 } hstep (by
      simp only [hstop, List.length_cons]
      omega)
    rw [List.forIn_cons, copyFrom, ← hrest]
    simp only [Std.Stream.next?, hstep, if_pos hlt, bind_assoc, pure_bind]

theorem copyMembers_eq_copyFrom (source target : BlockId) (ctx : OperatorContext) (h : Heap) :
    copyMembers source target ctx h =
      copyFrom target ((h.cells source).zip (h.cells target)).toList 0 ctx h := by
  rw [copyMembers_apply]
  exact congrFun (congrFun (forIn_eq_copyFrom _ _ rfl (Nat.zero_add _).symm) ctx) h

end OperatorM

namespace Heap

variable {v w : Value} {b : BlockId} {bound : Nat}

/-- No part of the value owns the block. -/
def Apart (h : Heap) (v : Value) (b : BlockId) : Prop := ∀ path, h.partBlock? v path ≠ some b

namespace Apart

theorem spared (ha : h.Apart v b) : h.Spared (fun b' _ => b' = b) v :=
  fun path _ _ hpath hb => ha path (hb ▸ hpath)

theorem sameBut {touched : BlockId → Nat → Prop} (ha : h.Apart v b) (hs : h.SameBut touched h')
    (hc : h.Closed) (hv : h.Covers v) (hn : h.Spared touched v) : h'.Apart v b := by
  intro path
  rw [partBlock?_of_sameBut hs hc hv hn]
  exact ha path

/-- A copy owns new blocks, and blocks that the original owns. -/
theorem copies (ha : h.Apart v b) (hb : b < h.blocks.size) (hw : Copies bound h v h' w) :
    h'.Apart w b := by
  intro path hpath
  rcases (hw.owned path b hpath).2 with hle | ⟨-, hv⟩
  · exact Nat.not_le_of_lt hb hle
  · exact ha path hv

end Apart

/-- The cell is a copy of the one that was there in the heap `h`, with a flag of its own, and is no
way to the block. -/
structure Member (h : Heap) (new old : Value) (b : BlockId) (h' : Heap) (cell : Value) : Prop where
  readonly : cell.readonly = old.readonly
  copies : Copies (h.blocks.size + 1) h new h' cell
  apart : h'.Apart cell b

theorem Member.extend {touched : BlockId → Nat → Prop} {new old cell : Value}
    (hm : Member h new old b h' cell) (hc : h'.Closed) (hs : h'.SameBut touched h'')
    (hn : h'.Spared touched cell) : Member h new old b h'' cell :=
  ⟨hm.readonly, hm.copies.extend hc hs hn, hm.apart.sameBut hs hc hm.copies.covers hn⟩

/-- The members of `source` up to an index were copied into the cells of `target`. -/
structure Assigned (source target : BlockId) (h : Heap) (n : Nat) (h' : Heap) : Prop where
  same : h.SameBut (fun b _ => b = target) h'
  closed : h'.Closed
  copied : ∀ i < n, ∀ new old, (h.cells source)[i]? = some new → (h.cells target)[i]? = some old →
    ∃ cell, (h'.cells target)[i]? = some cell ∧ Member h new old target h' cell
  left : ∀ i ≥ n, (h'.cells target)[i]? = (h.cells target)[i]?

end Heap

namespace OperatorM

open Heap

theorem discard_ok {α : Type} {x : OperatorM α} {a : α} (hx : x ctx h = .ok a h') :
    discard x ctx h = .ok .unit h' := by
  change EStateM.map (fun _ => PUnit.unit) (x ctx) h = _
  rw [EStateM.map, hx]

theorem copyMember_of_init? {new old : Value} {n : Nat}
    (hm : ((HeapM.deepCopy new).run h).2.init? (.member target n)
      (((HeapM.deepCopy new).run h).1.withReadonly old.readonly) = some h')
    (ctx : OperatorContext) : copyMember target (new, old) n ctx h = .ok .unit h' := by
  generalize hr : (HeapM.deepCopy new).run h = r at hm
  have hcopy : (HeapM.deepCopy new : OperatorM Value) ctx h = .ok r.1 r.2 := by
    rw [← hr]
    rfl
  refine (bind_ok hcopy).trans (discard_ok (a := true) ?_)
  rw [attempt_apply, hm]
  rfl

section Step

variable {n : Nat} {new old : Value} (hc : h.Closed) (hnew : (h.cells source)[n]? = some new)
  (hold : (h.cells target)[n]? = some old) (hapart : h.Apart new target)
  (ha : Assigned source target h n h')

include hc hnew hold hapart ha

/-- The copy of a member is filled into its cell. -/
theorem assigned_init? {r : Value × Heap}
    (hone : HeapM.Duplicates (h'.blocks.size + 1) h' new r) :
    ∃ h₂, r.2.init? (.member target n) (r.1.withReadonly old.readonly) = some h₂ ∧
      Assigned source target h (n + 1) h₂ := by
  obtain ⟨w, h₁⟩ := r
  have hcovers : h.Covers new := hc source new (Array.mem_of_getElem? hnew)
  have htarget : target < h.blocks.size := lt_size_of_mem_cells (Array.mem_of_getElem? hold)
  have hcells (i : Nat) : (h₁.cells target)[i]? = (h'.cells target)[i]? :=
    hone.grows.cells target (Nat.lt_of_lt_of_le htarget ha.same.blocks) i id
  have hold₁ : (h₁.cells target)[n]? = some old := by
    rw [hcells, ha.left n (Nat.le_refl n), hold]
  obtain ⟨h₂, hm⟩ : ∃ h₂, h₁.init? (.member target n) (w.withReadonly old.readonly) = some h₂ :=
    ⟨_, if_pos (Array.getElem?_eq_some_iff.mp hold₁).1⟩
  have hs : h₁.SameBut (fun b _ => b = target) h₂ := .of_modify? hm rfl
  have hcells₂ (i : Nat) : (h₂.cells target)[i]? =
      if i = n then some (w.withReadonly old.readonly) else (h'.cells target)[i]? := by
    refine (getElem?_cells_of_modify? hm target i).trans ?_
    rw [hcells]
    by_cases hi : i = n
    · subst hi
      have hplace : w.place = none := (congrArg Value.place hone.rvalue).symm
      rw [if_pos ⟨rfl, rfl⟩, if_pos rfl, ← hcells, hold₁]
      simp [Value.withReadonly, hplace]
    · rw [if_neg hi, if_neg fun hp => hi hp.2.symm]
  have hcopies := (((hone.copies.flagged old.readonly).before ha.same hc hcovers hapart.spared).of_le
    (Nat.succ_le_succ ha.same.blocks))
  have hmember : Member h new old target h₁ (w.withReadonly old.readonly) :=
    ⟨rfl, hcopies, hapart.copies htarget hcopies⟩
  refine ⟨h₂, hm, ?_, ?_, ?_, ?_⟩
  · exact (ha.same.trans (hone.grows.mono fun _ _ => False.elim)).trans hs
  · intro b cell hcell s hb
    rw [size_of_modify? hm]
    rcases mem_cells_of_modify? hm hcell with hcell | ⟨-, old', -, rfl⟩
    · exact hone.closed b cell hcell s hb
    · exact hcopies.covers s hb
  · intro i hi new' old' hnew' hold'
    rw [hcells₂]
    by_cases hin : i = n
    · subst hin
      cases hnew.symm.trans hnew'
      cases hold.symm.trans hold'
      rw [if_pos rfl]
      exact ⟨_, rfl, hmember.extend hone.closed hs hmember.apart.spared⟩
    · obtain ⟨cell, hcell, hm'⟩ := ha.copied i (by omega) new' old' hnew' hold'
      rw [if_neg hin]
      have hm₁ := hm'.extend ha.closed hone.grows .nothing
      exact ⟨cell, hcell, hm₁.extend hone.closed hs hm₁.apart.spared⟩
  · intro i hi
    rw [hcells₂, if_neg (by omega), ha.left i (by omega)]

/-- One more member is copied. -/
theorem assigned_copyMember (ctx : OperatorContext) :
    ∃ h'', copyMember target (new, old) n ctx h' = .ok .unit h'' ∧
      Assigned source target h (n + 1) h'' := by
  have hcovers : h.Covers new := hc source new (Array.mem_of_getElem? hnew)
  have hone := HeapM.duplicates_deepCopy ha.closed (hcovers.mono ha.same)
  obtain ⟨h₂, hm, ha₂⟩ := assigned_init? hc hnew hold hapart ha hone
  exact ⟨h₂, copyMember_of_init? hm ctx, ha₂⟩

end Step

/-- The members that are left are copied. -/
theorem assigned_copyFrom (hc : h.Closed) (hapart : ∀ new ∈ h.cells source, h.Apart new target)
    (ctx : OperatorContext) {members : List (Value × Value)} {n : Nat}
    (hm : ∀ m new old, members[m]? = some (new, old) →
      (h.cells source)[n + m]? = some new ∧ (h.cells target)[n + m]? = some old)
    (ha : Assigned source target h n h') :
    ∃ h'', copyFrom target members n ctx h' = .ok .unit h'' ∧
      Assigned source target h (n + members.length) h'' := by
  induction members generalizing n h' with
  | nil => exact ⟨h', rfl, ha⟩
  | cons c members ih =>
    obtain ⟨hnew, hold⟩ := hm 0 c.1 c.2 rfl
    obtain ⟨h₁, hfirst, ha₁⟩ := assigned_copyMember hc hnew hold
      (hapart c.1 (Array.mem_of_getElem? hnew)) ha ctx
    obtain ⟨h₂, hrest, ha₂⟩ := ih (n := n + 1) (fun m new old hmem => by
      rw [Nat.add_right_comm]
      exact hm (m + 1) new old hmem) ha₁
    refine ⟨h₂, (bind_ok hfirst).trans hrest, ?_⟩
    rwa [Nat.add_right_comm] at ha₂

/-- All members are copied. -/
theorem assigned_copyMembers (hc : h.Closed) (hapart : ∀ new ∈ h.cells source, h.Apart new target)
    (ctx : OperatorContext) : ∃ h', copyMembers source target ctx h = .ok .unit h' ∧
      Assigned source target h (min (h.cells source).size (h.cells target).size) h' := by
  have hstart : Assigned source target h 0 h := ⟨.refl h, hc, nofun, fun _ _ => rfl⟩
  have hmembers (m : Nat) (new old : Value)
      (hm : ((h.cells source).zip (h.cells target)).toList[m]? = some (new, old)) :
      (h.cells source)[0 + m]? = some new ∧ (h.cells target)[0 + m]? = some old := by
    rw [Nat.zero_add]
    exact Array.getElem?_zip_eq_some.mp (Array.getElem?_toList ▸ hm)
  have hall := assigned_copyFrom hc hapart ctx hmembers hstart
  rw [copyMembers_eq_copyFrom]
  simpa using hall

end OperatorM

/-- A struct value of a name, with its members in a block. -/
structure Value.IsStruct (v : Value) (name : String) (store : BlockId) : Prop where
  type : ∃ members, v.ty = .struct name members
  data : v.data = .struct store

namespace Value.IsStruct

variable {v w : Value} {name : String} {store : BlockId}

theorem block? (hv : v.IsStruct name store) : v.block? = some store := by
  rw [Value.block?, hv.data]

theorem partRole (hv : v.IsStruct name store) : v.partRole = .member := by
  rw [Value.partRole, hv.data]

end Value.IsStruct

namespace Heap

/-- A struct that may be assigned to, and one of its type that it is no part of. -/
structure Assignable (h : Heap) (name : String) (l r : Value) (target source : BlockId) :
    Prop where
  left : l.IsStruct name target
  right : r.IsStruct name source
  lvalue : l.isLvalue = true
  writable : l.readonly = false
  closed : h.Closed
  covers : h.Covers l ∧ h.Covers r
  members : (h.cells target).size = (h.cells source).size
  apart : target ≠ source → h.Apart r target

/-- A part of what is apart from a block is apart from it. -/
theorem Apart.member {v : Value} (ha : h.Apart v target) (hv : v.block? = some source)
    {new : Value} (hnew : new ∈ h.cells source) : h.Apart new target := by
  obtain ⟨i, hi⟩ := Array.mem_iff_getElem?.mp hnew
  intro path hpath
  refine ha (i :: path) ?_
  rw [partBlock?_of_block? hv, hi]
  exact hpath

end Heap

namespace Operator

open OperatorM Heap

/-- An object that is assigned to itself stays as it is, and otherwise all members are copied. -/
theorem assign_struct {name : String} {l r : Value} (ha : h.Assignable name l r target source)
    (ctx : OperatorContext) : ∃ h', assign.apply l (some r) ctx h = .ok l h' ∧
      if target = source then h' = h
      else Assigned source target h (h.cells source).size h' := by
  obtain ⟨ms, hl⟩ := ha.left.type
  obtain ⟨ms', hr⟩ := ha.right.type
  obtain ⟨p, hp⟩ := Option.isSome_iff_exists.mp ha.lvalue
  have happly : assign.apply l (some r) ctx h =
      (if target = source then return l else do
        copyMembers source target
        return l : OperatorM Value) ctx h := by
    simp only [Operator.apply, hl, ofType?]
    change (checkWritable l >>= _) ctx h = _
    rw [bind_ok (checkWritable_ok hp ha.writable ctx h)]
    simp only [hl, hr, ha.left.data, ha.right.data, bne_self_eq_false, Bool.false_eq_true, if_false]
  rw [happly]
  by_cases hsame : target = source
  · exact ⟨h, by rw [if_pos hsame]; rfl, by rw [if_pos hsame]⟩
  · obtain ⟨h', hcopy, hassigned⟩ := assigned_copyMembers ha.closed
      (fun new => (ha.apart hsame).member ha.right.block?) ctx
    rw [ha.members, Nat.min_self] at hassigned
    refine ⟨h', ?_, by rwa [if_neg hsame]⟩
    rw [if_neg hsame, bind_ok hcopy]
    rfl

end Operator

end Stepwise
