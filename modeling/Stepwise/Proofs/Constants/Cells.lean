import Stepwise.Proofs.Constants.Results
import Stepwise.Proofs.Operator.Atomicity
import Stepwise.Proofs.Operator.Layout
import Stepwise.Proofs.Session.Evolution

/-! # Constant cells

Whether a cell is constant is settled when it is made. Nothing that a run does, and nothing
that its host does in between, makes a constant cell writable or takes it away.
-/

namespace Stepwise

namespace Heap

/-- There is a cell at the place, and it is constant. -/
def Constant (h : Heap) (p : Place) : Prop := ∃ v, h.load? p = some v ∧ v.readonly = true

instance (h : Heap) (p : Place) : Decidable (h.Constant p) :=
  decidable_of_iff ((h.load? p).any (·.readonly) = true) (Option.any_eq_true _ _)

/-- The block is there, and all its cells are constant. -/
def ConstantBlock (h : Heap) (b : BlockId) : Prop :=
  b < h.blocks.size ∧ ∀ cell ∈ h.cells b, cell.readonly = true

/-- Blocks keep their cells, and these stay constant if they are. -/
structure KeepsConstants (h h' : Heap) : Prop where
  blocks : h.blocks.size ≤ h'.blocks.size
  sizes : ∀ b < h.blocks.size, (h'.cells b).size = (h.cells b).size
  constants : ∀ (b : BlockId) (i : Nat) (cell : Value), (h.cells b)[i]? = some cell →
    cell.readonly = true → ∃ cell', (h'.cells b)[i]? = some cell' ∧ cell'.readonly = true

variable {h h' h'' : Heap}

theorem Constant.iff_cell {p : Place} :
    h.Constant p ↔ ∃ cell, (h.cells p.block)[p.index]? = some cell ∧ cell.readonly = true := by
  unfold Constant load?
  constructor
  · rintro ⟨v, hv, hr⟩
    obtain ⟨cell, hc, rfl⟩ := Option.map_eq_some_iff.mp hv
    exact ⟨cell, hc, hr⟩
  · rintro ⟨cell, hc, hr⟩
    exact ⟨_, Option.map_eq_some_iff.mpr ⟨cell, hc, rfl⟩, hr⟩

namespace KeepsConstants

theorem refl (h : Heap) : h.KeepsConstants h :=
  ⟨Nat.le_refl _, fun _ _ => rfl, fun _ _ cell hc hr => ⟨cell, hc, hr⟩⟩

theorem trans (hk : h.KeepsConstants h') (hk' : h'.KeepsConstants h'') :
    h.KeepsConstants h'' where
  blocks := Nat.le_trans hk.blocks hk'.blocks
  sizes b hb := (hk'.sizes b (Nat.lt_of_lt_of_le hb hk.blocks)).trans (hk.sizes b hb)
  constants b i cell hc hr := by
    obtain ⟨cell', hc', hr'⟩ := hk.constants b i cell hc hr
    exact hk'.constants b i cell' hc' hr'

theorem alloc (h : Heap) (cells : Array Value) : h.KeepsConstants (h.alloc cells).2 where
  blocks := (keeps_alloc h cells).size
  sizes b hb := by rw [cells_alloc, if_neg (Nat.ne_of_lt hb)]
  constants b i cell hc hr := by
    have hb := lt_size_of_mem_cells (Array.mem_of_getElem? hc)
    rw [cells_alloc, if_neg (Nat.ne_of_lt hb)]
    exact ⟨cell, hc, hr⟩

theorem of_modify? {p : Place} {f : Value → Value} (hm : h.modify? p f = some h')
    (hf : ∀ cell, cell.readonly = true → (f cell).readonly = true) : h.KeepsConstants h' where
  blocks := Nat.le_of_eq (size_of_modify? hm).symm
  sizes b _ := size_cells_of_modify? hm b
  constants b i cell hc hr := by
    rw [getElem?_cells_of_modify? hm, hc]
    split
    · exact ⟨f cell, rfl, hf cell hr⟩
    · exact ⟨cell, rfl, hr⟩

theorem constant (hk : h.KeepsConstants h') {p : Place} (hp : h.Constant p) : h'.Constant p := by
  rw [Constant.iff_cell] at hp ⊢
  obtain ⟨cell, hc, hr⟩ := hp
  exact hk.constants _ _ cell hc hr

theorem constantBlock (hk : h.KeepsConstants h') {b : BlockId} (hb : h.ConstantBlock b) :
    h'.ConstantBlock b := by
  refine ⟨Nat.lt_of_lt_of_le hb.1 hk.blocks, fun cell hm => ?_⟩
  obtain ⟨i, hi⟩ := Array.mem_iff_getElem?.mp hm
  have hlt : i < (h.cells b).size := by
    rw [← hk.sizes b hb.1]
    exact (Array.getElem?_eq_some_iff.mp hi).1
  have hold := hb.2 _ (Array.getElem_mem hlt)
  obtain ⟨cell', hc', hr'⟩ := hk.constants b i _ (Array.getElem?_eq_getElem hlt) hold
  cases hi.symm.trans hc'
  exact hr'

end KeepsConstants

theorem kept_keepsConstants : Heap.Kept KeepsConstants where
  refl := .refl
  trans := .trans
  alloc := .alloc
  store hs := .of_modify? hs fun _ hr => hr
  init hs := .of_modify? hs fun cell hr => by simp [hr]

end Heap

/-- Computations keep constant cells. -/
def Contract.keepsConstants : Contract where
  pre _ := True
  heap := Heap.KeepsConstants
  kept s t := s.heap.KeepsConstants t.heap
  raises _ := True

theorem lawful_keepsConstants : Contract.keepsConstants.Lawful where
  heaps := Heap.kept_keepsConstants
  refl s := .refl s.heap
  trans ht hu := Heap.KeepsConstants.trans ht hu
  stays _ _ := trivial
  raises _ _ := trivial
  orAt _ := trivial
  change {_} hh s := by
    change s.heap.KeepsConstants _
    rw [hh.heap]
    exact .refl _
  onHeap hh := hh
  write s _ := .refl s.heap

/-- Whatever a host does, constant cells stay constant. -/
theorem Run.keepsConstants_play (moves : List HostMove) (r : Run) :
    r.state.heap.KeepsConstants (r.play moves).state.heap :=
  kept_play lawful_keepsConstants (fun _ => trivial) (fun s _ => .refl s.heap)
    (fun _ _ s _ => ⟨.refl s.heap, trivial⟩) moves trivial

end Stepwise

/-! ## Operators spare constant cells

An operator leaves a constant cell as it is, unless it assigns to the struct whose member the cell
is: members are copied without a look at the flags of their cells. The flags themselves stay.
-/

namespace Stepwise

variable {b : BlockId} {i : Nat} {h h' : Heap}

namespace OperatorM

namespace Reading

variable {T : (α : Type) → OperatorM α → Prop} (hT : Reading T)

include hT

/-- A loop over a list that counts its rounds. -/
theorem forIn_counted {γ : Type} {act : γ → Nat → OperatorM PUnit} (cs : List γ)
    (counter : Std.Legacy.Range) (hstep : counter.step = 1)
    (ha : ∀ m c, cs[m]? = some c → T _ (act c (counter.start + m))) :
    T _ (forIn cs counter fun c counter =>
      match Std.Stream.next? counter with
      | none => return ForInStep.done counter
      | some (index, counter) => act c index >>= fun _ => return ForInStep.yield counter) := by
  induction cs generalizing counter with
  | nil => exact hT.pure _
  | cons c cs ih =>
    rw [List.forIn_cons]
    simp only [Std.Stream.next?, hstep]
    by_cases hlt : counter.start < counter.stop
    · rw [if_pos hlt]
      dsimp only
      rw [bind_assoc]
      refine hT.bind (ha 0 c rfl) fun _ => ?_
      rw [pure_bind]
      exact ih _ rfl fun m d hd => (Nat.add_right_comm _ m 1 ▸ ha (m + 1) d hd :)
    · rw [if_neg hlt]
      dsimp only
      rw [pure_bind]
      exact hT.pure _

end Reading

/-- The copy of one member, whose cell keeps its flag. -/
def copyMember (target : BlockId) (members : Value × Value) (index : Nat) : OperatorM PUnit := do
  let copied ← HeapM.deepCopy members.1
  discard (HeapM.attempt fun h =>
    h.init? (.member target index) (copied.withReadonly members.2.readonly))

theorem copyMembers_apply (source target : BlockId) (ctx : OperatorContext) (h : Heap) :
    copyMembers source target ctx h = (do
      let members := ((h.cells source).zip (h.cells target)).toList
      let _ ← forIn members [0:members.length] fun c counter =>
        match Std.Stream.next? counter with
        | none => return ForInStep.done counter
        | some (index, counter) => copyMember target c index >>= fun _ =>
          return ForInStep.yield counter
      return) ctx h := by
  simp only [copyMember, bind_assoc, Array.forIn_toList, Array.length_toList]
  rfl

variable {h₀ : Heap} {target : BlockId}

/-- The loop began with the heap `h₀`. -/
theorem keeps_copyMember {c : Value × Value} {n : Nat} (hc : (h₀.cells target)[n]? = some c.2) :
    (copyMember target c n).Keeps fun h h' => h₀.Spares b i True h → h₀.Spares b i True h' := by
  have hgrown : Heap.Grown fun h h' => h₀.Spares b i True h → h₀.Spares b i True h' :=
    ⟨fun _ => id, fun hh hh' hs => hh' (hh hs), fun h cells hs => hs.trans (.alloc h cells)⟩
  have hT := copying_keeps hgrown
  have hinit (copied : Value) (h h' : Heap)
      (hh : h.init? (.member target n) (copied.withReadonly c.2.readonly) = some h')
      (hs : h₀.Spares b i True h) : h₀.Spares b i True h' := by
    refine hs.trans (.of_modify? hh ?_)
    rintro hb hi cell hcell
    obtain ⟨cell', hcell', hr, -⟩ := hs c.2 (by rwa [← hb, ← hi])
    cases hcell.symm.trans hcell'
    simp [Value.withReadonly, hr]
  unfold copyMember
  refine hT.bind (hT.deepCopy c.1) fun copied => hT.discard ?_
  exact keeps_attempt hgrown fun h h' hh => hinit copied h h' hh

/-- Members are copied into cells that keep their flags. -/
theorem keeps_copyMembers (source target : BlockId) :
    (copyMembers source target).Keeps (Heap.Spares b i True) := by
  intro ctx h
  have hgrown : Heap.Grown fun h' h'' => h.Spares b i True h' → h.Spares b i True h'' :=
    ⟨fun _ => id, fun hh hh' hs => hh' (hh hs), fun h cells hs => hs.trans (.alloc h cells)⟩
  have hT := copying_keeps hgrown
  let members := ((h.cells source).zip (h.cells target)).toList
  have hmember (n : Nat) (c : Value × Value) (hc : members[n]? = some c) :
      (h.cells target)[0 + n]? = some c.2 := by
    rw [Nat.zero_add]
    exact (Array.getElem?_zip_eq_some.mp (Array.getElem?_toList ▸ hc)).2
  have hloop := hT.forIn_counted members [0:members.length] rfl fun n c hc =>
    keeps_copyMember (hmember n c hc)
  have hrun := hT.bind hloop (fun _ => hT.pure PUnit.unit) ctx h
  rw [copyMembers_apply]
  split at hrun
  · rename_i a h' hx
    rw [hx]
    exact hrun (.refl h)
  · rename_i fault h' hx
    rw [hx]
    exact ⟨hrun.1 (.refl h), hrun.2⟩

end OperatorM

namespace Operator

variable {op : Operator} {l : Value} {r : Option Value} {ctx : OperatorContext} {v : Value}

/-- A constant cell is only touched where members of a struct are copied. -/
theorem not_touches (hl : l.Respects h b i) {cell : Value} (hc : (h.cells b)[i]? = some cell)
    (hr : cell.readonly = true) (hs : ¬(op = .assign ∧ l.structStore? = some b))
    (hx : op.apply l r ctx h = .ok v h') : ¬op.Touches l b i := by
  rintro ⟨hop, ht⟩
  have hplace : ¬∃ role, l.place = some ⟨role, b, i⟩ := by
    rintro ⟨role, hp⟩
    obtain ⟨cell', hc', hr'⟩ := hl role hp
    cases hc.symm.trans hc'
    obtain ⟨fault, hfault⟩ := op.refuses_apply (hr' hr) r hop ctx h
    cases hx.symm.trans hfault
  split at ht
  · exact hplace ht
  · exact hplace ht
  · exact hplace ht
  · exact hs ⟨ht.1, by rw [Value.structStore?, ht.2]⟩
  · exact ht

/-- A left value that respects the cell is not written to if the cell is constant, unless members
of a struct are copied. -/
theorem spares_apply (op : Operator) (hl : l.Respects h b i)
    (hr : ∀ w, r = some w → w.Respects h b i) (ctx : OperatorContext) :
    match op.apply l r ctx h with
    | .ok v h' => h.Spares b i (op = .assign ∧ l.structStore? = some b) h' ∧ v.Respects h' b i
    | .error _ h' => h' = h := by
  have hT := OperatorM.storing_keeps (Heap.Spares.stored (b := b) (i := i))
  have hflags := hT.apply_of_assignStruct op l r (fun r => hT.assignStruct_of_copyMembers l r
    fun target source _ => OperatorM.keeps_copyMembers source target) ctx h
  have hatomic : (op.apply l r).Atomic (op.Touches l) := atomic_apply r
  have hatomic := hatomic ctx h
  have hresult : (op.apply l r).Respects b i fun v => v = l ∨ r = some v :=
    respects_apply r (fun w _ hw => .inr hw) (.inl rfl)
  cases hx : op.apply l r ctx h with
  | error fault h' => rwa [hx] at hatomic
  | ok v h' =>
    rw [hx] at hflags hatomic
    refine ⟨fun cell hc => ?_, ?_⟩
    · obtain ⟨cell', hc', hr', -⟩ := hflags cell hc
      refine ⟨cell', hc', hr', fun ht hs => ?_⟩
      have hb := Heap.lt_size_of_mem_cells (Array.mem_of_getElem? hc)
      have hsame := hatomic.cells b hb i (not_touches hl hc ht hs hx)
      exact Option.some.inj (hc'.symm.trans (hsame.trans hc))
    · rcases hresult ctx h v h' hx with (rfl | hv) | hv
      · exact hl.spared hflags
      · exact (hr v hv).spared hflags
      · exact hv

end Operator

end Stepwise
