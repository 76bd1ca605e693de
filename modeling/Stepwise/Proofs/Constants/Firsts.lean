import Stepwise.Proofs.Closure.Invariants
import Stepwise.Proofs.Constants.Computations
import Stepwise.Proofs.Constants.Cells
import Stepwise.Proofs.Session.Evolution

/-! # The first scalar of an array

What writes to no cells changes the heap only by adding blocks to it, so whatever new blocks leave
true of a heap is maintained by all of it. An array of arrays that is made from a single value gets
it in its first scalar at the end. If it is made within one step, that cell is as new as the array.
-/

namespace Stepwise

section Allocation

namespace RunM

variable {J : Heap → Prop} (ha : ∀ h cells, J h → J (h.alloc cells).2) (c : Config)
  {j k : Completion}

include ha

/-- A property of heaps that new blocks leave true is an invariant. -/
theorem invariant_heap : Invariant (fun s => J s.heap) (fun _ => True) c :=
  have hT := sequential_maintains (I := fun s => J s.heap) (c := c) fun _ _ => trivial
  have hchange {h : State → State} (hh : State.Change h) :
      (modify h : RunM Unit).Maintains (fun s => J s.heap) (fun _ => True) c fun _ => True :=
    .modify fun s hs => (hh.heap s).symm ▸ hs
  have hname (name : String) (ty : Ty) :
      (defineTypedef name ty).Maintains (fun s => J s.heap) (fun _ => True) c fun _ => True :=
    hchange ⟨fun _ => rfl, fun _ => rfl, fun _ _ => rfl⟩
  { raises := fun _ _ => trivial
    orAt := fun _ => trivial
    change := fun hh s hs => (hh.heap s).symm ▸ hs
    alloc := fun cells hs => ha _ cells hs
    write := fun _ hs => hs
    register := hT.register_of_change (fun hh _ => hchange hh) fun _ => .fail (fun _ => trivial) _
    resolveCall := hT.resolveCall_of_change fun hh _ => hchange hh
    nameArith := fun name k => hname name (.arith k)
    defineTypedefs := hT.defineTypedefs_of_names hname }

theorem quiet_heap :
    Quiet fun _ x Q => x.Maintains (fun s => J s.heap) (fun _ => True) c Q :=
  quiet_maintains (invariant_heap ha c)

theorem heap_make (m : Making) :
    (make m).Maintains (fun s => J s.heap) (fun _ => True) c Progress.Proceeds :=
  maintains_make (quiet_heap ha c).toPlain m

theorem heap_resumePause (p : Pause j) :
    (resumePause p).Maintains (fun s => J s.heap) (fun _ => True) c fun _ => True :=
  (quiet_heap ha c).resumePause (maintains_readCharacter fun _ hs => hs) (heap_make ha c)
    (fun _ => .modify fun _ hs => hs) p

theorem heap_resumeFrame {f : Frame j k} (hf : f.writes = false) (r : j.Result) :
    (resumeFrame f r).Maintains (fun s => J s.heap) (fun _ => True) c fun _ => True :=
  (quiet_heap ha c).resumeFrame_quiet (maintains_readCharacter fun _ hs => hs) (heap_make ha c) hf r

theorem heap_unwind {α : Type} {Q : α → Prop} (path : Frames j k) (fault : Fault) :
    (unwind path fault : RunM α).Maintains (fun s => J s.heap) (fun _ => True) c Q :=
  maintains_unwind (invariant_heap ha c) path trivial

end RunM

end Allocation

variable {h h' : Heap} {n : Nat}

/-- Where the first scalar of an array is that is filled by a single value. -/
def Heap.firstScalar? (h : Heap) : Ty → Value → Option Place
  | .array element _, array =>
    match array.array? with
    | none => none
    | some (store, _) =>
      match h.load? (.element store 0) with
      | none => none
      | some first =>
        if first.ty.isArray then h.firstScalar? element first else some (.element store 0)
  | _, _ => none

/-- The blocks down to the first scalar of an array are there, and they are not among the first `n`
blocks. -/
def Heap.FirstsAbove (n : Nat) (h : Heap) : Ty → Value → Prop
  | .array element _, array => ∀ store position, array.array? = some (store, position) →
    n ≤ store ∧ store < h.blocks.size ∧
      ∀ first, (h.cells store)[0]? = some first → first.ty.isArray = true →
        h.FirstsAbove n element first
  | _, _ => True

/-- No cell has changed. -/
abbrev Heap.Extends (h h' : Heap) : Prop := h.SameBut (fun _ _ => False) h'

namespace Heap.FirstsAbove

theorem extended (hs : h.Extends h') : (ty : Ty) → (v : Value) → h.FirstsAbove n ty v →
    h'.FirstsAbove n ty v
  | .array element _, v, hv => by
    intro store position hstore
    obtain ⟨hn, hlt, hfirst⟩ := hv store position hstore
    refine ⟨hn, Nat.lt_of_lt_of_le hlt hs.blocks, fun first hf ha => ?_⟩
    rw [hs.cells store hlt 0 id] at hf
    exact extended hs element first (hfirst first hf ha)
  | .void, _, _ | .arith _, _, _ | .pointer .., _, _ | .struct .., _, _ => trivial
  | .functionPointer _, _, _ | .function _, _, _ | .marker, _, _ => trivial

/-- Where a value was read from does not matter. -/
theorem congr {ty : Ty} {v w : Value} (hd : v.data = w.data) (hv : h.FirstsAbove n ty v) :
    h.FirstsAbove n ty w := by
  cases ty with
  | array element size =>
    intro store position hstore
    refine hv store position ?_
    rwa [Value.array?, hd]
  | _ => trivial

theorem le_of_firstScalar? : (ty : Ty) → (v : Value) → h.FirstsAbove n ty v → {p : Place} →
    h.firstScalar? ty v = some p → n ≤ p.block
  | .array element _, v, hv, p, hp => by
    unfold firstScalar? at hp
    cases hstore : v.array? with
    | none =>
      rw [hstore] at hp
      cases hp
    | some found =>
      obtain ⟨store, position⟩ := found
      obtain ⟨hn, -, hfirst⟩ := hv store position hstore
      rw [hstore] at hp
      dsimp only at hp
      cases hl : h.load? (.element store 0) with
      | none =>
        rw [hl] at hp
        cases hp
      | some first =>
        obtain ⟨cell, hcell, rfl⟩ := Option.map_eq_some_iff.mp hl
        rw [hl] at hp
        dsimp only at hp
        split at hp
        · have habove := hfirst cell hcell ‹_›
          refine le_of_firstScalar? element { cell with place := some (.element store 0) } ?_ hp
          exact congr (v := cell) rfl habove
        · cases hp
          exact hn
  | .void, _, _, _, hp | .arith _, _, _, _, hp | .pointer .., _, _, _, hp => nomatch hp
  | .struct .., _, _, _, hp | .functionPointer _, _, _, _, hp => nomatch hp
  | .function _, _, _, _, hp | .marker, _, _, _, hp => nomatch hp

end Heap.FirstsAbove

/-- A change of another cell. -/
theorem Heap.Spares.of_other {b : BlockId} {i : Nat} {P : Prop} {p : Place} {f : Value → Value}
    (hm : h.modify? p f = some h') (hp : ¬(p.block = b ∧ p.index = i)) : h.Spares b i P h' := by
  refine .of_eq ?_
  rw [getElem?_cells_of_modify? hm, if_neg hp]

namespace RunM

variable {α : Type} {b : BlockId} {i : Nat} {P : Prop}

/-- However the computation ends, it has spared the cell. -/
def SparesFrom (b : BlockId) (i : Nat) (P : Prop) (c : Config) (s : State) (x : RunM α) : Prop :=
  s.heap.Spares b i P (x.after c s).heap

theorem SparesFrom.of_maintains {x : RunM α} {Q : α → Prop} {c : Config} {s : State}
    (hx : x.Maintains (fun t => s.heap.Spares b i P t.heap) (fun _ => True) c Q) :
    x.SparesFrom b i P c s := hx.after (.refl s.heap)

/-- The computation goes on where an earlier one has ended. -/
theorem SparesFrom.bind {β : Type} {x : RunM α} {f : α → RunM β} {c : Config} {s : State}
    (hx : x.SparesFrom b i P c s)
    (hf : ∀ a t, x c s = .ok a t → (f a).SparesFrom b i P c t) :
    (x >>= f).SparesFrom b i P c s := by
  unfold SparesFrom at hx hf ⊢
  cases h : x c s with
  | error fault t => rwa [after_error (bind_error h), ← after_error h]
  | ok a t =>
    rw [after_ok h] at hx
    rw [after, bind_ok h]
    exact hx.trans (hf a t h)

variable (c : Config) (s : State) (v : Value) (readonly : Bool)

/-- A value is converted and fills another cell. -/
theorem sparesFrom_fill {p : Place} (hp : ¬(p.block = b ∧ p.index = i)) (ty : Ty) :
    SparesFrom b i P c s (do
      let converted ← operate (OperatorM.convert v ty false)
      discard (onHeap (HeapM.attempt fun h => h.init? p (converted.withReadonly readonly)))) := by
  have hgrown := Heap.Spares.grown (b := b) (i := i) (P := P)
  have hT := quiet_heap (J := fun h => s.heap.Spares b i P h)
    (fun h cells hs => hs.trans (.alloc h cells)) c
  refine .of_maintains (hT.bind (hT.convert v ty false) fun converted _ => hT.discard (R := fun _ => True) ?_)
  refine .operate (fun _ _ => trivial) (fun hs hh => hs.trans hh) ?_
  exact OperatorM.keeps_attempt hgrown fun h h' hh => .of_other hh hp

/-- Only the first scalar is filled. -/
theorem sparesFrom_storeIntoFirst : (ty : Ty) → (array : Value) →
    (∀ p, s.heap.firstScalar? ty array = some p → ¬(p.block = b ∧ p.index = i)) →
    (storeIntoFirst v readonly ty array).SparesFrom b i P c s
  | .array element _, array, hp => by
    unfold Heap.firstScalar? at hp
    unfold storeIntoFirst
    cases hstore : array.array? with
    | none => exact .refl s.heap
    | some found =>
      obtain ⟨store, position⟩ := found
      rw [hstore] at hp
      dsimp only at hp ⊢
      refine .bind (.refl s.heap) fun found t hfound => ?_
      cases hfound
      dsimp only
      cases hl : s.heap.load? (.element store 0) with
      | none => exact .refl s.heap
      | some first =>
        rw [hl] at hp
        dsimp only at hp ⊢
        split at hp
        · rw [if_pos ‹_›]
          exact sparesFrom_storeIntoFirst element first hp
        · rw [if_neg ‹_›]
          exact sparesFrom_fill c s v readonly (hp _ rfl) first.ty
  | .void, _, _ | .arith _, _, _ | .pointer .., _, _ | .struct .., _, _ => .refl s.heap
  | .functionPointer _, _, _ | .function _, _, _ | .marker, _, _ => .refl s.heap

theorem sparesFrom_storeFirst {array : Value}
    (hp : ∀ p, s.heap.firstScalar? array.ty array = some p → ¬(p.block = b ∧ p.index = i)) :
    (storeFirst v readonly array).SparesFrom b i P c s :=
  .bind (sparesFrom_storeIntoFirst c s v readonly array.ty array hp) fun _ t _ => .refl t.heap

/-- A value that is made from the state on is in new blocks, down to its first scalar. -/
def MakesAbove (n : Nat) (ty : Ty) (x : RunM (Progress .value)) : Prop := ∀ c s v t,
  x c s = .ok (.done v) t → n ≤ s.heap.blocks.size →
    s.heap.Extends t.heap ∧ t.heap.FirstsAbove n ty v ∧
      (ty.isArray = true → v.ty = ty ∧ v.Detached)

section Fill

variable {n size : Nat} {f : Filling} (hf : f.target = .array f.element size)

include hf

theorem makesAbove_finish {made : Array Value} {c : Config} {s t : State} {v : Value}
    (hmade : ∀ w ∈ made, s.heap.FirstsAbove n f.element w)
    (h : finish f made c s = .ok (.done v) t) (hn : n ≤ s.heap.blocks.size) :
    s.heap.Extends t.heap ∧ t.heap.FirstsAbove n f.target v ∧
      (f.target.isArray = true → v.ty = f.target ∧ v.Detached) := by
  have hs : s.heap.Extends (s.heap.alloc made).2 := .alloc s.heap made
  cases h
  refine ⟨hs, ?_, fun _ => ⟨rfl, rfl⟩⟩
  rw [hf]
  rintro store position hstore
  obtain rfl : s.heap.blocks.size = store := by
    cases hstore
    rfl
  refine ⟨hn, ?_, fun first hfirst ha => ?_⟩
  · change s.heap.blocks.size < (s.heap.blocks.push made).size
    simp
  · change ((s.heap.alloc made).2.cells s.heap.blocks.size)[0]? = some first at hfirst
    rw [Heap.cells_alloc, if_pos rfl] at hfirst
    exact (hmade first (Array.mem_of_getElem? hfirst)).extended hs

theorem makesAbove_fillDefaults {make : Making → RunM (Progress .value)}
    (hm : MakesAbove n f.element (make (.default f.element f.readonly))) (count : Nat)
    {made : Array Value} {c : Config} {s t : State} {v : Value}
    (hmade : ∀ w ∈ made, s.heap.FirstsAbove n f.element w)
    (h : fillDefaults make f count made c s = .ok (.done v) t) (hn : n ≤ s.heap.blocks.size) :
    s.heap.Extends t.heap ∧ t.heap.FirstsAbove n f.target v ∧
      (f.target.isArray = true → v.ty = f.target ∧ v.Detached) := by
  induction count generalizing made s with
  | zero => exact makesAbove_finish hf hmade h hn
  | succ count ih =>
    obtain ⟨p, u, hp, h⟩ := bind_eq_ok h
    cases p with
    | paused p path => cases h
    | done w =>
      obtain ⟨hs, hw, -⟩ := hm c s w u hp hn
      have hmade' : ∀ w ∈ made, u.heap.FirstsAbove n f.element w :=
        fun w hm => (hmade w hm).extended hs
      have hn' := Nat.le_trans hn hs.blocks
      dsimp only at h
      split at h
      · have hall : ∀ w' ∈ made ++ Array.replicate (count + 1) w,
            u.heap.FirstsAbove n f.element w' := by
          intro w' hw'
          rcases Array.mem_append.mp hw' with hw' | hw'
          · exact hmade' w' hw'
          · rwa [Array.eq_of_mem_replicate hw']
        obtain ⟨hs', hv⟩ := makesAbove_finish hf hall h hn'
        exact ⟨hs.trans hs', hv⟩
      · have hall : ∀ w' ∈ made.push w, u.heap.FirstsAbove n f.element w' := by
          intro w' hw'
          rcases Array.mem_push.mp hw' with hw' | rfl
          · exact hmade' w' hw'
          · exact hw
        obtain ⟨hs', hv⟩ := ih hall h hn'
        exact ⟨hs.trans hs', hv⟩

end Fill

/-- The making of a default writes to no cell that is there. -/
theorem extends_makeWithin {depth : Nat} {m : Making} {c : Config} {s t : State}
    {p : Progress .value} (h : makeWithin depth m c s = .ok p t) : s.heap.Extends t.heap := by
  have hT := quiet_heap (J := fun h => s.heap.Extends h)
    (fun h cells hs => hs.trans (.alloc h cells)) c
  exact ((hT.makeWithin (fun _ => .fail (fun _ => trivial) _) depth m).of_ok (.refl s.heap) h).1

theorem makesAbove_default (n depth : Nat) (ty : Ty) (readonly : Bool) :
    MakesAbove n ty (makeWithin depth (.default ty readonly)) := by
  induction depth generalizing ty with
  | zero => exact fun _ _ _ _ h => nomatch h
  | succ depth ih =>
    intro c s v t h hn
    refine ⟨extends_makeWithin h, ?_⟩
    cases ty with
    | array element size =>
      exact (makesAbove_fillDefaults (f := ⟨.array element size, readonly, #[], [], size, element⟩)
        rfl (ih element) size (by simp) h hn).2
    | _ => exact ⟨trivial, fun ha => nomatch ha⟩

theorem Respects.makeSingle {b : BlockId} {i : Nat} (ty : Ty) (readonly : Bool) (v : Value) :
    (makeSingle ty readonly v).Respects b i := by
  cases ty with
  | array element size =>
    refine ite (fillNext make _ _ _) (ite ?_ (bind fun _ => fail _))
    intro c s q t h
    obtain ⟨p, u, hp, h⟩ := bind_eq_ok h
    have hr := make (b := b) (i := i) _ c s p u hp
    cases p with
    | paused p path =>
      cases h
      exact Frames.Respects.append hr ⟨trivial, trivial⟩
    | done array =>
      obtain ⟨-, -, harray⟩ := makesAbove_default s.heap.blocks.size _
        (.array element size) readonly c s array u hp (Nat.le_refl _)
      obtain ⟨_, _, -, h⟩ := bind_eq_ok h
      cases h
      exact .of_detached (harray rfl).2
  | _ => exact fail _

variable {b : BlockId} {i : Nat} {P : Prop} (c : Config) (s : State)

/-- A cell that is not there cannot be changed. -/
theorem sparesFrom_of_absent {x : RunM α} (hb : s.heap.blocks.size ≤ b) :
    x.SparesFrom b i P c s := fun _ hc =>
  absurd (Heap.lt_size_of_mem_cells (Array.mem_of_getElem? hc)) (Nat.not_lt.mpr hb)

/-- An array that is made from a single value is filled before any other cell can lead to it. -/
theorem sparesFrom_makeSingle (ty : Ty) (readonly : Bool) (v : Value) :
    (makeSingle ty readonly v).SparesFrom b i P c s := by
  rcases Nat.lt_or_ge b s.heap.blocks.size with hb | hb
  · have ha (h : Heap) (cells) (hs : s.heap.Spares b i P h) :
        s.heap.Spares b i P (h.alloc cells).2 := hs.trans (.alloc h cells)
    have hT := quiet_heap ha c
    have hm := heap_make ha c
    cases ty with
    | array element size =>
      unfold makeSingle
      dsimp only
      split
      · exact .of_maintains (hT.fillNext _ (fun _ => hm _) (fun m _ => hm m) _)
      · split
        · refine .bind (.of_maintains (hm _)) fun p u hp => ?_
          cases p with
          | paused p path => exact .refl u.heap
          | done array =>
            obtain ⟨-, hfirsts, hty⟩ := makesAbove_default s.heap.blocks.size _
              (.array element size) readonly c s array u hp (Nat.le_refl _)
            refine sparesFrom_storeFirst c u v readonly fun q hq hqb => ?_
            rw [(hty rfl).1] at hq
            exact Nat.not_le.mpr hb (hqb.1 ▸ hfirsts.le_of_firstScalar? _ _ hq)
        · exact .of_maintains (Q := fun _ => True) (hT.text_bind v fun _ => hT.fail _ rfl)
    | _ => exact .refl s.heap
  · exact sparesFrom_of_absent c s hb

end RunM

end Stepwise
