import Stepwise.Proofs.Binding.Parameters
import Stepwise.Proofs.Constants.Assignments
import Stepwise.Proofs.Copies.Flags
import Stepwise.Proofs.Declarator.Aliases
import Stepwise.Proofs.Locality.ScopeDiscipline
import Stepwise.Proofs.Operator.Offsets

/-! # Loops over elements

A loop over an array goes over the cells that the array has when the loop begins, in their order.
Each round loads its element only then, binds the loop variable to it in a scope of its own, and
executes the body. The variable stays bound while the body is executed: an alias shows what the cell
of the element holds, and a copy is in cells that were not there before the round.
-/

namespace Stepwise

open RunM

/-- The way out of a loop: what ends in another way is followed by the next round. -/
def Flow.leavesLoop : Flow → Bool
  | .breaks | .returns _ => true
  | .normal | .continues => false

/-- The state with the scope of a loop over elements. -/
def State.inLoop (s : State) : State :=
  { s with scopes := s.scopes.push "IterationStatement_foreach" }

/-- The state with the scope of a round. -/
def State.inRound (s : State) : State :=
  { s with scopes := s.scopes.push "IterationStatement_foreach_item" }

/-- The state in which the innermost scope is left. -/
def State.left (s : State) : State := { s with scopes := s.scopes.pop }

/-- The cells that the value is read from and consists of came after the first `n` blocks. -/
structure Value.NewSince (n : Nat) (v : Value) : Prop where
  place : ∀ p, v.place = some p → n ≤ p.block
  store : ∀ name members store, v.ty = .struct name members → v.data = .struct store → n ≤ store

/-- The value is read from the cell of the other one, which may hold another number or pointer by now. -/
structure Value.InCellOf (v w : Value) : Prop where
  place : v.place = w.place
  type : v.ty.named = w.ty.named
  store : v.structStore? = w.structStore?

/-- A round of a loop over elements: the element at a place is bound, and the body executed. -/
structure Round where
  place : Place
  element : Value
  start : State
  begun : State
  flow : Flow
  ended : State

namespace EachLoop

/-- The loop over the elements of an array of so many elements from a position on. -/
def ofArray (spec : TypeSpec) (d : Declarator) (body : Stmt) (inSwitch : Bool) (ty : Ty)
    (store : BlockId) (position : Int) (size : Nat) : EachLoop where
  spec := spec
  d := d
  body := body
  inSwitch := inSwitch
  places := (List.range' position.toNat (size - position.toNat)).map (Place.element store ·)
  text := (ty.pointee?.bind Ty.arith?).any ArithKind.isChar

/-- A zero ends the elements of a text. -/
def endsAt (l : EachLoop) (element : Value) : Bool := l.text && element.int? == some 0

/-- The loop over other places. -/
def along (l : EachLoop) (places : List Place) : EachLoop := { l with places }

/-- The element at the place is there when it is reached, and the loop variable can be bound to it. -/
structure Begins (c : Config) (l : EachLoop) (p : Place) (s : State) (element : Value) (t : State) :
    Prop where
  load : s.load? p = some element
  goes : l.endsAt element = false
  binds : bindElement l.spec l.d element c s.inRound = .ok () t

end EachLoop

/-- The round is one of the loop. -/
structure Round.Runs (c : Config) (l : EachLoop) (r : Round) : Prop
    extends l.Begins c r.place r.start r.element r.begun where
  body : (visitStmt l.body l.inSwitch .nil).Completes c r.begun r.flow r.ended

/-- Rounds that follow one another, from the places that are left before them to those that are left
after them. -/
inductive Rounds (c : Config) (l : EachLoop) :
    List Place → State → List Round → List Place → State → Prop
  | nil (places : List Place) (s : State) : Rounds c l places s [] places s
  | cons {r : Round} {rest places : List Place} {rounds : List Round} {t : State}
    (hr : r.Runs c l) (hf : r.flow.leavesLoop = false)
    (hrest : Rounds c l rest r.ended.left rounds places t) :
    Rounds c l (r.place :: rest) r.start (r :: rounds) places t

/-- How a loop ends with these places left. -/
inductive Stops (c : Config) (l : EachLoop) : List Place → State → Flow → State → Prop
  | finished (s : State) : Stops c l [] s .normal s
  | zero {p : Place} {rest : List Place} {s : State} {element : Value}
    (hl : s.load? p = some element) (hz : l.endsAt element = true) : Stops c l (p :: rest) s .normal s
  | breaks {r : Round} {rest : List Place} (hr : r.Runs c l) (hf : r.flow = .breaks) :
    Stops c l (r.place :: rest) r.start .normal r.ended.left
  | returns {r : Round} {rest : List Place} {v : Option Value} (hr : r.Runs c l)
    (hf : r.flow = .returns v) : Stops c l (r.place :: rest) r.start (.returns v) r.ended.left

/-- From every state that the loop comes to, the variable can be bound to the next element, and the body
can be executed and does not leave the loop. -/
structure EachLoop.GoesOn (c : Config) (l : EachLoop) (s : State) : Prop where
  binds : ∀ rounds p rest t element, Rounds c l l.places s rounds (p :: rest) t →
    t.load? p = some element → l.endsAt element = false → ∃ u, l.Begins c p t element u
  ends : ∀ rounds p rest t element u, Rounds c l l.places s rounds (p :: rest) t →
    l.Begins c p t element u → ∃ flow v, (visitStmt l.body l.inSwitch .nil).Completes c u flow v
  stays : ∀ rounds p rest t element u, Rounds c l l.places s rounds (p :: rest) t →
    l.Begins c p t element u → ∀ flow v,
      (visitStmt l.body l.inSwitch .nil).Completes c u flow v → flow.leavesLoop = false

section Rounds

variable {c : Config} {l : EachLoop} {s t u : State} {flow : Flow} {p : Place} {r : Round}
  {places rest : List Place} {rounds : List Round} {element : Value}

namespace RunM

/-- The next round begins, or the text has ended. -/
theorem completes_eachNext_cons_iff (hl : s.load? p = some element) :
    (eachNext (l.along (p :: rest))).Completes c s flow t ↔
      l.endsAt element = true ∧ flow = .normal ∧ t = s.left ∨
      ∃ r : Round, r.place = p ∧ r.start = s ∧ r.Runs c l ∧
        (afterBody r.flow (eachNext (l.along rest))).Completes c r.ended.left flow t := by
  have hnext : (eachNext (l.along (p :: rest))).Completes c s flow t ↔
      (if l.endsAt element then leaveScope .normal
      else do
        pushScope "IterationStatement_foreach_item"
        bindElement l.spec l.d element
        visitStmt l.body l.inSwitch (.one (.eachBody (l.along rest)))).Completes c s flow t := by
    refine completes_congr ?_
    have hload : inspect (fun s => s.load? p) c s = .ok (some element) s :=
      congrArg (EStateM.Result.ok · s) hl
    exact bind_ok hload
  rw [hnext]
  cases hz : l.endsAt element with
  | true =>
    rw [if_pos rfl]
    constructor
    · intro h
      obtain ⟨rfl, rfl⟩ := completes_done (s := s.left) h
      exact .inl ⟨rfl, rfl, rfl⟩
    · rintro (⟨-, rfl, rfl⟩ | ⟨r, rfl, rfl, hr, -⟩)
      · exact ⟨[], rfl⟩
      · cases hl.symm.trans hr.load
        cases hz.symm.trans hr.goes
  | false =>
    rw [if_neg Bool.false_ne_true]
    constructor
    · intro h
      obtain ⟨⟨⟩, s', hpush, h⟩ := completes_bind h
      cases hpush
      obtain ⟨⟨⟩, u, hb, h⟩ := completes_bind h
      obtain ⟨inner, v, hbody, h⟩ := completes_visitStmt_iff.mp h
      exact .inr ⟨⟨p, element, s, u, inner, v⟩, rfl, rfl, ⟨⟨hl, hz, hb⟩, hbody⟩, h⟩
    · rintro (⟨hz', -, -⟩ | ⟨r, rfl, rfl, hr, h⟩)
      · cases hz'
      · cases hl.symm.trans hr.load
        refine (completes_congr (bind_ok (f := fun _ => do
          bindElement l.spec l.d r.element
          visitStmt l.body l.inSwitch (.one (.eachBody (l.along rest))))
          (x := pushScope "IterationStatement_foreach_item") (s := r.start) (t := r.start.inRound)
          rfl)).mpr ?_
        refine (completes_congr (bind_ok hr.binds)).mpr ?_
        exact completes_visitStmt_iff.mpr ⟨r.flow, r.ended, hr.body, h⟩

end RunM

/-- A round takes away no cells. -/
theorem Round.Runs.keeps (hr : r.Runs c l) : r.start.heap.KeepsConstants r.ended.left.heap := by
  have hT := closed_meets lawful_keepsConstants
  have hbind : r.start.heap.KeepsConstants r.begun.heap :=
    ((hT.bindElement l.spec l.d r.element).of_ok trivial hr.binds).1
  have hbody : r.begun.heap.KeepsConstants r.ended.heap :=
    Completes.keepsConstants (hT.mono (hT.visitStmt _ _ _) fun _ _ => trivial) hr.body
  exact hbind.trans hbody

/-- There are cells at the places. -/
def State.HasCells (s : State) (places : List Place) : Prop := ∀ p ∈ places, (s.load? p).isSome

theorem State.isSome_load? : (s.load? p).isSome ↔ p.index < (s.heap.cells p.block).size := by
  simp [State.load?, Heap.load?]

theorem Heap.lt_size_of_index {h : Heap} {b i : Nat} (hi : i < (h.cells b).size) :
    b < h.blocks.size := lt_size_of_mem_cells (Array.getElem_mem hi)

theorem State.HasCells.keeps (hs : s.HasCells places) (hk : s.heap.KeepsConstants t.heap) :
    t.HasCells places := by
  intro p hp
  have hi := State.isSome_load?.mp (hs p hp)
  rw [State.isSome_load?, hk.sizes _ (Heap.lt_size_of_index hi)]
  exact hi

namespace RunM

/-- A loop over elements is rounds that follow one another, until it stops. -/
theorem completes_eachNext_iff (hs : s.HasCells places) :
    (eachNext (l.along places)).Completes c s flow t ↔
      ∃ rounds rest u v, Rounds c l places s rounds rest u ∧ Stops c l rest u flow v ∧
        t = v.left := by
  induction places generalizing s with
  | nil =>
    constructor
    · intro h
      obtain ⟨rfl, rfl⟩ := completes_done (s := s.left) h
      exact ⟨[], [], s, s, .nil [] s, .finished s, rfl⟩
    · rintro ⟨_, _, _, _, ⟨⟩, ⟨⟩, rfl⟩
      exact ⟨[], rfl⟩
  | cons p rest ih =>
    obtain ⟨hp, hrest⟩ := List.forall_mem_cons.mp hs
    obtain ⟨element, hl⟩ := Option.isSome_iff_exists.mp hp
    rw [completes_eachNext_cons_iff hl]
    constructor
    · rintro (⟨hz, rfl, rfl⟩ | ⟨r, rfl, rfl, hr, h⟩)
      · exact ⟨[], _, s, s, .nil _ s, .zero hl hz, rfl⟩
      · have hcells : r.ended.left.HasCells rest := State.HasCells.keeps hrest hr.keeps
        cases hf : r.flow with
        | normal | continues =>
          rw [hf] at h
          obtain ⟨rounds, places, u, v, hrounds, hstop, ht⟩ := (ih hcells).mp h
          exact ⟨r :: rounds, places, u, v, .cons hr (by rw [hf]; rfl) hrounds, hstop, ht⟩
        | breaks =>
          rw [hf] at h
          obtain ⟨rfl, rfl⟩ := completes_done (s := r.ended.left.left) h
          exact ⟨[], _, _, _, .nil _ _, .breaks hr hf, rfl⟩
        | returns v =>
          rw [hf] at h
          obtain ⟨rfl, rfl⟩ := completes_done (s := r.ended.left.left) h
          exact ⟨[], _, _, _, .nil _ _, .returns hr hf, rfl⟩
    · rintro ⟨_, _, u, v, hrounds, hstop, rfl⟩
      cases hrounds with
      | nil =>
        cases hstop with
        | zero hl' hz =>
          cases hl.symm.trans hl'
          exact .inl ⟨hz, rfl, rfl⟩
        | @breaks r _ hr hf =>
          refine .inr ⟨r, rfl, rfl, hr, ?_⟩
          rw [hf]
          exact ⟨[], rfl⟩
        | @returns r _ _ hr hf =>
          refine .inr ⟨r, rfl, rfl, hr, ?_⟩
          rw [hf]
          exact ⟨[], rfl⟩
      | @cons r _ _ _ _ hr hf hrounds =>
        have hcells : r.ended.left.HasCells rest := State.HasCells.keeps hrest hr.keeps
        have h := (ih hcells).mpr ⟨_, _, u, v, hrounds, hstop, rfl⟩
        refine .inr ⟨r, rfl, rfl, hr, ?_⟩
        cases hflow : r.flow with
        | normal | continues => exact h
        | breaks | returns =>
          rw [hflow] at hf
          cases hf

end RunM

namespace Rounds

/-- The rounds are those of the first places. -/
theorem places_eq (h : Rounds c l places s rounds rest t) :
    rounds.map Round.place ++ rest = places := by
  induction h with
  | nil => rfl
  | cons _ _ _ ih => rw [List.map_cons, List.cons_append, ih]

theorem runs (h : Rounds c l places s rounds rest t) : ∀ r ∈ rounds, r.Runs c l := by
  induction h with
  | nil => exact fun _ hr => nomatch hr
  | cons hr _ _ ih => exact List.forall_mem_cons.mpr ⟨hr, ih⟩

theorem keeps (h : Rounds c l places s rounds rest t) : s.heap.KeepsConstants t.heap := by
  induction h with
  | nil => exact .refl _
  | cons hr _ _ ih => exact hr.keeps.trans ih

theorem snoc (h : Rounds c l places s rounds (r.place :: rest) r.start) (hr : r.Runs c l)
    (hf : r.flow.leavesLoop = false) : Rounds c l places s (rounds ++ [r]) rest r.ended.left := by
  generalize hrest : r.place :: rest = rest', ht : r.start = t at h
  induction h with
  | nil places s =>
    subst hrest ht
    exact .cons hr hf (.nil _ _)
  | cons hr' hf' _ ih => exact .cons hr' hf' (ih hrest ht)

end Rounds

end Rounds

section Copying

variable {v w : Value} {h h' : Heap} {ctx : OperatorContext}

/-- A copy of a struct has new members. -/
theorem HeapM.le_store_of_deepCopy {store : BlockId}
    (hd : ((deepCopy v).run h).1.data = .struct store) : h.blocks.size ≤ store := by
  change ((deepCopyWithin (h.blocks.size + 1) v).run h).1.data = .struct store at hd
  unfold deepCopyWithin at hd
  have hgrows (bound : Nat) (cells : Array Value) : h.blocks.size ≤
      ((cells.mapM fun cell => do
        return (← deepCopyWithin bound cell).withReadonly cell.readonly).run h).2.blocks.size :=
    (grown_mapM (@Heap.SameBut.grown fun _ _ => False) (g := fun cell => do
      return (← deepCopyWithin bound cell).withReadonly cell.readonly)
      (grown_deepCopyWithin Heap.SameBut.grown bound) cells h).blocks
  split at hd
  · cases hd
    exact hgrows _ _
  · split at hd
    · cases hd
    · rename_i hdata _
      cases hdata.symm.trans hd
  · rename_i hstruct _
    exact absurd hd (hstruct store)

/-- What is copied to be stored is in new cells. -/
theorem OperatorM.new_of_copy {ty : Ty} (hx : copy v ty ctx h = .ok w h') :
    h.blocks.size ≤ h'.blocks.size ∧ ∀ name members store, w.ty = .struct name members →
      w.data = .struct store → h.blocks.size ≤ store := by
  constructor
  · have hkeeps := (copying_keeps (@Heap.SameBut.grown fun _ _ => False)).copy v ty ctx h
    rw [hx] at hkeeps
    exact hkeeps.blocks
  · intro name members store hty hd
    by_cases hs : ∃ tag ms, ty = .struct tag ms
    · obtain ⟨tag, ms, rfl⟩ := hs
      have hcopy := copy_struct hx
      refine HeapM.le_store_of_deepCopy (v := v.rvalue) ?_
      rw [hcopy]
      exact hd
    · have hconverted := (gives_copy v (fun tag ms h => hs ⟨tag, ms, h⟩) ctx w h' hx).2
      have hnamed : ty.named = .struct name [] := by rw [← hconverted.type, hty, Ty.named]
      obtain ⟨ms, rfl⟩ := named_eq_struct hnamed
      exact absurd ⟨name, ms, rfl⟩ hs

/-- An operator changes none of the cells that were there before those of its left operand. -/
theorem Value.NewSince.atomic {n : Nat} (hv : v.NewSince n) (op : Operator) (arg : Option Value) :
    (op.apply v arg).Atomic fun b _ => n ≤ b := by
  refine (Operator.atomic_apply arg).mono fun b i ht => ?_
  obtain ⟨-, ht⟩ := ht
  cases hty : v.ty with
  | arith | pointer | functionPointer =>
    rw [hty] at ht
    obtain ⟨role, hp⟩ := ht
    exact hv.place _ hp
  | struct name members =>
    rw [hty] at ht
    exact hv.store name members b hty ht.2
  | _ =>
    rw [hty] at ht
    exact ht.elim

end Copying

section Binding

variable {c : Config} {l : EachLoop} {s t : State} {p : Place} {r : Round} {element : Value}
  {name : String} {d : Declared}

/-- What the loop variable is declared as for an element. -/
def EachLoop.declared (l : EachLoop) (element : Value) : ReadM Declared := do
  let base ← if l.spec.isAuto then pure element.ty else ReadM.baseType l.spec
  ReadM.declarator base l.spec.isConst l.d

/-- The name stands for the cell in the innermost scope. -/
def State.HasName (s : State) (name : String) (p : Place) : Prop :=
  s.scopes.current.get? name = some p

namespace State.HasName

theorem lookup (h : s.HasName name p) : s.lookup name = some p := by
  rw [State.lookup, Scopes.lookup_of_current h]
  rfl

theorem value? (h : s.HasName name p) : s.value? name = s.load? p := by
  rw [State.value?, h.lookup, Option.bind_some]

theorem declare {a : Unit} (h : declare name p c s = .ok a t) : t.HasName name p := by
  obtain ⟨scopes, hd, rfl⟩ := declare_eq_ok h
  exact Scopes.get?_current_define? hd

/-- A statement takes no name away from the scope in which it is executed. -/
theorem visitStmt {st : Stmt} {inSwitch : Bool} {flow : Flow} (h : s.HasName name p)
    (hx : (visitStmt st inSwitch .nil).Completes c s flow t) : t.HasName name p := by
  have ha : Surroundings.Admits {} s := .of_outer rfl
  have hfollows := Surroundings.follows_visitStmt (b := ⟨s, st.isDeclaration⟩) st inSwitch ha rfl
    (.nil (.refl _))
  exact (hx.allows hfollows).toGains.get?_current h

end State.HasName

theorem bindElement_eq (element : Value) : bindElement l.spec l.d element =
    ask (l.declared element) >>= fun d => nameOf d "loop variable" >>= fun name =>
      if d.reference then bindReference name d element
      else operate (OperatorM.copy element d.type) >>= fun w =>
        defineVariable name (w.withReadonly d.readonly) := by
  funext c s
  unfold bindElement EachLoop.declared
  rw [ask_bind]
  by_cases ha : l.spec.isAuto = true
  · simp only [if_pos ha, pure_bind, ask_bind]
  · simp only [if_neg ha, ask_bind]
    cases hb : ReadM.baseType l.spec (c, s) with
    | error fault => simp [Bind.bind, ReaderT.bind, Except.bind, hb]
    | ok base => simp [Bind.bind, ReaderT.bind, Except.bind, hb]

namespace Round

/-- The variable is an alias of the element. When the body ends, the cell of the element holds what
the variable shows. -/
structure Aliases (r : Round) (name : String) : Prop where
  element : r.begun.value? name = some r.element
  begun : r.begun.lookup name = some r.place
  ended : r.ended.lookup name = some r.place
  after : r.ended.left.load? r.place = r.ended.value? name

/-- The variable is in a cell of its own, which holds the element as a value of the type. Operators that
are applied to the variable change nothing that was there before the round. -/
structure Copies (c : Config) (r : Round) (name : String) (ty : Ty) (w : Value) : Prop where
  copied : ∃ x readonly p t, operate (OperatorM.copy r.element ty) c r.start.inRound = .ok x t ∧
    w = (x.withReadonly readonly).placed p
  element : r.begun.value? name = some w
  begun : r.begun.lookup name = w.place
  ended : r.ended.lookup name = w.place
  spares : ∀ v : Value, v.InCellOf w → ∀ (op : Operator) arg,
    (op.apply v arg).Atomic fun b _ => r.start.heap.blocks.size ≤ b

/-- The variable is bound to the element: a reference to an element of its own shape is an alias, and any
other variable is a copy. -/
def Binds (c : Config) (l : EachLoop) (r : Round) : Prop :=
  ∃ d name, l.declared r.element (c, r.start.inRound) = .ok d ∧ d.name = some name ∧
    if d.reference = true ∧ r.element.ty.sameShape d.type = true then r.Aliases name
    else ∃ w, r.Copies c name d.type w

variable {ty : Ty} {x w : Value} {readonly : Bool}

theorem NewSince.inCellOf {n : Nat} {v : Value} (hw : w.NewSince n) (hv : v.InCellOf w) :
    v.NewSince n where
  place p hp := hw.place p (hv.place.symm.trans hp)
  store name members store hty hd := by
    have hnamed : w.ty.named = .struct name [] := by rw [← hv.type, hty, Ty.named]
    obtain ⟨members', hty'⟩ := OperatorM.named_eq_struct hnamed
    have hstore : w.structStore? = some store := by
      rw [← hv.store, Value.structStore?, hd]
    refine hw.store name members' store hty' ?_
    unfold Value.structStore? at hstore
    split at hstore
    · cases hstore
      assumption
    · cases hstore

theorem place_of_load? {v : Value} (hv : s.load? p = some v) : v.place = some p := by
  obtain ⟨cell, -, rfl⟩ := Option.map_eq_some_iff.mp hv
  rfl

theorem Runs.lt_size (hr : r.Runs c l) : r.place.block < r.start.heap.blocks.size := by
  refine Heap.lt_size_of_index (i := r.place.index) ?_
  rw [← State.isSome_load?, hr.load]
  rfl

theorem Runs.aliases (hr : r.Runs c l)
    (h : declare name r.place c r.start.inRound = .ok () r.begun) : r.Aliases name := by
  have hbinds := State.HasName.declare h
  have hended := hbinds.visitStmt hr.body
  obtain ⟨scopes, -, hbegun⟩ := declare_eq_ok h
  refine ⟨?_, hbinds.lookup, hended.lookup, hended.value?.symm⟩
  rw [hbinds.value?, hbegun]
  exact hr.load

theorem Runs.copies (hr : r.Runs c l)
    (hx : operate (OperatorM.copy r.element ty) c r.start.inRound = .ok x t)
    (h : defineVariable name (x.withReadonly readonly) c t = .ok () r.begun) :
    ∃ w, r.Copies c name ty w := by
  obtain ⟨heap, hcopy, rfl⟩ := operate_eq_ok hx
  obtain ⟨hsize, hstore⟩ := OperatorM.new_of_copy hcopy
  obtain ⟨-, hvalue⟩ := value?_of_defineVariable h
  obtain ⟨p, u, hp, hdeclare⟩ := bind_eq_ok h
  cases hp
  have hbinds := State.HasName.declare hdeclare
  have hnew : ((x.withReadonly readonly).placed (.slot heap.blocks.size)).NewSince
      r.start.heap.blocks.size := by
    refine ⟨fun p hp => ?_, hstore⟩
    cases hp
    exact hsize
  exact ⟨_, ⟨x, readonly, _, _, hx, rfl⟩, hvalue, hbinds.lookup, (hbinds.visitStmt hr.body).lookup,
    fun v hv op arg => (NewSince.inCellOf hnew hv).atomic op arg⟩

theorem Runs.isBound (hr : r.Runs c l) : r.Binds c l := by
  have hbinds := hr.binds
  rw [bindElement_eq] at hbinds
  obtain ⟨d, u, hask, hbinds⟩ := bind_eq_ok hbinds
  obtain ⟨hd, rfl⟩ := ask_eq_ok hask
  obtain ⟨name, u, hnamed, hbinds⟩ := bind_eq_ok hbinds
  obtain ⟨hname, rfl⟩ := nameOf_eq_ok hnamed
  refine ⟨d, name, hd, hname, ?_⟩
  cases href : d.reference with
  | false =>
    rw [if_neg fun h => Bool.false_ne_true h.1]
    rw [href] at hbinds
    obtain ⟨x, u, hx, hdefine⟩ := bind_eq_ok hbinds
    exact hr.copies hx hdefine
  | true =>
    rw [href, if_pos rfl] at hbinds
    unfold bindReference at hbinds
    rw [place_of_load? hr.load] at hbinds
    cases hshape : r.element.ty.sameShape d.type with
    | true =>
      rw [if_pos ⟨rfl, rfl⟩]
      rw [hshape] at hbinds
      exact hr.aliases hbinds
    | false =>
      rw [if_neg fun h => Bool.false_ne_true h.2]
      rw [hshape] at hbinds
      cases hreadonly : d.readonly with
      | true =>
        rw [hreadonly] at hbinds
        obtain ⟨x, u, hx, hdefine⟩ := bind_eq_ok hbinds
        exact hr.copies hx hdefine
      | false =>
        rw [hreadonly] at hbinds
        cases hbinds

end Round

end Binding

section Arrays

variable {c : Config} {l : EachLoop} {s t u : State} {places rest : List Place} {rounds : List Round}

/-- Rounds follow one another until the loop stops. -/
theorem EachLoop.GoesOn.exists_rounds (hl : l.GoesOn c s) (hs : s.HasCells l.places)
    (h : Rounds c l l.places s rounds rest t) :
    ∃ rounds rest t, Rounds c l l.places s rounds rest t ∧ Stops c l rest t .normal t := by
  induction rest generalizing rounds t with
  | nil => exact ⟨rounds, [], t, h, .finished t⟩
  | cons p rest ih =>
    have hp : (t.load? p).isSome := by
      refine State.HasCells.keeps hs h.keeps p ?_
      rw [← h.places_eq]
      exact List.mem_append_right _ List.mem_cons_self
    obtain ⟨element, hload⟩ := Option.isSome_iff_exists.mp hp
    cases hz : l.endsAt element with
    | true => exact ⟨rounds, _, t, h, .zero hload hz⟩
    | false =>
      obtain ⟨u, hbegins⟩ := hl.binds _ _ _ _ _ h hload hz
      obtain ⟨flow, v, hbody⟩ := hl.ends _ _ _ _ _ _ h hbegins
      have hflow := hl.stays _ _ _ _ _ _ h hbegins _ _ hbody
      exact ih (h.snoc (r := ⟨p, element, t, u, flow, v⟩) ⟨hbegins, hbody⟩ hflow)

/-- While bodies do not leave the loop, it stops when no places are left or its text has ended. -/
theorem EachLoop.GoesOn.stops (hl : l.GoesOn c s) {flow : Flow}
    (h : Rounds c l l.places s rounds rest t) (hstop : Stops c l rest t flow u) :
    flow = .normal ∧ t = u ∧ (rest = [] ∨ ∃ p places element, rest = p :: places ∧
      t.load? p = some element ∧ l.endsAt element = true) := by
  have hleaves {r : Round} {rest : List Place} (hr : r.Runs c l) (hf : r.flow.leavesLoop = true)
      (h : Rounds c l l.places s rounds (r.place :: rest) r.start) : False := by
    have hstays := hl.stays _ _ _ _ _ _ h hr.toBegins _ _ hr.body
    rw [hstays] at hf
    cases hf
  cases hstop with
  | finished => exact ⟨rfl, rfl, .inl rfl⟩
  | zero hload hz => exact ⟨rfl, rfl, .inr ⟨_, _, _, rfl, hload, hz⟩⟩
  | breaks hr hf => exact (hleaves hr (by rw [hf]; rfl) h).elim
  | returns hr hf => exact (hleaves hr (by rw [hf]; rfl) h).elim

section Loops

variable {spec : TypeSpec} {d : Declarator} {range : Expr} {body : Stmt} {inSwitch : Bool} {v : Value}
  {store : BlockId} {position : Int} {flow : Flow}

namespace RunM

theorem completes_eachBegin_iff (hty : v.ty.isPointer = true) (hv : v.array? = some (store, position))
    (hl : l = .ofArray spec d body inSwitch v.ty store position (s.heap.cells store).size) :
    (eachBegin spec d range body inSwitch v).Completes c s flow t ↔
      (eachNext (l.along l.places)).Completes c s flow t := by
  subst hl
  refine completes_congr ?_
  have helement : eachBegin spec d range body inSwitch v = eachElement spec d range body inSwitch v := by
    unfold eachBegin
    cases h : v.ty <;> first | rfl | (rw [h] at hty; cases hty)
  rw [helement, eachElement, hv]
  rfl

theorem hasCells_ofArray :
    s.HasCells (EachLoop.ofArray spec d body inSwitch v.ty store position
      (s.heap.cells store).size).places := by
  intro p hp
  obtain ⟨i, hi, rfl⟩ := List.mem_map.mp hp
  rw [List.mem_range'_1] at hi
  rw [State.isSome_load?]
  change i < (s.heap.cells store).size
  omega

/-- A loop over an array goes over its elements once, in their order, if its body does not leave it and
its variable can be bound to every element that it comes to. A text ends before the first element
that is zero when it is reached. A reference to elements of its own shape is an alias of each of them in
turn, so that the element is afterwards what the variable was when the body ended. Any other variable
has a cell of its own, and no operator that is applied to it changes what was there before. -/
theorem range_for_visits (span : Span)
    (hrange : (visit range none .nil).Completes c s.inLoop v u)
    (hty : v.ty.isPointer = true) (hv : v.array? = some (store, position))
    (hl : l = .ofArray spec d body inSwitch v.ty store position (u.heap.cells store).size)
    (hbody : l.GoesOn c u) :
    (∃ t, (execute (.forEach span spec d range body) inSwitch).Completes c s .normal t) ∧
    ∀ flow t, (eachBegin spec d range body inSwitch v).Completes c u flow t →
      flow = .normal ∧ ∃ rounds rest w, Rounds c l l.places u rounds rest w ∧ t = w.left ∧
        rounds.length + rest.length = (u.heap.cells store).size - position.toNat ∧
        (rest = [] ∨ ∃ p places element, rest = p :: places ∧ w.load? p = some element ∧
          l.text = true ∧ element.int? = some 0) ∧
        ∀ (k : Nat) (r : Round), rounds[k]? = some r → r.place = .element store (position.toNat + k) ∧
          r.start.load? r.place = some r.element ∧ r.place.block < r.start.heap.blocks.size ∧
          r.Binds c l := by
  have hcells : u.HasCells l.places := by
    rw [hl]
    exact hasCells_ofArray
  constructor
  · obtain ⟨rounds, rest, w, hrounds, hstop⟩ := hbody.exists_rounds hcells (.nil _ _)
    refine ⟨w.left, completes_visit_iff (s := s.inLoop).mpr ⟨v, u, hrange, ?_⟩⟩
    refine (completes_eachBegin_iff hty hv hl).mpr ?_
    exact (completes_eachNext_iff hcells).mpr ⟨rounds, rest, w, w, hrounds, hstop, rfl⟩
  · intro flow t h
    obtain ⟨rounds, rest, w, x, hrounds, hstop, rfl⟩ :=
      (completes_eachNext_iff hcells).mp ((completes_eachBegin_iff hty hv hl).mp h)
    obtain ⟨rfl, rfl, hrest⟩ := hbody.stops hrounds hstop
    have hplaces := hrounds.places_eq
    refine ⟨rfl, rounds, rest, w, hrounds, rfl, ?_, ?_, fun k r hk => ?_⟩
    · have hlength := congrArg List.length hplaces
      rw [List.length_append, List.length_map] at hlength
      rw [hlength, hl]
      simp [EachLoop.ofArray]
    · refine hrest.imp_right ?_
      rintro ⟨p, places, element, rfl, hload, hz⟩
      rw [EachLoop.endsAt, Bool.and_eq_true, beq_iff_eq] at hz
      exact ⟨p, places, element, rfl, hload, hz⟩
    · have hr := hrounds.runs r (List.mem_of_getElem? hk)
      refine ⟨?_, hr.load, hr.lt_size, hr.isBound⟩
      have hplace : (rounds.map Round.place ++ rest)[k]? = some r.place := by
        rw [List.getElem?_append_left, List.getElem?_map, hk, Option.map_some]
        rw [List.length_map]
        exact (List.getElem?_eq_some_iff.mp hk).1
      rw [hplaces, hl] at hplace
      simp only [EachLoop.ofArray, List.getElem?_map, Option.map_eq_some_iff] at hplace
      obtain ⟨i, hi, hplace⟩ := hplace
      rw [← hplace]
      obtain ⟨hk', hi⟩ := List.getElem?_eq_some_iff.mp hi
      rw [List.getElem_range', Nat.one_mul] at hi
      rw [hi]

/-- `for (auto &x : …) continue;` -/
def aliasLoop (places : List Place) : EachLoop where
  spec := ⟨[], ["auto"], default⟩
  d := .mk default [] true (.named "x") []
  body := .continueJump default
  inSwitch := false
  places := places
  text := false

/-- A reference of a type that is deduced is an alias of any element. -/
theorem goesOn_aliasLoop (c : Config) (s : State) (places : List Place) :
    (aliasLoop places).GoesOn c s where
  binds _ p _ t element _ hload hz := by
    have hbind : bindElement (aliasLoop places).spec (aliasLoop places).d element c t.inRound =
        bindReference "x" ⟨some "x", element.ty, false, true, false, []⟩ element c t.inRound := by
      rw [bindElement_eq, ask_bind]
      rfl
    have hreference : bindReference "x" ⟨some "x", element.ty, false, true, false, []⟩ element =
        declare "x" p := by
      unfold bindReference
      rw [Round.place_of_load? hload, Ty.sameShape_refl]
    have hdeclare : ∃ u, declare "x" p c t.inRound = .ok () u := ⟨_, rfl⟩
    obtain ⟨u, hu⟩ := hdeclare
    exact ⟨u, hload, hz, (hbind.trans (by rw [hreference])).trans hu⟩
  ends _ _ _ _ _ u _ _ := ⟨.continues, _, [id], rfl⟩
  stays _ _ _ _ _ _ _ _ flow _ h := by
    obtain ⟨s', u, -, hx, -⟩ := completes_execute h
    obtain ⟨rfl, -⟩ := completes_done hx
    rfl

/-- `int a[2];` -/
def stateOfTwo : State where
  heap := ⟨#[#[.ofArray (.array .int 2) 1], #[.int .int 1, .int .int 2]]⟩
  scopes := { global := { name := "global", frame := true, entries := [("a", .slot 0)] } }

theorem range_for_visits_two :
    let body : Stmt := .continueJump default
    let spec : TypeSpec := ⟨[], ["auto"], default⟩
    let d : Declarator := .mk default [] true (.named "x") []
    let a : Expr := .identifier default "a"
    (∃ t, (execute (.forEach default spec d a body) false).Completes {} stateOfTwo .normal t) ∧
    ∃ v u, (visit a none .nil).Completes {} stateOfTwo.inLoop v u ∧
      ∀ flow t, (eachBegin spec d a body false v).Completes {} u flow t → flow = .normal ∧
        ∃ (rounds : List Round) (w : State), rounds.length = 2 ∧ t = w.left := by
  intro body spec d a
  obtain ⟨v, u, hrange, hty, hv, hsize⟩ :
      ∃ v u, (visit a none .nil).Completes {} stateOfTwo.inLoop v u ∧ v.ty = .array .int 2 ∧
        v.array? = some (1, 0) ∧ (u.heap.cells 1).size = 2 := ⟨_, _, ⟨[id], rfl⟩, rfl, rfl, rfl⟩
  have hl : aliasLoop [.element 1 0, .element 1 1] =
      .ofArray spec d body false v.ty 1 0 (u.heap.cells 1).size := by
    rw [hty, hsize]
    rfl
  obtain ⟨hends, hvisits⟩ := range_for_visits default hrange (by rw [hty]; rfl) hv hl
    (goesOn_aliasLoop {} u _)
  refine ⟨hends, v, u, hrange, fun flow t h => ?_⟩
  obtain ⟨hflow, rounds, rest, w, -, ht, hlength, hrest, -⟩ := hvisits flow t h
  refine ⟨hflow, rounds, w, ?_, ht⟩
  rw [hsize] at hlength
  rcases hrest with rfl | ⟨-, -, -, -, -, htext, -⟩
  · exact hlength
  · cases htext

end RunM

end Loops

end Arrays

/-- A loop faults without a fault of its body if an element is no value of the type of the variable, and
a constant reference of another type is a copy, which shows nothing of what is written to the element. -/
theorem range_for_misses :
    let number (n : Nat) : Expr := .literal default (.int n 10 false false)
    let name (x : String) : Expr := .identifier default x
    let named (x : String) : Declarator := .mk default [] false (.named x) []
    let declare (d : Declarator) (init : Initializer) : Stmt :=
      .declaration default ⟨⟨[], ["int"], default⟩, [⟨d, some init⟩]⟩
    let array (x y : Nat) : Stmt := declare (.mk default [] false (.named "a") [.array none])
      (.list default [.expr (number x), .expr (number y)])
    let assign (target value : Expr) : Stmt :=
      .expression default (some (.assign default none target value))
    let add (e : Expr) : Stmt := assign (name "n") (.binary default .add (name "n") e)
    let run (x y : Nat) (spec : TypeSpec) (d : Declarator) (body : List Stmt) : Run :=
      (Run.ofProgram {} (.ofMain [] [array x y, declare (named "n") (.expr (number 0)),
        .forEach default spec d (name "a") (.compound default body),
        .returnJump default (some (name "n"))]) {} {}).steps 50
    let first : Expr := .index default (name "a") (number 0)
    let reference (x : String) : Declarator := .mk default [] true (.named x) []
    let refused := run 1 300 ⟨[], ["char"], default⟩ (named "c") [add (number 1)]
    let copied := run 1 2 ⟨["const"], ["long"], default⟩ (reference "r")
      [assign first (number 5), add (name "r")]
    let aliased := run 1 2 ⟨["const"], ["int"], default⟩ (reference "r")
      [assign first (number 5), add (name "r")]
    refused.isFinished = true ∧ refused.exitStatus? = none ∧ copied.exitStatus? = some 3 ∧
      aliased.exitStatus? = some 7 := by
  decide +kernel

end Stepwise
