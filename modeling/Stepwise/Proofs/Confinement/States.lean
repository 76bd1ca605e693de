import Stepwise.Proofs.Closure.Computations
import Stepwise.Proofs.Confinement.Operators

/-! # Computations pass hidden blocks by

Names stand for cells, so blocks are hidden from a state if neither its heap nor its names lead to
them. A computation passes them by if they are hidden from the state that it leaves, too, and their
cells stay as they are. Computations that follow one another pass by what each of them does.
-/

namespace Stepwise

section Names

variable {α : Type} {P Q : α → Prop}

/-- What names stand for in the scopes is as `P` says. -/
def Scopes.All (P : α → Prop) (s : Scopes α) : Prop :=
  ∀ scope ∈ s.global :: s.inner, ∀ e ∈ scope.entries, P e.2

/-- What names stand for in the namespaces is as `P` says. -/
def Namespaces.All (P : α → Prop) (n : Namespaces α) : Prop :=
  ∀ table ∈ n.tables, ∀ e ∈ table.2, P e.2

theorem mem_of_lookup {entries : List (String × α)} {name : String} {a : α}
    (h : entries.lookup name = some a) : (name, a) ∈ entries := by
  obtain ⟨before, after, hl, -⟩ := List.lookup_eq_some_iff.mp h
  rw [hl]
  exact List.mem_append_right _ List.mem_cons_self

namespace Scopes.All

variable {s t : Scopes α} {name : String} {a : α}

theorem mono (hs : s.All P) (hpq : ∀ a, P a → Q a) : s.All Q :=
  fun scope hm e he => hpq _ (hs scope hm e he)

/-- Fewer scopes, and such without names. -/
theorem of_subset (hs : s.All P) (hg : t.global = s.global)
    (hi : ∀ scope ∈ t.inner, scope ∈ s.inner ∨ scope.entries = []) : t.All P := by
  intro scope hm e he
  rcases List.mem_cons.mp hm with rfl | hm
  · exact hs _ (hg ▸ List.mem_cons_self) e he
  · rcases hi scope hm with hi | hempty
    · exact hs scope (List.mem_cons_of_mem _ hi) e he
    · rw [hempty] at he
      cases he

theorem opened (hs : s.All P) (name : String) (frame : Bool) :
    Scopes.All P { s with inner := ⟨name, frame, []⟩ :: s.inner } := by
  refine hs.of_subset rfl fun scope hm => ?_
  rcases List.mem_cons.mp hm with rfl | hm
  · exact .inr rfl
  · exact .inl hm

theorem pop (hs : s.All P) : s.pop.All P :=
  hs.of_subset rfl fun _ hm => .inl (List.mem_of_mem_tail hm)

theorem truncate (hs : s.All P) (depth : Nat) : (s.truncate depth).All P :=
  hs.of_subset rfl fun _ hm => .inl (List.mem_of_mem_drop hm)

theorem entries_add {scope : Scope α} (hs : ∀ e ∈ scope.entries, P e.2) (ha : P a) :
    ∀ e ∈ (scope.add name a).entries, P e.2 := by
  intro e he
  rcases List.mem_append.mp he with he | he
  · exact hs e he
  · obtain rfl := List.mem_singleton.mp he
    exact ha

theorem define? (hs : s.All P) (ha : P a) (h : s.define? name a = some t) : t.All P := by
  unfold Scopes.define? at h
  split at h
  · cases h
  · obtain ⟨hglobal, hinner⟩ := List.forall_mem_cons.mp hs
    split at h
    · cases h
      exact List.forall_mem_cons.mpr ⟨entries_add hglobal ha, hinner⟩
    · rename_i hs
      cases h
      rw [hs] at hinner
      obtain ⟨hfirst, hrest⟩ := List.forall_mem_cons.mp hinner
      exact List.forall_mem_cons.mpr
        ⟨hglobal, List.forall_mem_cons.mpr ⟨entries_add hfirst ha, hrest⟩⟩

theorem defineGlobal (hs : s.All P) (ha : P a) : (s.defineGlobal name a).All P := by
  unfold Scopes.defineGlobal
  split
  · exact hs
  · obtain ⟨hglobal, hinner⟩ := List.forall_mem_cons.mp hs
    exact List.forall_mem_cons.mpr ⟨entries_add hglobal ha, hinner⟩

theorem get? (hs : s.All P) {scope : Scope α} (hm : scope ∈ s.global :: s.inner)
    (h : scope.get? name = some a) : P a := hs scope hm _ (mem_of_lookup h)

theorem frameScopes_subset (scopes : List (Scope α)) : frameScopes scopes ⊆ scopes := by
  induction scopes with
  | nil => exact List.Subset.refl _
  | cons scope rest ih =>
    unfold frameScopes
    split
    · exact List.cons_subset_cons _ (List.nil_subset _)
    · exact List.cons_subset_cons _ ih

theorem lookup (hs : s.All P) (h : s.lookup name = some a) : P a := by
  obtain ⟨scope, hm, hget⟩ := List.exists_of_findSome?_eq_some h
  refine hs.get? ?_ hget
  rcases List.mem_append.mp hm with hm | hm
  · exact List.mem_cons_of_mem _ (frameScopes_subset _ hm)
  · obtain rfl := List.mem_singleton.mp hm
    exact List.mem_cons_self

end Scopes.All

namespace Namespaces.All

variable {n : Namespaces α} {name : String} {a : α}

theorem mono (hn : n.All P) (hpq : ∀ a, P a → Q a) : n.All Q :=
  fun table hm e he => hpq _ (hn table hm e he)

theorem bind (hn : n.All P) (ha : P a) (space : String) : (n.bind space name a).All P := by
  refine List.forall_mem_cons.mpr ⟨List.forall_mem_cons.mpr ⟨ha, fun e he => ?_⟩, hn⟩
  cases hl : n.tables.lookup space with
  | none =>
    rw [hl] at he
    cases he
  | some bindings =>
    rw [hl] at he
    exact hn _ (mem_of_lookup hl) e he

theorem lookupIn (hn : n.All P) {space : String} (h : n.lookupIn space name = some a) : P a := by
  obtain ⟨bindings, hspace, hname⟩ := Option.bind_eq_some_iff.mp h
  exact hn _ (mem_of_lookup hspace) _ (mem_of_lookup hname)

theorem lookup (hn : n.All P) {path : List String} (h : n.lookup path = some a) : P a := by
  obtain ⟨name, -, hname⟩ := Option.bind_eq_some_iff.mp h
  exact hn.lookupIn hname

theorem lookupImported (hn : n.All P) (h : n.lookupImported name = some a) : P a := by
  obtain ⟨space, -, hspace⟩ := List.exists_of_findSome?_eq_some h
  exact hn.lookupIn hspace

end Namespaces.All

end Names

namespace State

variable {H : Set BlockId} {s t u : State}

/-- The blocks of the heap that are not hidden. -/
abbrev reach (s : State) (H : Set BlockId) : Set BlockId := s.heap.reach H

/-- No name leads out of the set. -/
structure Names (s : State) (R : Set BlockId) : Prop where
  scopes : s.scopes.All fun p => p.block ∈ R
  namespaces : s.namespaces.All fun p => p.block ∈ R

/-- Blocks are hidden from the state, whose heap is otherwise in order. -/
structure Hides (H : Set BlockId) (s : State) : Prop where
  heap : s.heap.Hides H
  names : s.Names (s.reach H)

/-- The second state comes of the first one, and the hidden blocks are passed by. -/
structure PassesBy (H : Set BlockId) (s t : State) : Prop where
  heap : s.heap.PassesBy H t.heap
  names : t.Names (t.reach H)

/-- Neither the heap nor the names differ. -/
structure Beside (s t : State) : Prop where
  heap : t.heap = s.heap
  scopes : t.scopes = s.scopes
  namespaces : t.namespaces = s.namespaces

theorem Names.mono {R S : Set BlockId} (hn : s.Names R) (hs : R ⊆ S) : s.Names S :=
  ⟨hn.scopes.mono fun _ hp => hs hp, hn.namespaces.mono fun _ hp => hs hp⟩

theorem Beside.refl (s : State) : s.Beside s := ⟨rfl, rfl, rfl⟩

theorem Beside.trans (hs : s.Beside t) (ht : t.Beside u) : s.Beside u :=
  ⟨ht.heap.trans hs.heap, ht.scopes.trans hs.scopes, ht.namespaces.trans hs.namespaces⟩

theorem Hides.beside (hs : s.Hides H) (hb : s.Beside t) : t.Hides H := by
  obtain ⟨hheap, hscopes, hnamespaces⟩ := hb
  refine ⟨hheap ▸ hs.heap, ?_, ?_⟩
  · rw [hscopes, reach, hheap]
    exact hs.names.scopes
  · rw [hnamespaces, reach, hheap]
    exact hs.names.namespaces

/-- A name that leads to no hidden block. -/
theorem Hides.lookup (hs : s.Hides H) {name : String} {p : Place} (h : s.lookup name = some p) :
    p.block ∈ s.reach H := by
  unfold State.lookup at h
  cases hl : s.scopes.lookup name with
  | some q =>
    rw [hl] at h
    cases h
    exact hs.names.scopes.lookup hl
  | none =>
    rw [hl] at h
    exact hs.names.namespaces.lookupImported h

theorem Hides.load? (hs : s.Hides H) {p : Place} {v : Value} (hp : p.block ∈ s.reach H)
    (hv : s.load? p = some v) : v.Within (s.reach H) := hs.heap.load? hp hv

namespace PassesBy

theorem hides (hp : s.PassesBy H t) : t.Hides H := ⟨hp.heap.hides, hp.names⟩

theorem reach (hp : s.PassesBy H t) : s.reach H ⊆ t.reach H := hp.heap.reach

theorem beside (hs : s.Hides H) (hb : s.Beside t) : s.PassesBy H t := by
  refine ⟨?_, (hs.beside hb).names⟩
  rw [hb.heap]
  exact .refl hs.heap

theorem refl (hs : s.Hides H) : s.PassesBy H s := .beside hs (.refl s)

theorem trans (hp : s.PassesBy H t) (hp' : t.PassesBy H u) : s.PassesBy H u :=
  ⟨hp.heap.trans hp'.heap, hp'.names⟩

/-- A change of the heap. -/
theorem onHeap (hs : s.Hides H) {heap : Heap} (hp : s.heap.PassesBy H heap) :
    s.PassesBy H { s with heap } :=
  ⟨hp, hs.names.scopes.mono fun _ hb => hp.reach hb, hs.names.namespaces.mono fun _ hb => hp.reach hb⟩

/-- A change of the names. -/
theorem onScopes (hs : s.Hides H) {scopes : Scopes Place}
    (hn : scopes.All fun p => p.block ∈ s.reach H) : s.PassesBy H { s with scopes } :=
  ⟨.refl hs.heap, hn, hs.names.namespaces⟩

theorem onNamespaces (hs : s.Hides H) {namespaces : Namespaces Place}
    (hn : namespaces.All fun p => p.block ∈ s.reach H) : s.PassesBy H { s with namespaces } :=
  ⟨.refl hs.heap, hs.names.scopes, hn⟩

end PassesBy

end State

namespace RunM

variable {α β : Type} {H : Set BlockId} {s : State} {j k : Completion}

/-- The computation leaves heap and names as they are. -/
def Beside (x : RunM α) (post : α → Prop) : Prop := ∀ c s a t, x c s = .ok a t →
  s.Beside t ∧ post a

/-- The computation passes hidden blocks by. Its result is as `post` says, which may speak of the
blocks in reach afterwards. -/
def PassesBy (H : Set BlockId) (s : State) (x : RunM α) (post : Set BlockId → α → Prop) : Prop :=
  ∀ c a t, x c s = .ok a t → s.PassesBy H t ∧ post (t.reach H) a

theorem sequential_beside : Sequential fun _ x post => Beside x post where
  pure ha := by
    rintro c s a t ⟨⟩
    exact ⟨.refl s, ha⟩
  bind hx hf := by
    intro c s b u h
    obtain ⟨a, t, ha, hb⟩ := bind_eq_ok h
    obtain ⟨hs, ha⟩ := hx c s a t ha
    exact (hf a ha c t b u hb).imp_left hs.trans
  raise _ _ := fun _ _ _ _ h => nomatch h
  read_bind hf := fun c s => hf c c s
  get_bind _ hf := fun c s => hf s c s
  ask _ := by
    intro c s a t h
    unfold RunM.ask at h
    split at h
    · cases h
      exact ⟨.refl s, trivial⟩
    · cases h

theorem Beside.fail {post : α → Prop} (cause : FaultCause) : (fail cause : RunM α).Beside post :=
  fun _ _ _ _ h => nomatch h

/-- A change that is not one of heap or names. -/
theorem Beside.modify {f : State → State} (hf : ∀ s : State, s.Beside (f s)) :
    Beside (modify f : RunM Unit) fun _ => True := by
  rintro c s a t ⟨⟩
  exact ⟨hf s, trivial⟩

theorem Beside.modifyGet {f : State → α × State} (hf : ∀ s : State, s.Beside (f s).2) :
    Beside (modifyGet f : RunM α) fun _ => True := by
  rintro c s a t ⟨⟩
  exact ⟨hf s, trivial⟩

namespace PassesBy

variable {x y : RunM α} {f : α → RunM β} {post : Set BlockId → α → Prop}
  {post' : Set BlockId → β → Prop}

theorem fail (cause : FaultCause) : (fail cause : RunM α).PassesBy H s post :=
  fun _ _ _ h => nomatch h

theorem fail_bind (cause : FaultCause) : (RunM.fail cause >>= f).PassesBy H s post' :=
  fun _ _ _ h => nomatch h

/-- A fault that tells of a value. -/
theorem fail_text (v : Value) (cause : String → FaultCause) :
    (do RunM.fail (cause (← text v)) : RunM α).PassesBy H s post := fun _ _ _ h => nomatch h

theorem ite {p : Prop} [Decidable p] (hx : x.PassesBy H s post) (hy : y.PassesBy H s post) :
    (if p then x else y).PassesBy H s post := by
  split
  · exact hx
  · exact hy

/-- A check that may end the computation. -/
theorem check {p : Prop} [Decidable p] {cause : FaultCause} {f : PUnit → RunM β}
    (hf : ¬p → (f ⟨⟩).PassesBy H s post') :
    (if p then RunM.fail cause >>= f else f ⟨⟩).PassesBy H s post' := by
  split
  · exact fail_bind cause
  · exact hf ‹_›

theorem bind (hx : x.PassesBy H s post)
    (hf : ∀ a t, s.PassesBy H t → post (t.reach H) a → (f a).PassesBy H t post') :
    (x >>= f).PassesBy H s post' := by
  intro c b u h
  obtain ⟨a, t, ha, hb⟩ := bind_eq_ok h
  obtain ⟨hp, ha⟩ := hx c a t ha
  obtain ⟨hp', hb⟩ := hf a t hp ha c b u hb
  exact ⟨hp.trans hp', hb⟩

/-- A fault is passed on after some more work. -/
theorem rescue {f : Except Fault α → RunM β} {y : RunM Unit} (hx : x.PassesBy H s post)
    (hf : ∀ a t, s.PassesBy H t → post (t.reach H) a → (f (.ok a)).PassesBy H t post')
    (hr : ∀ fault, f (.error fault) = do y; throw fault) :
    (outcome x >>= f).PassesBy H s post' := by
  intro c b u h
  obtain ⟨result, t, ht, h⟩ := bind_eq_ok h
  unfold outcome at ht
  cases ha : x c s with
  | error fault v =>
    rw [ha] at ht
    cases ht
    rw [hr] at h
    obtain ⟨_, w, -, h⟩ := bind_eq_ok h
    cases h
  | ok a v =>
    rw [ha] at ht
    cases ht
    obtain ⟨hp, hpost⟩ := hx c a t ha
    exact (hf a t hp hpost c b u h).imp_left hp.trans

theorem discard (hx : x.PassesBy H s post) :
    (Functor.discard x).PassesBy H s fun _ _ => True := by
  intro c a t h
  change ((fun _ => PUnit.unit) <$> x) c s = .ok a t at h
  rw [← bind_pure_comp] at h
  obtain ⟨b, u, hb, h⟩ := bind_eq_ok h
  cases h
  exact ⟨(hx c b _ hb).1, trivial⟩

theorem read_bind {f : Config → RunM β} (hf : ∀ c, (f c).PassesBy H s post') :
    (read >>= f).PassesBy H s post' := fun c => hf c c

theorem get_bind {f : State → RunM β} (hf : (f s).PassesBy H s post') :
    (get >>= f).PassesBy H s post' := fun c => hf c

theorem inspect_bind {g : State → α} (hf : (f (g s)).PassesBy H s post') :
    (inspect g >>= f).PassesBy H s post' := fun c => hf c

theorem ask_bind {x : ReadM α} (hf : ∀ a, (f a).PassesBy H s post') :
    (ask x >>= f).PassesBy H s post' := by
  intro c b t h
  obtain ⟨a, u, ha, hb⟩ := bind_eq_ok h
  unfold RunM.ask at ha
  split at ha
  · cases ha
    exact hf a c b t hb
  · cases ha

theorem nameOf_bind {d : Declared} {what : String} {f : String → RunM β}
    (hf : ∀ name, (f name).PassesBy H s post') : (nameOf d what >>= f).PassesBy H s post' := by
  unfold RunM.nameOf
  split
  · exact hf _
  · exact fail_bind _

end PassesBy

section Hides

variable (hs : s.Hides H)

include hs

theorem PassesBy.pure {a : α} {post : Set BlockId → α → Prop} (ha : post (s.reach H) a) :
    (pure a : RunM α).PassesBy H s post := by
  rintro c a' t ⟨⟩
  exact ⟨.refl hs, ha⟩

theorem PassesBy.beside {x : RunM α} {post : α → Prop} (hx : x.Beside post) :
    x.PassesBy H s fun _ => post :=
  fun c a t h => (hx c s a t h).imp_left fun hb => .beside hs hb

/-- What goes on after heap and names were left as they are. -/
theorem PassesBy.beside_bind {x : RunM α} {f : α → RunM β} {post : α → Prop}
    {post' : Set BlockId → β → Prop} (hx : x.Beside post)
    (hf : ∀ a t, s.PassesBy H t → post a → (f a).PassesBy H t post') :
    (x >>= f).PassesBy H s post' := .bind (.beside hs hx) hf

theorem passesBy_operate {x : OperatorM α} {post : Set BlockId → α → Prop}
    (hx : x.PassesBy H s.heap post) : (operate x).PassesBy H s post := by
  intro c a t h
  obtain ⟨heap, ha, rfl⟩ := operate_eq_ok h
  obtain ⟨hp, ha⟩ := hx _ a heap ha
  exact ⟨.onHeap hs hp, ha⟩

theorem passesBy_copy {v : Value} (hv : v.Lies (s.reach H)) (ty : Ty) :
    (operate (OperatorM.copy v ty)).PassesBy H s fun R w => w.Within R :=
  passesBy_operate hs (OperatorM.confined_copy hs.heap hv ty)

theorem passesBy_convert {v : Value} (hv : v.Lies (s.reach H)) (ty : Ty) (explicit : Bool) :
    (operate (OperatorM.convert v ty explicit)).PassesBy H s fun R w => w.Within R :=
  passesBy_operate hs (OperatorM.confined_convert hs.heap hv ty explicit)

theorem passesBy_holds (v : Value) : (operate (OperatorM.condition v)).PassesBy H s fun _ _ => True :=
  passesBy_operate hs (OperatorM.passesBy_condition hs.heap)

theorem passesBy_apply {op : Operator} {l : Value} {r : Option Value} (hl : l.Within (s.reach H))
    (hr : ∀ v, r = some v → v.Within (s.reach H)) :
    (operate (op.apply l r)).PassesBy H s fun R w => w.Within R :=
  passesBy_operate hs (Operator.confined_apply hs.heap hl hr)

/-- A new block is in reach. -/
theorem passesBy_alloc {cells : Array Value} (hcells : ∀ cell ∈ cells, cell.Lies (s.reach H)) :
    (alloc cells).PassesBy H s fun R b => b ∈ R := by
  rintro c b t ⟨⟩
  exact ⟨.onHeap hs (.alloc hs.heap hcells), (hs.heap.toOutside.alloc hcells).2.2⟩

theorem passesBy_newSlot {v : Value} (hv : v.Lies (s.reach H)) :
    (onHeap (HeapM.newSlot v)).PassesBy H s fun R p => p.block ∈ R := by
  have hcells : ∀ cell ∈ #[v], cell.Lies (s.reach H) := fun cell hm => by
    obtain rfl := Array.mem_singleton.mp hm
    exact hv
  rintro c p t ⟨⟩
  exact passesBy_alloc hs hcells c _ _ rfl

omit hs in
theorem passesBy_modify {f : State → State} (hf : s.PassesBy H (f s)) :
    (modify f : RunM Unit).PassesBy H s fun _ _ => True := by
  rintro c a t ⟨⟩
  exact ⟨hf, trivial⟩

theorem passesBy_setCursor (node : Option Node) : (setCursor node).PassesBy H s fun _ _ => True :=
  passesBy_modify (.beside hs ⟨rfl, rfl, rfl⟩)

theorem passesBy_pushScope (name : String) : (pushScope name).PassesBy H s fun _ _ => True :=
  passesBy_modify (.onScopes hs (hs.names.scopes.opened name false))

theorem passesBy_popScope : popScope.PassesBy H s fun _ _ => True :=
  passesBy_modify (.onScopes hs hs.names.scopes.pop)

theorem passesBy_leaveScopes (depth : Nat) : (leaveScopes depth).PassesBy H s fun _ _ => True :=
  passesBy_modify (.onScopes hs (hs.names.scopes.truncate depth))

theorem passesBy_declare {p : Place} (hp : p.block ∈ s.reach H) (name : String) :
    (declare name p).PassesBy H s fun _ _ => True := by
  intro c a t h
  rw [declare_apply] at h
  cases hd : s.scopes.define? name p with
  | none =>
    rw [hd] at h
    cases h
  | some scopes =>
    rw [hd] at h
    cases h
    exact ⟨.onScopes hs (hs.names.scopes.define? hp hd), trivial⟩

theorem passesBy_defineVariable {v : Value} (hv : v.Lies (s.reach H)) (name : String) :
    (defineVariable name v).PassesBy H s fun _ _ => True :=
  .bind (passesBy_newSlot hs hv) fun _ _ hp hb => passesBy_declare hp.hides hb name

/-- A loop that works through a list. -/
theorem passesBy_forIn {as : List β} {body : β → PUnit → RunM (ForInStep PUnit)}
    (hb : ∀ a ∈ as, ∀ t, s.PassesBy H t →
      (body a ⟨⟩).PassesBy H t fun _ step => step = .yield ⟨⟩) :
    (forIn as PUnit.unit body).PassesBy H s fun _ _ => True := by
  induction as generalizing s with
  | nil => exact .pure hs trivial
  | cons a as ih =>
    obtain ⟨hfirst, hrest⟩ := List.forall_mem_cons.mp hb
    rw [List.forIn_cons]
    refine .bind (hfirst s (.refl hs)) fun step t hp hstep => ?_
    subst hstep
    exact ih hp.hides fun a ha u hu => hrest a ha u (hp.trans hu)

theorem passesBy_forM {as : List β} {body : β → RunM PUnit}
    (hb : ∀ a ∈ as, ∀ t, s.PassesBy H t → (body a).PassesBy H t fun _ _ => True) :
    (as.forM body).PassesBy H s fun _ _ => True := by
  induction as generalizing s with
  | nil => exact .pure hs trivial
  | cons a as ih =>
    obtain ⟨hfirst, hrest⟩ := List.forall_mem_cons.mp hb
    refine .bind (hfirst s (.refl hs)) fun _ t hp _ => ?_
    exact ih hp.hides fun a ha u hu => hrest a ha u (hp.trans hu)

end Hides

end RunM

end Stepwise
