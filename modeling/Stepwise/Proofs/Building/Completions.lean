import Stepwise.Proofs.Budget.Objects
import Stepwise.Proofs.Building.Making
import Stepwise.Proofs.Confinement.Runs
import Stepwise.Proofs.Copies.Flags

/-! # What is made is what initializers say

A making that completes in some number of steps builds an object: its parts are made at once or later,
by what the frames go on with, which takes fewer steps. So the induction is on the number of steps, and
within it on the depth that is left.
-/

namespace Stepwise

open Heap

namespace RunM

variable {c : Config} {H : Set BlockId} {s t u : State} {o o' : Object} {os : List Object}
  {v w : Value} {F : List BlockId} {f : Filling} {m : Making} {ms : List Making} {l : List Origin}
  {n : Nat} {readonly : Bool}

/-- An object changes that nothing leads to. -/
theorem Yields.store {heap : Heap} (hh : s.Hides H) (hy : Yields H s t [o] [v] F)
    (hp : t.PassesBy ∅ { t with heap }) (ho : heap.Represents [o'] [v] F) (hsame : ∀ b ∉ F, heap.cells b = t.heap.cells b) :
    Yields H s { t with heap } [o'] [v] F where
  passes := hy.passes.trans hp
  same b hb := by
    refine (hsame b fun hm => ?_).trans (hy.same b hb)
    exact Nat.not_lt_of_le (hy.fresh b hm) (hh.heap.held b hb)
  lies := fun w hw => (hy.lies w hw).mono hp.reach
  represents := ho
  nodup := hy.nodup
  fresh := hy.fresh
  hides := by
    refine hy.hides.widen hp.hides.heap.closed hp.hides.heap.founded (fun b hb => ?_)
      (reach_mono hp.heap.blocks) fun b hb cell hcell => ⟨hb, ?_⟩
    · exact Nat.lt_of_lt_of_le (hy.hides.heap.held b hb) hp.heap.blocks
    · rwa [hsame b fun hm => hb (.inr hm)] at hcell

theorem finish_eq_ok {made : Array Value} (hty : f.target.isScalar = false)
    (h : finish f made c s = .ok (.done v) t) : v.block? = some s.heap.blocks.size ∧
      v.contents = f.target.shell f.readonly ∧ t = { s with heap := (s.heap.alloc made).2 } := by
  obtain ⟨target, readonly, made, next, count, element⟩ := f
  cases target with
  | array | struct =>
    cases h
    exact ⟨rfl, rfl, rfl⟩
  | _ => cases hty

/-- What is filled is an array or a struct with its parts, which fill a new block. -/
theorem Filled.object (hty : f.target.isScalar = false) (h : Filled f #[] H c s ms v t) :
    ∃ os, ∃ cells : Array Value, ∃ F G l u, Constructs c ms s os u l ∧
      u.heap.Represents os cells.toList F ∧ t = { u with heap := (u.heap.alloc cells).2 } ∧
      Yields H s t [.mk (f.target.shell f.readonly) os] [v] G := by
  obtain ⟨os, cells, F, l, u, hms, hy, hfinish⟩ := h
  rw [Array.empty_append] at hfinish
  obtain ⟨hb, hcontents, rfl⟩ := finish_eq_ok hty hfinish
  have hconfined := confined_finish hy.passes.hides f fun w hw => hy.lies w (List.mem_toArray.mp hw)
  obtain ⟨-, hwithin⟩ := hconfined c _ _ hfinish
  have hcells : Yields H s u os cells.toArray.toList F := hy
  have hbuilt := hcontents ▸ hcells.alloc hb hwithin.toLies
  exact ⟨os, cells.toArray, F, _, l, u, hms, hy.represents, rfl, hbuilt⟩

theorem Filled.parts (hm : m.Slots s (f.target.shell f.readonly) ms l)
    (hty : f.target.isScalar = false) (h : Filled f #[] H c s ms v t) : Built H c s m v t := by
  obtain ⟨os, cells, F, G, l', u, hms, hrepresents, rfl, hy⟩ := h.object hty
  exact ⟨_, G, _, .parts hm hms hrepresents, hy⟩

theorem completesIn_check {p : Prop} [Decidable p] {cause : FaultCause}
    {f : PUnit → RunM (Progress k)} {r : k.Result}
    (h : (if p then fail cause >>= f else f ⟨⟩).CompletesIn n c s r t) :
    ¬p ∧ (f ⟨⟩).CompletesIn n c s r t := by
  split at h
  · obtain ⟨_, _, hfail, -⟩ := completesIn_bind h
    cases hfail
  · exact ⟨‹_›, h⟩

theorem not_completesIn_fail {cause : FaultCause} {r : k.Result} :
    ¬(fail cause : RunM (Progress k)).CompletesIn n c s r t := by
  rintro ⟨fs, -, h⟩
  cases h

theorem passesBy_visit {e : Expr} {hint : Option StructTy} (hs : s.Hides H)
    (hv : (visit e hint .nil).Completes c s v t) : s.PassesBy H t ∧ v.Within (t.reach H) := by
  have hconfined : (visit e hint .nil).Confined H s := .visit hs e hint trivial
  exact hconfined.completes hv

section Single

variable {k : Nat} {element : Ty} {size : Nat} {e : Expr} {hint : Option StructTy}

/-- What a list of one expression stands for in an array of arrays. -/
theorem built_of_makeSingle (hbuild : BuildsIn k RunM.make) (hfill : FillsIn k RunM.make)
    (hlists : m.Lists element size [.expr e] readonly hint) (harray : element.isArray = true)
    (hs : s.Hides ∅) (hh : s.Hides H) (hv : (visit e hint .nil).Completes c s v u)
    (h : (makeSingle (.array element size) readonly v).CompletesIn k c u w t) :
    Built H c s m w t := by
  obtain ⟨hpasses, hwithin⟩ := passesBy_visit hs hv
  obtain ⟨hbeside, -⟩ := passesBy_visit hh hv
  unfold makeSingle at h
  dsimp only at h
  split at h
  · have hpart : ∀ part ∈ [Making.arrayOf element v readonly],
        IsPart part ∧ part.Within (u.reach ∅) :=
      List.forall_mem_singleton.mpr ⟨trivial, hwithin.toLies⟩
    have hfilled := hfill _ _ #[] c H u w t (fun part hm => (hpart part hm).1)
      (fun part hm => (hpart part hm).2) hpasses.hides hbeside.hides h
    obtain ⟨os, cells, F, G, l, x, hos, hrepresents, rfl, hy⟩ := hfilled.object rfl
    exact ⟨_, G, l, .row hlists harray hv ‹_› hos hrepresents, hy.after hpasses hbeside⟩
  · split at h
    · rename_i hsentinel
      rw [Bool.and_eq_true, Bool.or_eq_true, beq_iff_eq, beq_iff_eq] at hsentinel
      obtain ⟨hi, hvalue⟩ := hsentinel
      obtain ⟨array, x, hdefault, hstore⟩ := completesIn_andThen h
      obtain ⟨o, F, l, ho, hy⟩ := hbuild (.default _ _) c H u array x trivial trivial hpasses.hides
        hbeside.hides hdefault
      have hstore : ∃ j, (storeFirst v readonly array).CompletesIn j c x w t := by
        rcases hstore with hstore | ⟨j, -, hstore⟩
        · exact ⟨k, hstore⟩
        · exact ⟨j, hstore⟩
      obtain ⟨j, hstore⟩ := hstore
      obtain ⟨_, y, hfirst, hdone⟩ := completesIn_bind hstore
      obtain ⟨rfl, rfl⟩ := completesIn_done hdone
      have hnests := (List.forall₂_cons.mp ho.nests).1 _ _ rfl
      have hty : array.ty = .array element size := by
        rw [← hnests.1, hy.represents.contents_eq]
        rfl
      rw [hty] at hfirst
      obtain ⟨o', heap, rfl, hstores, ho', hsame⟩ := stores_of_storeIntoFirst hwithin.toLies hi
        (.array element size) hy.passes.hides hnests rfl hy.represents hy.nodup hfirst
      have hlies := List.forall_mem_singleton.mp hy.lies
      have hstored := passesBy_storeIntoFirst hy.passes.hides (hwithin.toLies.mono hy.passes.reach)
        readonly hi (.array element size) hlies c _ _ hfirst
      exact ⟨o', F, l, .scalar hlists harray hv hi hvalue ho hstores hy.represents ho' hsame,
        (hy.store hbeside.hides hstored.1 ho' hsame).after hpasses hbeside⟩
    · obtain ⟨_, _, -, hfail⟩ := completesIn_bind h
      exact absurd hfail not_completesIn_fail

end Single

theorem elementsFrom_eq_ok {source : List Value} (h : elementsFrom v c s = .ok source t) :
    t = s ∧ ∃ store position, v.array? = some (store, position) ∧
      (s.heap.cells store).toList.drop position.toNat = source := by
  unfold elementsFrom at h
  cases harray : v.array? with
  | some found =>
    rw [harray] at h
    cases h
    exact ⟨rfl, _, _, rfl, rfl⟩
  | none =>
    rw [harray] at h
    cases h

theorem inspect_eq_ok {α : Type} {g : State → α} {a : α} (h : inspect g c s = .ok a t) :
    t = s ∧ g s = a := by
  cases h
  exact ⟨rfl, rfl⟩

section Making

variable {depth : Nat} (hpart : BuildsIn n (makeWithin depth))
  (hlater : ∀ k < n, BuildsIn k RunM.make ∧ FillsIn k RunM.make)
  (hs : s.Hides ∅) (hh : s.Hides H)

include hpart hlater hs hh

theorem filled_of_fillNext (hparts : ∀ m ∈ ms, IsPart m ∧ m.Within (s.reach ∅))
    (h : (fillNext (makeWithin depth) f ms #[]).CompletesIn n c s v t) :
    Filled f #[] H c s (ms ++ List.replicate f.defaults (.default f.element f.readonly)) v t :=
  fillsIn hpart (fun k hk => (hlater k hk).2) f ms #[] c H s v t (fun m hm => (hparts m hm).1)
    (fun m hm => (hparts m hm).2) hs hh h

/-- A list for an array. -/
theorem built_of_fillArray {element : Ty} {size : Nat} {items : List Initializer}
    {hint : Option StructTy} {outermost : Bool}
    (hlists : items.length ≤ size → (outermost = true ∨ items = [] ∨ items.length = size) →
      m.Lists element size items readonly hint)
    (h : (fillArray (makeWithin depth) (.array element size) element size items readonly hint
      outermost).CompletesIn n c s v t) : Built H c s m v t := by
  unfold fillArray at h
  obtain ⟨hcheck, h⟩ := completesIn_check h
  have hlists : m.Lists element size items readonly hint := by
    simp only [Bool.or_eq_true, Bool.and_eq_true, decide_eq_true_eq, bne_iff_ne, not_or, not_and,
      Nat.not_lt, Bool.not_eq_true', ne_eq, not_not, List.length_eq_zero_iff] at hcheck
    obtain ⟨hle, hinner⟩ := hcheck
    refine hlists hle ?_
    by_cases hitems : items = []
    · exact .inr (.inl hitems)
    · cases outermost with
      | true => exact .inl rfl
      | false => exact .inr (.inr (hinner ⟨rfl, hitems⟩))
  dsimp only at h
  split at h
  · obtain ⟨w, u, hw, k, hk, h⟩ := completesIn_visit h
    exact built_of_makeSingle (hlater k hk).1 (hlater k hk).2 hlists rfl hs hh hw h
  · rename_i hsingle
    have hfilled := filled_of_fillNext hpart hlater hs hh (fun part hm => ?_) h
    · refine hfilled.parts (.list hlists fun harray e he => ?_) rfl
      cases element with
      | array element size => exact hsingle e element size he rfl
      | _ => cases harray
    · obtain ⟨item, -, rfl⟩ := List.mem_map.mp hm
      cases item with
      | expr e => exact ⟨trivial, trivial⟩
      | list span items => cases element <;> exact ⟨trivial, trivial⟩

/-- An array with the elements of another one. -/
theorem built_of_arrayOf {element : Ty} {size : Nat} (hv : v.Lies (s.reach ∅))
    (h : (makeWithin (depth + 1) (.arrayOf (.array element size) v readonly)).CompletesIn n c s w t) :
    Built H c s (.arrayOf (.array element size) v readonly) w t := by
  obtain ⟨source, u, hsource, hfill⟩ := completesIn_bind h
  obtain ⟨rfl, store, position, harray, hcells⟩ := elementsFrom_eq_ok hsource
  obtain ⟨hle, hfill⟩ := completesIn_check hfill
  have hfilled := filled_of_fillNext hpart hlater hs hh (fun part hm => ?_) hfill
  · exact hfilled.parts (.elements harray hcells (Nat.le_of_not_lt hle)) rfl
  · obtain ⟨item, hitem, rfl⟩ := List.mem_map.mp hm
    have hlies : item.Lies (u.reach ∅) := by
      rw [← hcells] at hitem
      exact hs.heap.cells store (Set.notMem_empty _) item
        (Array.mem_toList_iff.mp (List.mem_of_mem_drop hitem))
    split
    · exact ⟨trivial, hlies⟩
    · exact ⟨Bool.eq_false_iff.mpr ‹_›, hlies⟩

/-- A struct is filled by its definition. -/
theorem filled_of_struct {d : StructTy} {items : List Initializer} {hint : Option StructTy}
    (h : (makeWithin (depth + 1) (.struct d items readonly hint)).CompletesIn n c s v t) :
    items.length ≤ d.members.length ∧
      Filled ⟨d.type, readonly, #[], [], 0, .void⟩ #[] H c s (members readonly hint d.members items)
        v t := by
  unfold makeWithin at h
  obtain ⟨hle, h⟩ := completesIn_check h
  have hfilled := filled_of_fillNext hpart hlater hs hh (fun part hm => ?_) h
  · rw [List.replicate_zero, List.append_nil] at hfilled
    exact ⟨Nat.le_of_not_lt hle, hfilled⟩
  · exact forall_members (P := fun m => IsPart m ∧ m.Within (s.reach ∅))
      (fun _ _ _ _ => ⟨trivial, trivial⟩) (fun _ _ => ⟨trivial, trivial⟩) _ _ _ _ part hm

omit hpart hlater in
/-- A scalar is converted, and a struct is copied. -/
theorem built_of_copy {ty : Ty} (harray : ty.isArray = false) (hv : v.Lies (s.reach ∅))
    (h : (makeWithin (depth + 1) (.copy ty v readonly)).CompletesIn n c s w t) :
    Built H c s (.copy ty v readonly) w t := by
  obtain ⟨x, u, hx, hdone⟩ := completesIn_bind h
  obtain ⟨rfl, rfl⟩ := completesIn_done hdone
  obtain ⟨heap, hcopy, rfl⟩ := operate_eq_ok hx
  by_cases hstruct : ∃ name fields, ty = .struct name fields
  · obtain ⟨name, fields, rfl⟩ := hstruct
    obtain ⟨o, F, ho⟩ := hs.heap.founded.exists_represents v
    obtain ⟨F', hy⟩ := Yields.deepCopy hs hh hv.rvalue.toLies (ho.replace (w := v.rvalue) rfl)
    rw [OperatorM.copy_struct hcopy] at hy
    have hbuilt := hy.withReadonly readonly
    have hobject : ((Object.mk v.rvalue.contents o.parts).withReadonly false).withReadonly readonly =
        o.withReadonly readonly := by
      have hcontents := ho.contents_eq
      obtain ⟨contents, parts⟩ := o
      obtain rfl : contents = v.contents := hcontents
      rfl
    rw [hobject] at hbuilt
    exact ⟨_, F', _, .copied ho hx, hbuilt⟩
  · have hscalar : ty.isScalar = true := by
      cases ty with
      | array => cases harray
      | struct name fields => exact absurd ⟨name, fields, rfl⟩ hstruct
      | _ => rfl
    have hconvert := OperatorM.convert_of_copy (fun name ms he => hstruct ⟨name, ms, he⟩) hcopy
    obtain ⟨rfl, hwithin⟩ := OperatorM.gives_convert hv ty false _ _ _ hconvert
    obtain ⟨-, hconverted⟩ := OperatorM.Gives.convert v false _ _ _ hconvert
    have hempty : x.block? = none := by
      refine block?_of_isScalar hwithin.toLies ?_
      rw [← Ty.isScalar_named, hconverted.type, Ty.isScalar_named, hscalar]
    refine ⟨_, [], _, .converted hscalar (operate_ok hconvert), .of_nil hs hh ?_ (.leaf hempty .nil)⟩
    exact List.forall_mem_singleton.mpr (hwithin.toLies.withReadonly readonly)

end Making

/-- A scalar without an initializer. -/
theorem built_of_zero {ty : Ty} {z : Value} (hz : ty.zero? = some z) (hs : s.Hides ∅)
    (hh : s.Hides H)
    (h : (return .done (z.withReadonly readonly) : RunM (Progress .value)).CompletesIn n c s v t) :
    Built H c s (.default ty readonly) v t := by
  obtain ⟨rfl, rfl⟩ := completesIn_done h
  obtain ⟨hempty, hcontents, hlies⟩ := zero?_eq_some hz (s.reach ∅)
  refine ⟨_, [], _, .zero hz, .of_nil hs hh ?_ ?_⟩
  · exact List.forall_mem_singleton.mpr (hlies.withReadonly readonly)
  · have hleaf : s.heap.Represents [_] [z] [] := .leaf hempty .nil
    rw [hcontents] at hleaf
    exact hleaf.withReadonly readonly

/-- A struct is built of what its definition says. -/
theorem built_of_struct (hlater : ∀ k < n, BuildsIn k RunM.make ∧ FillsIn k RunM.make) {depth : Nat}
    (hpart : ∀ d < depth, BuildsIn n (makeWithin d)) {name : String} {fields : List MemberTy}
    {items : List Initializer} {hint : Option StructTy}
    (hm : m.Fields name fields readonly items hint) (hs : s.Hides ∅) (hh : s.Hides H)
    (h : (do makeWithin depth (.struct (← inspect fun s => s.currentStruct name fields) items readonly
      hint)).CompletesIn n c s v t) : Built H c s m v t := by
  obtain ⟨d, u, hd, hstruct⟩ := completesIn_bind h
  obtain ⟨rfl, hcurrent⟩ := inspect_eq_ok hd
  cases depth with
  | zero => exact absurd hstruct not_completesIn_fail
  | succ depth =>
    obtain ⟨hle, hfilled⟩ := filled_of_struct (hpart depth (Nat.lt_succ_self _)) hlater hs hh hstruct
    exact hfilled.parts (.members hm hcurrent hle) rfl

/-- An initializer without braces is evaluated. -/
theorem built_of_expr (hlater : ∀ k < n, BuildsIn k RunM.make ∧ FillsIn k RunM.make) {depth : Nat}
    {ty : Ty} {e : Expr} {hint : Option StructTy} (hs : s.Hides ∅) (hh : s.Hides H)
    (h : (makeWithin (depth + 1) (.initial ty (.expr e) readonly hint)).CompletesIn n c s v t) :
    Built H c s (.initial ty (.expr e) readonly hint) v t := by
  unfold makeWithin at h
  dsimp only at h
  split at h
  · obtain ⟨w, u, hw, k, hk, hmake⟩ := completesIn_visit h
    obtain ⟨hpasses, hwithin⟩ := passesBy_visit hs hw
    obtain ⟨hbeside, -⟩ := passesBy_visit hh hw
    change (makeArrayFrom ty readonly w).CompletesIn k c u v t at hmake
    unfold makeArrayFrom at hmake
    cases harray : w.ty.isArray with
    | false =>
      rw [harray] at hmake
      obtain ⟨_, _, -, hfail⟩ := completesIn_bind hmake
      obtain ⟨_, _, hfault, -⟩ := completesIn_bind hfail
      cases hfault
    | true =>
      rw [harray] at hmake
      obtain ⟨o, F, l, ho, hy⟩ := (hlater k hk).1 (.arrayOf ty w readonly) c H u v t trivial
        hwithin.toLies hpasses.hides hbeside.hides hmake
      exact ⟨o, F, l, .array ‹_› hw harray ho, hy.after hpasses hbeside⟩
  · obtain ⟨_, _, hinspect, hvisit⟩ := completesIn_bind h
    obtain ⟨rfl, rfl⟩ := inspect_eq_ok hinspect
    obtain ⟨w, u, hw, k, hk, hmake⟩ := completesIn_visit hvisit
    obtain ⟨hpasses, hwithin⟩ := passesBy_visit hs hw
    obtain ⟨hbeside, -⟩ := passesBy_visit hh hw
    have harray : ty.isArray = false := Bool.eq_false_iff.mpr ‹_›
    obtain ⟨o, F, l, ho, hy⟩ := (hlater k hk).1 (.copy ty w readonly) c H u v t harray
      hwithin.toLies hpasses.hides hbeside.hides hmake
    exact ⟨o, F, l, .value harray hw ho, hy.after hpasses hbeside⟩

/-- A list for a scalar is empty, or has one item without braces. -/
theorem built_of_braces {depth : Nat} (hpart : BuildsIn n (makeWithin depth)) {ty : Ty} {span : Span}
    {items : List Initializer} {hint : Option StructTy} (hty : ty.isScalar = true)
    (hs : s.Hides ∅) (hh : s.Hides H)
    (h : (makeWithin (depth + 1) (.initial ty (.list span items) readonly hint)).CompletesIn n c s v t) :
    Built H c s (.initial ty (.list span items) readonly hint) v t := by
  have hempty (hmake : (makeWithin depth (.default ty readonly)).CompletesIn n c s v t) :
      Built H c s (.initial ty (.list span []) readonly hint) v t := by
    obtain ⟨o, F, l, ho, hy⟩ := hpart (.default ty readonly) c H s v t trivial trivial hs hh hmake
    exact ⟨o, F, l, .braces hty ho, hy⟩
  have hone (e : Expr)
      (hmake : (makeWithin depth (.initial ty (.expr e) readonly hint)).CompletesIn n c s v t) :
      Built H c s (.initial ty (.list span [.expr e]) readonly hint) v t := by
    obtain ⟨o, F, l, ho, hy⟩ := hpart (.initial ty (.expr e) readonly hint) c H s v t trivial
      trivial hs hh hmake
    exact ⟨o, F, l, .braced hty ho, hy⟩
  unfold makeWithin at h
  dsimp only at h
  split at h
  · cases hty
  · cases hty
  · exact hempty h
  · exact hone _ h
  · exact absurd h not_completesIn_fail
  · exact absurd h not_completesIn_fail

/-- Whatever the depth, what completes is built. -/
theorem buildsIn_makeWithin (hlater : ∀ k < n, BuildsIn k RunM.make ∧ FillsIn k RunM.make)
    (depth : Nat) : BuildsIn n (makeWithin depth) := by
  induction depth using Nat.strong_induction_on with
  | _ depth ih =>
    cases depth with
    | zero => exact fun _ _ _ _ _ _ _ _ _ _ h => absurd h not_completesIn_fail
    | succ depth =>
      have hpart := ih depth (Nat.lt_succ_self _)
      have hdeeper (d : Nat) (hd : d < depth) : BuildsIn n (makeWithin d) :=
        ih d (Nat.lt_succ_of_lt hd)
      intro m c H s v t hm hwithin hs hh h
      cases m with
      | default ty readonly =>
        cases ty with
        | array element size =>
          have hfilled := filled_of_fillNext hpart hlater hs hh (List.forall_mem_nil _) h
          exact hfilled.parts .default rfl
        | struct name fields => exact built_of_struct hlater hdeeper .none hs hh h
        | function | marker => exact absurd h not_completesIn_fail
        | arith | void | pointer | functionPointer => exact built_of_zero rfl hs hh h
      | initial ty init readonly hint =>
        cases init with
        | expr e => exact built_of_expr hlater hs hh h
        | list span items =>
          cases ty with
          | array element size =>
            exact built_of_fillArray hpart hlater hs hh (fun hle _ => .outermost span hle) h
          | struct name fields => exact built_of_struct hlater hdeeper (.list span items hint) hs hh h
          | _ => exact built_of_braces hpart rfl hs hh h
      | row ty items readonly hint =>
        cases ty with
        | array element size =>
          refine built_of_fillArray hpart hlater hs hh (fun _ hitems => .inner ?_) h
          exact hitems.resolve_left Bool.false_ne_true
        | _ => exact absurd h not_completesIn_fail
      | struct => cases hm
      | copy ty w readonly => exact built_of_copy hs hh hm hwithin h
      | arrayOf ty w readonly =>
        cases ty with
        | array element size => exact built_of_arrayOf hpart hlater hs hh hwithin h
        | _ => exact absurd h not_completesIn_fail
      | nested => exact absurd h not_completesIn_fail

theorem buildsIn_make (n : Nat) : BuildsIn n RunM.make ∧ FillsIn n RunM.make := by
  induction n using Nat.strong_induction_on with
  | _ n ih =>
    have hmake : BuildsIn n RunM.make := by
      intro m c H s v t hpart hwithin hs hh h
      obtain ⟨depth, u, hdepth, hmade⟩ := completesIn_bind h
      obtain ⟨rfl, -⟩ := inspect_eq_ok hdepth
      exact buildsIn_makeWithin ih depth m c H u v t hpart hwithin hs hh hmade
    exact ⟨hmake, fillsIn hmake fun k hk => (ih k hk).2⟩

end RunM

end Stepwise
