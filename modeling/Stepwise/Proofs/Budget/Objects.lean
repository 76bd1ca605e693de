import Stepwise.Proofs.Closure.Drives
import Stepwise.Proofs.Operator.Results
import Mathlib.Algebra.GroupWithZero.Nat

/-! # Cells of objects that are made

The making of an object without structs owes a number of scalar cells, which its type tells.
What a part of the making allocates is no longer owed by what is left of it, however often
initializers suspend it, and at the end nothing is owed.
-/

namespace Stepwise

open RunM

namespace Ty

/-- No part of an object of the type is a struct. -/
def isPlain : Ty → Bool
  | array element _ => element.isPlain
  | struct .. => false
  | _ => true

/-- The number of scalar cells of an object of a plain type. -/
def scalars : Ty → Nat
  | array element size => size * element.scalars
  | _ => 1

/-- The scalar cells that a value of the type fills by itself. -/
def unit (ty : Ty) : Nat := if ty.isScalar then 1 else 0

/-- The scalar cells of an object of the type, without the one that its value fills. -/
def owned (ty : Ty) : Nat := ty.scalars - ty.unit

theorem owned_add_unit (ty : Ty) (h : ty.isPlain = true) : ty.owned + ty.unit = ty.scalars := by
  cases ty with
  | array element size => rfl
  | struct name members => cases h
  | _ => rfl

theorem owned_array (element : Ty) (size : Nat) :
    (array element size).owned = size * element.scalars := rfl

theorem owned_of_isScalar {ty : Ty} (h : ty.isScalar = true) : ty.owned = 0 := by
  cases ty <;> first | rfl | cases h

theorem isScalar_named (ty : Ty) : ty.named.isScalar = ty.isScalar := by cases ty <;> rfl

theorem isPlain_of_isScalar {ty : Ty} (h : ty.isScalar = true) : ty.isPlain = true := by
  cases ty <;> first | rfl | cases h

theorem isScalar_of_not_isArray {ty : Ty} (hp : ty.isPlain = true) (h : ty.isArray = false) :
    ty.isScalar = true := by
  cases ty <;> first | rfl | cases hp | cases h

/-- The cells of a plain type are counted without fault, if they can be counted at all. -/
theorem cells?_eq_scalars : (ty : Ty) → ty.isPlain = true → ∀ {n}, ty.cells? = some n →
    n = ty.scalars
  | .array element size, hp, n, h => by
    obtain ⟨count, hcount, hn⟩ := Option.bind_eq_some_iff.mp h
    obtain ⟨-, hn⟩ := Option.ite_none_right_eq_some.mp hn
    rw [← Option.some.inj hn, cells?_eq_scalars element hp hcount, scalars]
  | .void, _, _, h | .arith _, _, _, h | .pointer .., _, _, h => (Option.some.inj h).symm
  | .functionPointer _, _, _, h | .function _, _, _, h | .marker, _, _, h =>
    (Option.some.inj h).symm

end Ty

namespace Heap

/-- The number of scalar cells in the heap. -/
def scalars (h : Heap) : Nat :=
  ((List.range h.blocks.size).map fun b => (h.types b).countP Ty.isScalar).sum

/-- Cells that are alike in their types are counted together. -/
theorem countP_isScalar {values : List Value} {element : Ty}
    (h : ∀ v ∈ values, v.ty.isScalar = element.isScalar) :
    (values.map fun v => v.ty.named).countP Ty.isScalar = values.length * element.unit := by
  rw [List.countP_map]
  unfold Ty.unit
  cases he : element.isScalar with
  | true =>
    rw [if_pos rfl, Nat.mul_one, List.countP_eq_length]
    intro v hv
    rw [Function.comp_apply, Ty.isScalar_named, h v hv, he]
  | false =>
    rw [if_neg Bool.false_ne_true, Nat.mul_zero, List.countP_eq_zero]
    intro v hv
    rw [Function.comp_apply, Ty.isScalar_named, h v hv, he]
    exact Bool.false_ne_true

theorem scalars_alloc (h : Heap) {cells : Array Value} {element : Ty}
    (hc : ∀ v ∈ cells, v.ty.isScalar = element.isScalar) :
    (h.alloc cells).2.scalars = h.scalars + cells.size * element.unit := by
  have hsize : (h.alloc cells).2.blocks.size = h.blocks.size + 1 := by simp [alloc]
  have hnew : (h.alloc cells).2.types h.blocks.size = cells.toList.map fun v => v.ty.named := by
    rw [types, cells_alloc, if_pos rfl]
  rw [scalars, hsize, List.range_succ, List.map_append, List.sum_append, List.map_singleton,
    List.sum_singleton, hnew, countP_isScalar (by simpa using hc), Array.length_toList]
  congr 1
  rw [scalars]
  congr 1
  refine List.map_congr_left fun b hb => ?_
  rw [(keeps_alloc h cells).types b (List.mem_range.mp hb)]

theorem scalars_of_keeps {h h' : Heap} (hk : h.Keeps h') (hs : h'.blocks.size = h.blocks.size) :
    h'.scalars = h.scalars := by
  rw [scalars, hs, scalars]
  congr 1
  exact List.map_congr_left fun b hb => by rw [hk.types b (List.mem_range.mp hb)]

end Heap

/-- What makes an object of the type, or fails. -/
def Making.Makes (ty : Ty) : Making → Prop
  | copy ty' _ _ => ty' = ty ∧ ty.isScalar = true
  | nested => True
  | default ty' _ | initial ty' _ _ _ | row ty' _ _ _ | arrayOf ty' _ _ => ty' = ty
  | struct .. => False

/-- An array of a plain type that is being filled. -/
structure Filling.Plain (f : Filling) : Prop where
  element : f.element.isPlain = true
  made : ∀ v ∈ f.made, v.ty.isScalar = f.element.isScalar
  next : ∀ m ∈ f.next, m.Makes f.element

/-- The frames go on with the making of an object of a plain type, and owe a number of cells. -/
inductive Frames.Owes : Ty → Nat → Frames .value .value → Prop
  | convert {ty : Ty} (hs : ty.isScalar = true) (readonly : Bool) :
    Owes ty 0 (one (.convert ty readonly))
  | arrayFrom {element : Ty} (hp : element.isPlain = true) (size : Nat) (readonly : Bool) :
    Owes (.array element size) (size * element.scalars)
      (one (.arrayFrom (.array element size) readonly))
  | single {element : Ty} (hp : element.isPlain = true) {size : Nat} (hs : 0 < size)
    (readonly : Bool) : Owes (.array element size) (size * element.scalars)
      (one (.single (.array element size) readonly))
  /-- A part is being made, and it owes cells, too. -/
  | fill {f : Filling} {n : Nat} {path : Frames .value .value} (hp : Owes f.element n path)
    (hf : f.Plain) : Owes f.target (n + ((f.made.size + 1) * f.element.unit +
      (f.next.length + f.defaults) * f.element.scalars)) (path ++ one (.fill f))
  | storeFirst {ty : Ty} {n : Nat} {path : Frames .value .value} (hp : Owes ty n path) (v : Value)
    (readonly : Bool) : Owes ty n (path ++ one (.storeFirst v readonly))

/-- An object owes no cells; a making that is suspended waits for an initializer. -/
inductive Progress.Owes (ty : Ty) : Nat → Progress .value → Prop
  | done {v : Value} (hv : v.ty.isScalar = ty.isScalar) : Owes ty 0 (.done v)
  | paused {n : Nat} {path : Frames .value .value} (hp : path.Owes ty n) (e : Expr)
    (hint : Option StructTy) (node : Node) (previous : Option Node) :
    Owes ty n (.paused (.expr e hint) (.cons (.leave node previous) path))

namespace RunM

variable {α : Type} {ty element : Ty} {n : Nat}

/-- The computation leaves the heap as it is. -/
def Still (x : RunM α) : Prop := ∀ c s a t, x c s = .ok a t → t.heap = s.heap

/-- Of the cells that the making owes, those that it does not allocate are owed by what is left. -/
def Spends (ty : Ty) (n : Nat) (x : RunM (Progress .value)) : Prop := ∀ c s p t,
  x c s = .ok p t → ∃ k m, p.Owes ty m ∧ t.heap.scalars = s.heap.scalars + k ∧ k + m = n

theorem still_inspect (f : State → α) : (inspect f).Still := by
  rintro c s a t ⟨⟩
  rfl

theorem still_elementsFrom (v : Value) : (elementsFrom v).Still := by
  intro c s a t h
  unfold elementsFrom at h
  cases hv : v.array? with
  | none =>
    rw [hv] at h
    cases h
  | some found =>
    rw [hv] at h
    exact still_inspect _ c s a t h

namespace Spends

theorem bind {x : RunM α} {f : α → RunM (Progress .value)} (hx : x.Still)
    (hf : ∀ a, (f a).Spends ty n) : (x >>= f).Spends ty n := by
  intro c s p t h
  obtain ⟨a, u, ha, h⟩ := bind_eq_ok h
  rw [← hx c s a u ha]
  exact hf a c u p t h

theorem fail (cause : FaultCause) : (fail cause).Spends ty n := fun _ _ _ _ h => nomatch h

theorem ite {b : Prop} [Decidable b] {x y : RunM (Progress .value)} (hx : b → x.Spends ty n)
    (hy : ¬b → y.Spends ty n) : (if b then x else y).Spends ty n := by
  split
  · exact hx ‹_›
  · exact hy ‹_›

/-- A check that may end the computation. -/
theorem check {b : Prop} [Decidable b] {cause : FaultCause} {f : PUnit → RunM (Progress .value)}
    (hf : ¬b → (f ⟨⟩).Spends ty n) :
    (if b then RunM.fail cause >>= f else f ⟨⟩).Spends ty n :=
  ite (fun _ _ _ _ _ h => nomatch h) hf

theorem done {v : Value} (hv : v.ty.isScalar = ty.isScalar) :
    (return .done v : RunM (Progress .value)).Spends ty 0 := by
  rintro c s p t ⟨⟩
  exact ⟨0, 0, .done hv, rfl, rfl⟩

theorem visit {f : Frame .value .value} (hf : (Frames.one f).Owes ty n) (e : Expr)
    (hint : Option StructTy) : (visit e hint (.one f)).Spends ty n := by
  rintro c s p t ⟨⟩
  exact ⟨0, n, .paused hf e hint _ _, rfl, Nat.zero_add n⟩

/-- The cells of a new block are those that its values fill. -/
theorem finish {f : Filling} {made : Array Value}
    (hm : ∀ v ∈ made, v.ty.isScalar = element.isScalar) :
    (finish f made).Spends f.target (made.size * element.unit) := by
  rintro c s p t ⟨⟩
  exact ⟨_, 0, .done rfl, s.heap.scalars_alloc hm, Nat.add_zero _⟩

/-- One more part is a scalar if the others are. -/
theorem isScalar_push {made : Array Value} {v : Value}
    (hm : ∀ w ∈ made, w.ty.isScalar = element.isScalar) (hv : v.ty.isScalar = element.isScalar) :
    ∀ w ∈ made.push v, w.ty.isScalar = element.isScalar := by
  intro w hw
  rcases Array.mem_push.mp hw with hw | rfl
  · exact hm w hw
  · exact hv

section Fill

variable {make : Making → RunM (Progress .value)}
  (hmake : ∀ {ty m}, ty.isPlain = true → m.Makes ty → (make m).Spends ty ty.owned)

include hmake

theorem fillDefaults {f : Filling} (helement : f.element.isPlain = true) (count : Nat) {made : Array Value}
    (hm : ∀ v ∈ made, v.ty.isScalar = f.element.isScalar) :
    (fillDefaults make f count made).Spends f.target
      (made.size * f.element.unit + count * f.element.scalars) := by
  induction count generalizing made with
  | zero =>
    rw [Nat.zero_mul, Nat.add_zero]
    exact finish hm
  | succ count ih =>
    intro c s p t h
    obtain ⟨q, u, hq, h⟩ := bind_eq_ok h
    obtain ⟨k, m, howes, hk, hsum⟩ := hmake (m := .default f.element f.readonly) helement rfl c s q u hq
    have hunit := Ty.owned_add_unit f.element helement
    cases howes with
    | paused hp e hint node previous =>
      cases h
      refine ⟨k, _, .paused (.fill (f := { f with made, next := [], defaults := count }) hp
        ⟨helement, hm, List.forall_mem_nil _⟩) e hint node previous, hk, ?_⟩
      simp only [List.length_nil, Nat.zero_add, Nat.add_mul, Nat.one_mul]
      omega
    | @done v hv =>
      dsimp only at h
      split at h
      · rename_i hscalar
        have hall : ∀ w ∈ made ++ Array.replicate (count + 1) v,
            w.ty.isScalar = f.element.isScalar := by
          intro w hw
          rcases Array.mem_append.mp hw with hw | hw
          · exact hm w hw
          · rw [(Array.mem_replicate.mp hw).2, hv]
        obtain ⟨k', m', howes', hk', hsum'⟩ := finish hall c u p t h
        refine ⟨k', m', howes', ?_, ?_⟩
        · rw [hk', hk, (by rw [Ty.owned_of_isScalar hscalar] at hsum; omega : k = 0), Nat.add_zero]
        · rw [hsum', Array.size_append, Array.size_replicate, ← hunit,
            Ty.owned_of_isScalar hscalar, Nat.zero_add, Nat.add_mul]
      · obtain ⟨k', m', howes', hk', hsum'⟩ := ih (isScalar_push hm hv) c u p t h
        refine ⟨k + k', m', howes', by omega, ?_⟩
        rw [Array.size_push] at hsum'
        simp only [Nat.add_mul, Nat.one_mul] at hsum' ⊢
        omega

theorem fillNext {f : Filling} (helement : f.element.isPlain = true) {next : List Making} {made : Array Value}
    (hn : ∀ m ∈ next, m.Makes f.element) (hm : ∀ v ∈ made, v.ty.isScalar = f.element.isScalar) :
    (fillNext make f next made).Spends f.target
      (made.size * f.element.unit + (next.length + f.defaults) * f.element.scalars) := by
  induction next generalizing made with
  | nil =>
    rw [List.length_nil, Nat.zero_add]
    exact fillDefaults hmake helement f.defaults hm
  | cons first rest ih =>
    intro c s p t h
    obtain ⟨hfirst, hrest⟩ := List.forall_mem_cons.mp hn
    obtain ⟨q, u, hq, h⟩ := bind_eq_ok h
    obtain ⟨k, m, howes, hk, hsum⟩ := hmake helement hfirst c s q u hq
    have hunit := Ty.owned_add_unit f.element helement
    cases howes with
    | paused hp e hint node previous =>
      cases h
      refine ⟨k, _, .paused (.fill (f := { f with made, next := rest }) hp
        ⟨helement, hm, hrest⟩) e hint node previous, hk, ?_⟩
      simp only [List.length_cons, Nat.add_mul, Nat.one_mul]
      omega
    | @done v hv =>
      obtain ⟨k', m', howes', hk', hsum'⟩ := ih hrest (isScalar_push hm hv) c u p t h
      refine ⟨k + k', m', howes', by omega, ?_⟩
      rw [Array.size_push] at hsum'
      simp only [List.length_cons, Nat.add_mul, Nat.one_mul] at hsum' ⊢
      omega

/-- An object none of whose parts is made yet. -/
theorem fillParts {f : Filling} (helement : f.element.isPlain = true) {next : List Making}
    (hn : ∀ m ∈ next, m.Makes f.element) :
    (RunM.fillNext make f next #[]).Spends f.target
      ((next.length + f.defaults) * f.element.scalars) := by
  have hnone : ∀ v ∈ (#[] : Array Value), v.ty.isScalar = f.element.isScalar := by simp
  have h := fillNext hmake helement hn hnone
  rwa [List.size_toArray, List.length_nil, Nat.zero_mul, Nat.zero_add] at h

theorem fillArray (helement : element.isPlain = true) (size : Nat) (items : List Initializer)
    (readonly : Bool) (hint : Option StructTy) (outermost : Bool) :
    (fillArray make (.array element size) element size items readonly hint outermost).Spends
      (.array element size) (size * element.scalars) := by
  have hparts : ∀ m ∈ items.map (ofItem element readonly hint), m.Makes element := by
    intro m hm
    obtain ⟨item, -, rfl⟩ := List.mem_map.mp hm
    cases item with
    | expr e => rfl
    | list span items =>
      cases element with
      | array | struct => rfl
      | _ => trivial
  unfold RunM.fillArray
  refine check fun hsizes => ?_
  have hle : items.length ≤ size := by
    refine Nat.le_of_not_lt fun hlt => hsizes ?_
    rw [decide_eq_true hlt, Bool.true_or]
  dsimp only
  split
  · exact visit (.single helement hle readonly) _ _
  · have hfill := fillParts hmake (f := ⟨.array element size, readonly, #[], [],
      size - items.length, element⟩) helement hparts
    rw [List.length_map, Nat.add_sub_cancel' hle] at hfill
    exact hfill

end Fill

theorem makeWithin (depth : Nat) {ty : Ty} {m : Making} (hp : ty.isPlain = true)
    (hm : m.Makes ty) : (makeWithin depth m).Spends ty ty.owned := by
  induction depth generalizing ty m with
  | zero => exact fail _
  | succ depth ih =>
    cases m with
    | default ty' readonly =>
      obtain rfl : ty' = ty := hm
      cases ty' with
      | arith k =>
        refine done ?_
        split <;> rfl
      | array element size =>
        have helement : element.isPlain = true := hp
        have hfill := fillParts ih (f := ⟨.array element size, readonly, #[], [], size, element⟩)
          helement (List.forall_mem_nil _)
        rw [List.length_nil, Nat.zero_add] at hfill
        exact hfill
      | pointer _ _ | functionPointer _ => exact done rfl
      | struct name fields => cases hp
      | void => exact done rfl
      | function _ | marker => exact fail _
    | initial ty' init readonly hint =>
      obtain rfl : ty' = ty := hm
      cases init with
      | expr e =>
        simp only [RunM.makeWithin]
        split
        · rename_i harray
          cases ty' with
          | array element size =>
            have helement : element.isPlain = true := hp
            exact visit (.arrayFrom helement size readonly) _ _
          | _ => cases harray
        · have hs : ty'.isScalar = true :=
            Ty.isScalar_of_not_isArray hp (Bool.eq_false_iff.mpr ‹_›)
          rw [Ty.owned_of_isScalar hs]
          exact bind (still_inspect _) fun _ => visit (.convert hs readonly) _ _
      | list span items =>
        simp only [RunM.makeWithin]
        split
        · rename_i element size
          have helement : element.isPlain = true := hp
          exact fillArray ih helement _ _ _ _ _
        · cases hp
        · exact ih hp rfl
        · exact ih hp rfl
        · exact fail _
        · exact fail _
    | row ty' items readonly hint =>
      obtain rfl : ty' = ty := hm
      cases ty' with
      | array element size =>
        have helement : element.isPlain = true := hp
        exact fillArray ih helement _ _ _ _ _
      | _ => exact fail _
    | struct d items readonly hint => exact hm.elim
    | copy ty' v readonly =>
      obtain ⟨rfl, hs⟩ := hm
      intro c s p t h
      obtain ⟨w, u, hw, h⟩ := bind_eq_ok h
      cases h
      have hstruct (name : String) (ms : List MemberTy) : ty' ≠ .struct name ms := by
        rintro rfl
        cases hs
      obtain ⟨rfl, hconverted⟩ := operate_gives (OperatorM.gives_copy v hstruct) hw
      refine ⟨0, 0, .done ?_, (Nat.add_zero _).symm, (Ty.owned_of_isScalar hs).symm⟩
      change w.ty.isScalar = _
      rw [← Ty.isScalar_named, hconverted.type, Ty.isScalar_named]
    | arrayOf ty' v readonly =>
      obtain rfl : ty' = ty := hm
      cases ty' with
      | array element size =>
        refine bind (still_elementsFrom v) fun source => check fun hsize => ?_
        have hle : source.length ≤ size := Nat.le_of_not_lt hsize
        have helement : element.isPlain = true := hp
        have hparts : ∀ m ∈ source.map fun item =>
            (if element.isArray then .arrayOf element item readonly
            else .copy element item readonly : Making), m.Makes element := by
          intro m hm
          obtain ⟨item, -, rfl⟩ := List.mem_map.mp hm
          split
          · rfl
          · exact ⟨rfl, Ty.isScalar_of_not_isArray helement (Bool.eq_false_iff.mpr ‹_›)⟩
        have hfill := fillParts ih (f := ⟨.array element size, readonly, #[], [],
          size - source.length, element⟩) helement hparts
        rw [List.length_map, Nat.add_sub_cancel' hle] at hfill
        exact hfill
      | _ => exact fail _
    | nested => exact fail _

/-- An object of a plain type owes as many cells as its type has. -/
theorem make {m : Making} (hp : ty.isPlain = true) (hm : m.Makes ty) :
    (make m).Spends ty ty.owned := bind (still_inspect _) fun depth => makeWithin depth hp hm

/-- A cell that is filled anew with a value of its type. -/
theorem scalars_init {p : Place} {first v : Value} {readonly : Bool} {c : Config} {s t : State}
    {a : Unit} (hv : v.ty.named = first.ty.named) (hp : s.heap.load? p = some first)
    (h : discard (onHeap (HeapM.attempt fun h => h.init? p (v.withReadonly readonly))) c s =
      .ok a t) : t.heap.scalars = s.heap.scalars := by
  rw [discard_attempt h]
  cases hinit : s.heap.init? p (v.withReadonly readonly) with
  | none => rfl
  | some heap =>
    refine Heap.scalars_of_keeps (Heap.keeps_of_modify? hinit fun cell hcell => ?_)
      (Heap.size_of_modify? hinit)
    obtain ⟨cell', hcell', rfl⟩ := Option.map_eq_some_iff.mp hp
    rw [hcell] at hcell'
    cases hcell'
    exact hv

theorem scalars_storeIntoFirst (v : Value) (readonly : Bool) : (ty : Ty) → (array : Value) →
    ∀ {c : Config} {s t : State} {a : Unit}, storeIntoFirst v readonly ty array c s = .ok a t →
      t.heap.scalars = s.heap.scalars
  | .array element size, array, c, s, t, a, h => by
    unfold storeIntoFirst at h
    cases harray : array.array? with
    | none =>
      rw [harray] at h
      cases h
      rfl
    | some found =>
      rw [harray] at h
      obtain ⟨o, u, ho, hrest⟩ := bind_eq_ok h
      cases ho
      dsimp only at hrest
      cases hfirst : s.heap.load? (.element found.1 0) with
      | none =>
        rw [hfirst] at hrest
        cases hrest
        rfl
      | some first =>
        rw [hfirst] at hrest
        dsimp only at hrest
        split at hrest
        · exact scalars_storeIntoFirst v readonly element first hrest
        · obtain ⟨w, u, hw, hstore⟩ := bind_eq_ok hrest
          obtain ⟨rfl, hconverted⟩ := operate_gives (.convert v false) hw
          exact scalars_init hconverted.type hfirst hstore
  | .void, _, _, _, _, _, h | .arith _, _, _, _, _, _, h | .pointer .., _, _, _, _, _, h
  | .functionPointer _, _, _, _, _, _, h | .function _, _, _, _, _, _, h
  | .struct .., _, _, _, _, _, h | .marker, _, _, _, _, _, h => by
    cases h
    rfl

theorem storeFirst {array v : Value} {readonly : Bool} (ha : array.ty.isScalar = ty.isScalar) :
    (storeFirst v readonly array).Spends ty 0 := by
  intro c s p t h
  obtain ⟨_, u, hu, h⟩ := bind_eq_ok h
  cases h
  exact ⟨0, 0, .done ha, scalars_storeIntoFirst v readonly _ _ hu, rfl⟩

theorem makeArrayFrom (hp : ty.isPlain = true) (readonly : Bool) (v : Value) :
    (makeArrayFrom ty readonly v).Spends ty ty.owned := by
  refine ite (fun _ => ?_) fun _ => make hp rfl
  exact bind (still_inspect _) fun _ => fun _ _ _ _ h => nomatch h

theorem makeSingle (hp : element.isPlain = true) {size : Nat} (hs : 0 < size) (readonly : Bool)
    (v : Value) : (makeSingle (.array element size) readonly v).Spends (.array element size)
      (size * element.scalars) := by
  refine ite (fun _ => ?_) fun _ => ite (fun _ => ?_) fun _ => bind (still_inspect _) fun _ => fail _
  · have hparts : ∀ m ∈ [Making.arrayOf element v readonly], m.Makes element := by
      intro m hm
      rw [List.mem_singleton.mp hm]
      rfl
    have hfill := fillParts make (f := ⟨.array element size, readonly, #[], [], size - 1, element⟩)
      hp hparts
    rw [List.length_singleton, Nat.add_sub_cancel' hs] at hfill
    exact hfill
  · intro c s p t h
    obtain ⟨q, u, hq, h⟩ := bind_eq_ok h
    have hplain : (Ty.array element size).isPlain = true := hp
    obtain ⟨k, m, howes, hk, hsum⟩ := make (m := .default (.array element size) readonly) hplain rfl
      c s q u hq
    cases howes with
    | done hv =>
      obtain ⟨k', m', howes', hk', hsum'⟩ := storeFirst hv c u p t h
      exact ⟨k + k', m', howes', by omega, by rw [← Ty.owned_array]; omega⟩
    | paused hpath e hint node previous =>
      cases h
      exact ⟨k, m, .paused (.storeFirst hpath v readonly) e hint node previous, hk, hsum⟩

/-- The frame at the end of the path goes on with the object that the frames before it make. -/
theorem append {path : Frames .value .value} {frame : Frame .value .value} {v : Value}
    {outer : Ty} (extra : Nat) (hpath : (RunM.resumeFrames path v).Spends ty n)
    (hdone : ∀ w : Value, w.ty.isScalar = ty.isScalar → (resumeFrame frame w).Spends outer extra)
    (hpaused : ∀ {path : Frames .value .value} {m : Nat}, path.Owes ty m →
      (path ++ Frames.one frame).Owes outer (m + extra)) :
    (RunM.resumeFrames (path ++ Frames.one frame) v).Spends outer (n + extra) := by
  rw [resumeFrames_append]
  intro c s p t h
  rcases within_eq_ok h with ⟨w, u, hw, hr⟩ | ⟨j, q, inner, hq, rfl⟩
  · obtain ⟨k, m, howes, hk, hsum⟩ := hpath c s _ u hw
    cases howes with
    | done hv =>
      rw [resumeFrames_one] at hr
      obtain ⟨k', m', howes', hk', hsum'⟩ := hdone w hv c u p t hr
      exact ⟨k + k', m', howes', by omega, by omega⟩
  · obtain ⟨k, m, howes, hk, hsum⟩ := hpath c s _ t hq
    cases howes with
    | paused hp e hint node previous =>
      exact ⟨k, _, .paused (hpaused hp) e hint node previous, hk, by omega⟩

/-- What is left of the making goes on with the value of its initializer. -/
theorem resumeFrames {path : Frames .value .value} (hp : path.Owes ty n) (v : Value) :
    (resumeFrames path v).Spends ty n := by
  induction hp with
  | convert hs readonly =>
    rw [resumeFrames_one, ← Ty.owned_of_isScalar hs]
    exact make (Ty.isPlain_of_isScalar hs) ⟨rfl, hs⟩
  | @arrayFrom element hp size readonly =>
    rw [resumeFrames_one]
    have hplain : (Ty.array element size).isPlain = true := hp
    exact makeArrayFrom hplain readonly v
  | single hp hs readonly =>
    rw [resumeFrames_one]
    exact makeSingle hp hs readonly v
  | @fill f n path hp hf ih =>
    refine append _ ih (fun w hw => ?_) fun hpath => .fill hpath hf
    have hnext := fillNext make hf.element hf.next (isScalar_push hf.made hw)
    rwa [Array.size_push] at hnext
  | storeFirst hp v' readonly ih =>
    exact append 0 ih (fun w hw => storeFirst hw) fun hpath => .storeFirst hpath v' readonly

end Spends

/-- The making of an object allocates a number of scalar cells by itself. What the evaluation of
its initializers does in between is not counted. -/
inductive Allocates (c : Config) : Progress .value → State → Nat → Value → State → Prop
  | done (v : Value) (s : State) : Allocates c (.done v) s 0 v s
  | initializer {e : Expr} {hint : Option StructTy} {node : Node} {previous : Option Node}
    {path : Frames .value .value} {s u u' t : State} {fs : List (Console → Console)} {w v : Value}
    {p : Progress .value} {k n : Nat}
    (he : drive fs (.paused (.expr e hint) (.one (.leave node previous))) c s = .ok (.done w) u)
    (hr : RunM.resumeFrames path w c u = .ok p u') (hk : u'.heap.scalars = u.heap.scalars + k)
    (hp : Allocates c p u' n v t) :
    Allocates c (.paused (.expr e hint) (.cons (.leave node previous) path)) s (k + n) v t

/-- However its making is driven to the end, an object gets the cells that are owed. -/
theorem allocates_of_drive {p : Progress .value} {c : Config} {s t : State} {v : Value}
    (hp : p.Owes ty n) {fs : List (Console → Console)} (h : drive fs p c s = .ok (.done v) t) :
    Allocates c p s n v t ∧ v.ty.isScalar = ty.isScalar := by
  induction hlen : fs.length using Nat.strongRecOn generalizing fs p s n with
  | _ len ih =>
    cases hp with
    | done hv =>
      rw [drive_done] at h
      cases h
      exact ⟨.done _ _, hv⟩
    | @paused n path hpath e hint node previous =>
      obtain ⟨gs, hs, w, u, -, hlt, he, hr⟩ := drive_inside path (.one (.leave node previous)) h
      obtain ⟨q, u', hq, hd⟩ := bind_eq_ok hr
      obtain ⟨k, m, howes, hk, rfl⟩ := Spends.resumeFrames hpath w c u q u' hq
      obtain ⟨hrest, hv⟩ := ih _ (hlen ▸ hlt) howes hd rfl
      exact ⟨.initializer he hq hk hrest, hv⟩

/-- The computation makes an object and allocates a number of scalar cells for it. -/
inductive Fills (x : RunM (Progress .value)) (c : Config) (s : State) (n : Nat) (v : Value)
    (t : State) : Prop
  | mk {p : Progress .value} {u : State} {k m : Nat} (hx : x c s = .ok p u)
    (hk : u.heap.scalars = s.heap.scalars + k) (hp : Allocates c p u m v t) (hn : k + m = n)

theorem Spends.fills {x : RunM (Progress .value)} (hx : x.Spends ty n) {c : Config} {s t : State}
    {v : Value} (h : x.Completes c s v t) : x.Fills c s n v t ∧ v.ty.isScalar = ty.isScalar := by
  obtain ⟨fs, hd⟩ := h
  obtain ⟨p, u, hp, hd⟩ := bind_eq_ok hd
  obtain ⟨k, m, howes, hk, hsum⟩ := hx c s p u hp
  obtain ⟨hrest, hv⟩ := allocates_of_drive howes hd
  exact ⟨.mk hp hk hrest hsum, hv⟩

end RunM

end Stepwise
