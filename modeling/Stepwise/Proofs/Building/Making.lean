import Stepwise.Machine.Declare
import Stepwise.Proofs.Building.Objects
import Stepwise.Proofs.Closure.Drives
import Stepwise.Proofs.Confinement.Runs

/-! # Objects are built as initializers say

What is made stays hidden until its object is complete: nothing leads to it, so the evaluation of
further initializers leaves it as it is. A suspended making goes on for fewer steps, so by induction
on the number of steps, and on the depth of objects, a making that completes builds an object, and
the blocks of the object are new.
-/

namespace Stepwise

/-! ## What initializers say

The object of a variable, part by part in the order of its parts. The parts of an array are the items
of a list, or the elements of another array, and those of a struct are the items, or the initializers
of its definition; what is left gets the default of its type. An expression is evaluated when its part
is reached, so objects are built from one state to another. Struct definitions that were looked up,
and objects that were copied, are kept track of.
-/

section Initializers

/-- The value of a scalar without an initializer. -/
def Ty.zero? : Ty → Option Value
  | arith k => some (if k.isFloat then .float k 0.0 else .int k 0)
  | pointer target readonly => some (.null (.pointer target readonly))
  | functionPointer sig => some (.null (.functionPointer sig))
  | void => some .void
  | _ => none

/-- The top of an array or a struct. -/
def Ty.shell (ty : Ty) (readonly : Bool) : Value :=
  (Value.fresh ty (match ty with
    | .struct .. => .struct 0
    | _ => .array (some 0) 0)).withReadonly readonly

/-- What the shape of an object depends on besides its type: the definition of a struct, as it was
when the struct was filled, and an object that a struct was copied from. -/
inductive Origin
  | definition (name : String) (fields : List MemberTy) (d : StructTy)
  | copy (ty : Ty) (o : Object)

namespace Object

/-- The second object is the first one with another value in its first scalar, if it has one. -/
inductive StoresFirst (value : Value → Value → Prop) : Object → Object → Prop
  | empty {v : Value} : StoresFirst value (.mk v []) (.mk v [])
  | row {v : Value} {first first' : Object} {rest : List Object} :
    first.contents.ty.isArray = true → StoresFirst value first first' →
    StoresFirst value (.mk v (first :: rest)) (.mk v (first' :: rest))
  | scalar {v w : Value} {first : Object} {rest : List Object} :
    first.contents.ty.isArray = false → value first.contents w →
    StoresFirst value (.mk v (first :: rest)) (.mk v (.mk w [] :: rest))

end Object

namespace Making

/-- A list for an array. One inside the list of another array is empty, or has as many items as the
array has elements. -/
inductive Lists (element : Ty) (size : Nat) (items : List Initializer) (readonly : Bool)
    (hint : Option StructTy) : Making → Prop
  | outermost (span : Span) : items.length ≤ size →
    Lists element size items readonly hint
      (.initial (.array element size) (.list span items) readonly hint)
  | inner : items = [] ∨ items.length = size →
    Lists element size items readonly hint (.row (.array element size) items readonly hint)

/-- A list for a struct, which is empty if there is none. -/
inductive Fields (name : String) (fields : List MemberTy) (readonly : Bool) :
    List Initializer → Option StructTy → Making → Prop
  | none : Fields name fields readonly [] none (.default (.struct name fields) readonly)
  | list (span : Span) (items : List Initializer) (hint : Option StructTy) :
    Fields name fields readonly items hint
      (.initial (.struct name fields) (.list span items) readonly hint)

/-- What an array part needs from an element of another array. -/
def ofElement (element : Ty) (readonly : Bool) (item : Value) : Making :=
  if element.isArray then .arrayOf element item readonly else .copy element item readonly

/-- The top of an array or a struct, and what its parts are made from. -/
inductive Slots (s : State) : Making → Value → List Making → List Origin → Prop
  | default {element : Ty} {size : Nat} {readonly : Bool} :
    Slots s (.default (.array element size) readonly) ((Ty.array element size).shell readonly)
      (List.replicate size (.default element readonly)) []
  | list {m : Making} {element : Ty} {size : Nat} {items : List Initializer} {readonly : Bool}
    {hint : Option StructTy} : m.Lists element size items readonly hint →
    (element.isArray = true → ∀ e, items ≠ [.expr e]) →
    Slots s m ((Ty.array element size).shell readonly)
      (items.map (RunM.ofItem element readonly hint) ++
        List.replicate (size - items.length) (.default element readonly)) []
  | members {m : Making} {name : String} {fields : List MemberTy} {items : List Initializer}
    {readonly : Bool} {hint : Option StructTy} {d : StructTy} :
    m.Fields name fields readonly items hint → s.currentStruct name fields = d →
    items.length ≤ d.members.length →
    Slots s m (d.type.shell readonly) (RunM.members readonly hint d.members items)
      [.definition name fields d]
  | elements {v : Value} {element : Ty} {size : Nat} {readonly : Bool} {store : BlockId}
    {position : Int} {source : List Value} : v.array? = some (store, position) →
    (s.heap.cells store).toList.drop position.toNat = source → source.length ≤ size →
    Slots s (.arrayOf (.array element size) v readonly) ((Ty.array element size).shell readonly)
      (source.map (ofElement element readonly) ++
        List.replicate (size - source.length) (.default element readonly)) []

end Making

namespace RunM

/-- A number that is converted takes the place of a scalar, which stays constant if it is. -/
def Stores (c : Config) (s : State) (v : Value) (readonly : Bool) (first new : Value) : Prop :=
  ∃ w, operate (OperatorM.convert v first.ty false) c s = .ok w s ∧
    new = (w.withReadonly (readonly || first.readonly)).contents

/-- Objects that are built one after the other, from the first state to the second one. -/
inductive Constructs (c : Config) :
    List Making → State → List Object → State → List Origin → Prop
  | nil {s : State} : Constructs c [] s [] s []
  | cons {m : Making} {ms : List Making} {s t u : State} {o : Object} {os : List Object}
    {l l' : List Origin} : Constructs c [m] s [o] t l → Constructs c ms t os u l' →
    Constructs c (m :: ms) s (o :: os) u (l ++ l')
  | parts {m : Making} {s t : State} {v : Value} {ms : List Making} {os : List Object}
    {cells : Array Value} {F : List BlockId} {l l' : List Origin} : m.Slots s v ms l →
    Constructs c ms s os t l' → t.heap.Represents os cells.toList F →
    Constructs c [m] s [.mk v os] { t with heap := (t.heap.alloc cells).2 } (l ++ l')
  | zero {ty : Ty} {readonly : Bool} {s : State} {v : Value} : ty.zero? = some v →
    Constructs c [.default ty readonly] s [.mk (v.withReadonly readonly) []] s []
  | braces {ty : Ty} {span : Span} {readonly : Bool} {hint : Option StructTy} {s t : State}
    {o : Object} {l : List Origin} : ty.isScalar = true →
    Constructs c [.default ty readonly] s [o] t l →
    Constructs c [.initial ty (.list span []) readonly hint] s [o] t l
  | braced {ty : Ty} {span : Span} {e : Expr} {readonly : Bool} {hint : Option StructTy}
    {s t : State} {o : Object} {l : List Origin} : ty.isScalar = true →
    Constructs c [.initial ty (.expr e) readonly hint] s [o] t l →
    Constructs c [.initial ty (.list span [.expr e]) readonly hint] s [o] t l
  | value {ty : Ty} {e : Expr} {readonly : Bool} {hint : Option StructTy} {s t u : State}
    {v : Value} {o : Object} {l : List Origin} : ty.isArray = false →
    (visit e (s.structOf? ty) .nil).Completes c s v t → Constructs c [.copy ty v readonly] t [o] u l →
    Constructs c [.initial ty (.expr e) readonly hint] s [o] u l
  | array {ty : Ty} {e : Expr} {readonly : Bool} {hint : Option StructTy} {s t u : State}
    {v : Value} {o : Object} {l : List Origin} : ty.isArray = true →
    (visit e hint .nil).Completes c s v t → v.ty.isArray = true →
    Constructs c [.arrayOf ty v readonly] t [o] u l →
    Constructs c [.initial ty (.expr e) readonly hint] s [o] u l
  | converted {ty : Ty} {v w : Value} {readonly : Bool} {s : State} : ty.isScalar = true →
    operate (OperatorM.convert v ty false) c s = .ok w s →
    Constructs c [.copy ty v readonly] s [.mk (w.withReadonly readonly).contents []] s []
  | copied {name : String} {fields : List MemberTy} {v w : Value} {readonly : Bool} {s t : State}
    {o : Object} {F : List BlockId} : s.heap.Represents [o] [v] F →
    operate (OperatorM.copy v (.struct name fields)) c s = .ok w t →
    Constructs c [.copy (.struct name fields) v readonly] s [o.withReadonly readonly] t
      [.copy (.struct name fields) o]
  -- Lists of one expression for an array of arrays: its first row, or `0` or `-1`.
  | row {m : Making} {element : Ty} {size : Nat} {e : Expr} {readonly : Bool}
    {hint : Option StructTy} {s t u : State} {v : Value} {os : List Object} {cells : Array Value}
    {F : List BlockId} {l : List Origin} : m.Lists element size [.expr e] readonly hint →
    element.isArray = true → (visit e hint .nil).Completes c s v t → v.ty.isArray = true →
    Constructs c (.arrayOf element v readonly ::
      List.replicate (size - 1) (.default element readonly)) t os u l →
    u.heap.Represents os cells.toList F →
    Constructs c [m] s [.mk ((Ty.array element size).shell readonly) os]
      { u with heap := (u.heap.alloc cells).2 } l
  | scalar {m : Making} {element : Ty} {size : Nat} {e : Expr} {readonly : Bool}
    {hint : Option StructTy} {s t u : State} {v w : Value} {o o' : Object} {heap : Heap}
    {F : List BlockId} {l : List Origin} : m.Lists element size [.expr e] readonly hint →
    element.isArray = true → (visit e hint .nil).Completes c s v t → v.ty.isIntegral = true →
    v.int? = some 0 ∨ v.int? = some (-1) →
    Constructs c [.default (.array element size) readonly] t [o] u l →
    o.StoresFirst (Stores c u v readonly) o' →
    u.heap.Represents [o] [w] F → heap.Represents [o'] [w] F →
    (∀ b ∉ F, heap.cells b = u.heap.cells b) → Constructs c [m] s [o'] { u with heap } l

/-- The type of a variable, and the object that its initializer builds. A bound that is left open is
the number of items or elements. -/
inductive Initializes (c : Config) (d : Declared) :
    Option Initializer → State → Ty → Object → State → List Origin → Prop
  | default {s t : State} {o : Object} {l : List Origin} : d.openBound = false →
    Constructs c [.default d.type d.readonly] s [o] t l → Initializes c d none s d.type o t l
  | initial {init : Initializer} {s t : State} {o : Object} {l : List Origin} :
    d.openBound = false → Constructs c [.initial d.type init d.readonly none] s [o] t l →
    Initializes c d (some init) s d.type o t l
  | items {element : Ty} {span : Span} {items : List Initializer} {s t : State} {o : Object}
    {l : List Origin} : d.openBound = true → d.type.pointee? = some element →
    Constructs c [.initial (.array element items.length) (.list span items) d.readonly none] s [o] t l →
    Initializes c d (some (.list span items)) s (.array element items.length) o t l
  | elements {element : Ty} {e : Expr} {s t u : State} {v : Value} {store : BlockId}
    {position : Int} {source : List Value} {o : Object} {l : List Origin} : d.openBound = true →
    d.type.pointee? = some element → (visit e none .nil).Completes c s v t →
    v.array? = some (store, position) →
    (t.heap.cells store).toList.drop position.toNat = source →
    Constructs c [.arrayOf (.array element source.length) v d.readonly] t [o] u l →
    Initializes c d (some (.expr e)) s (.array element source.length) o u l

end RunM

end Initializers

/-! ## Objects that are made -/

open Heap

namespace State

variable {H K K' : Set BlockId} {s t u : State}

/-- Nothing is read from hidden blocks, so there may be fewer of them as far as names go. -/
theorem Names.beside {R : Set BlockId} (hn : s.Names R) (hs : t.scopes = s.scopes)
    (hns : t.namespaces = s.namespaces) : t.Names R :=
  ⟨hs ▸ hn.scopes, hns ▸ hn.namespaces⟩

/-- New blocks are hidden if the cells outside of the hidden blocks are those from before. -/
theorem Hides.widen (hs : s.Hides K) {heap : Heap} (hclosed : heap.Closed)
    (hfounded : heap.Founded) (held : ∀ b ∈ K', b < heap.blocks.size)
    (hreach : s.reach K ⊆ heap.reach K')
    (hcells : ∀ b ∉ K', ∀ cell ∈ heap.cells b, b ∉ K ∧ cell ∈ s.heap.cells b) :
    State.Hides K' { s with heap } := by
  refine ⟨⟨⟨held, fun b hb cell hcell => ?_⟩, hclosed, hfounded⟩,
    (hs.names.mono hreach).beside rfl rfl⟩
  obtain ⟨hb, hcell⟩ := hcells b hb cell hcell
  exact (hs.heap.cells b hb cell hcell).mono hreach

end State

namespace RunM

variable {c : Config} {H : Set BlockId} {s t u : State} {os os' : List Object} {vs vs' : List Value}
  {F F' : List BlockId} {o : Object} {v w : Value} {n : Nat}

/-- From the first state to the second one, values came to represent objects. Their footprint is new,
nothing leads to it, and what is hidden has stayed as it was. -/
structure Yields (H : Set BlockId) (s t : State) (os : List Object) (vs : List Value)
    (F : List BlockId) : Prop where
  passes : s.PassesBy ∅ t
  same : ∀ b ∈ H, t.heap.cells b = s.heap.cells b
  lies : ∀ v ∈ vs, v.Lies (t.reach ∅)
  represents : t.heap.Represents os vs F
  nodup : F.Nodup
  fresh : ∀ b ∈ F, s.heap.blocks.size ≤ b
  hides : t.Hides (H ∪ {b | b ∈ F})

namespace Yields

/-- Nothing is made, or what owns nothing. -/
theorem of_nil (hs : s.Hides ∅) (hh : s.Hides H) (hv : ∀ v ∈ vs, v.Lies (s.reach ∅))
    (ho : s.heap.Represents os vs []) : Yields H s s os vs [] where
  passes := .refl hs
  same _ _ := rfl
  lies := hv
  represents := ho
  nodup := .nil
  fresh := List.forall_mem_nil _
  hides := by
    have hempty : {b | b ∈ ([] : List BlockId)} = (∅ : Set BlockId) :=
      Set.eq_empty_of_forall_notMem fun _ => List.not_mem_nil
    rwa [hempty, Set.union_empty]

theorem append (hy : Yields H s t os vs F)
    (hy' : Yields (H ∪ {b | b ∈ F}) t u os' vs' F') :
    Yields H s u (os ++ os') (vs ++ vs') (F ++ F') where
  passes := hy.passes.trans hy'.passes
  same b hb := (hy'.same b (.inl hb)).trans (hy.same b hb)
  lies := List.forall_mem_append.mpr
    ⟨fun v hv => (hy.lies v hv).mono hy'.passes.reach, hy'.lies⟩
  represents := (hy.represents.congr fun b hb => hy'.same b (.inr hb)).append hy'.represents
  nodup := by
    refine List.nodup_append'.mpr ⟨hy.nodup, hy'.nodup, fun b hb hb' => ?_⟩
    exact Nat.not_lt_of_le (hy'.fresh b hb') (hy.hides.heap.held b (.inr hb))
  fresh := List.forall_mem_append.mpr
    ⟨hy.fresh, fun b hb => Nat.le_trans hy.passes.heap.blocks (hy'.fresh b hb)⟩
  hides := by
    have hunion : H ∪ {b | b ∈ F ++ F'} = H ∪ {b | b ∈ F} ∪ {b | b ∈ F'} := by
      rw [Set.union_assoc]
      exact congrArg _ (Set.ext fun b => List.mem_append)
    exact hunion ▸ hy'.hides

/-- What was done before made nothing. -/
theorem after (hp : s.PassesBy ∅ t) (hh : s.PassesBy H t) (hy : Yields H t u os vs F) :
    Yields H s u os vs F where
  passes := hp.trans hy.passes
  same b hb := (hy.same b hb).trans (hh.heap.same b hb)
  lies := hy.lies
  represents := hy.represents
  nodup := hy.nodup
  fresh b hb := Nat.le_trans hp.heap.blocks (hy.fresh b hb)
  hides := hy.hides

/-- The objects become the parts of another one. -/
theorem alloc {cells : Array Value} (hy : Yields H s t os cells.toList F)
    (hb : v.block? = some t.heap.blocks.size)
    (hv : v.Lies (State.reach { t with heap := (t.heap.alloc cells).2 } ∅)) :
    Yields H s { t with heap := (t.heap.alloc cells).2 } [.mk v.contents os] [v]
      (t.heap.blocks.size :: F) := by
  have hcells (cell : Value) (hm : cell ∈ cells) : cell.Lies (t.reach ∅) :=
    hy.lies cell (Array.mem_toList_iff.mpr hm)
  have hpasses : t.PassesBy ∅ { t with heap := (t.heap.alloc cells).2 } :=
    .onHeap hy.passes.hides (.alloc hy.passes.hides.heap hcells)
  have hsize : (t.heap.alloc cells).2.blocks.size = t.heap.blocks.size + 1 := Array.size_push _
  have hlt (b : BlockId) (hm : b ∈ H ∨ b ∈ F) : b < t.heap.blocks.size := hy.hides.heap.held b hm
  have hsame (b : BlockId) (hm : b ∈ H ∨ b ∈ F) :
      (t.heap.alloc cells).2.cells b = t.heap.cells b := by
    rw [cells_alloc, if_neg (Nat.ne_of_lt (hlt b hm))]
  refine ⟨hy.passes.trans hpasses, fun b hm => (hsame b (.inl hm)).trans (hy.same b hm),
    List.forall_mem_singleton.mpr hv, ?_, ?_, ?_, ?_⟩
  · have hnew : (t.heap.alloc cells).2.cells t.heap.blocks.size = cells := by
      rw [cells_alloc, if_pos rfl]
    have hparts : (t.heap.alloc cells).2.Represents os
        ((t.heap.alloc cells).2.cells t.heap.blocks.size).toList F := by
      rw [hnew]
      exact hy.represents.congr fun b hm => hsame b (.inr hm)
    exact .of_block hb hparts
  · exact List.nodup_cons.mpr ⟨fun hm => Nat.lt_irrefl _ (hlt _ (.inr hm)), hy.nodup⟩
  · exact List.forall_mem_cons.mpr ⟨hy.passes.heap.blocks, hy.fresh⟩
  · refine hy.hides.widen hpasses.hides.heap.closed hpasses.hides.heap.founded (fun b hm => ?_)
      (fun b hm => ⟨hsize ▸ Nat.lt_succ_of_lt hm.1, ?_⟩) fun b hm cell hcell => ?_
    · rw [hsize]
      rcases hm with hm | hm
      · exact Nat.lt_succ_of_lt (hlt b (.inl hm))
      · rcases List.mem_cons.mp hm with rfl | hm
        · exact Nat.lt_succ_self _
        · exact Nat.lt_succ_of_lt (hlt b (.inr hm))
    · rintro (hb | hb)
      · exact hm.2 (.inl hb)
      · rcases List.mem_cons.mp hb with rfl | hb
        · exact Nat.lt_irrefl _ hm.1
        · exact hm.2 (.inr hb)
    · rw [cells_alloc] at hcell
      split at hcell
      · subst b
        exact absurd (.inr List.mem_cons_self) hm
      · exact ⟨fun hb => hm (hb.imp_right fun hb => List.mem_cons_of_mem _ hb), hcell⟩

/-- A struct is copied. -/
theorem deepCopy (hs : s.Hides ∅) (hh : s.Hides H) (hv : v.Lies (s.reach ∅))
    (ho : s.heap.Represents [o] [v] F) : ∃ F', let r := (HeapM.deepCopy v).run s.heap
      Yields H s { s with heap := r.2 } [o.withReadonly false] [r.1] F' := by
  have hheap := hs.heap
  obtain ⟨F', hrenewed⟩ := HeapM.renewed_deepCopy hheap.closed hheap.founded (covers_of_lies hv) ho
  have hgrows := (HeapM.duplicates_deepCopy hheap.closed (covers_of_lies hv)).grows
  obtain ⟨hpasses, hw⟩ := HeapM.passesBy_deepCopy hheap hv
  have hsame (b : BlockId) (hb : b < s.heap.blocks.size) :
      ((HeapM.deepCopy v).run s.heap).2.cells b = s.heap.cells b :=
    Array.ext_getElem? fun i => hgrows.cells b hb i id
  refine ⟨F', .onHeap hs hpasses, fun b hb => hsame b (hh.heap.held b hb),
    List.forall_mem_singleton.mpr hw.toLies, hrenewed.represents, hrenewed.nodup,
    fun b hb => ((hrenewed.mem_iff b).mp hb).1, ?_⟩
  refine hh.widen hpasses.hides.closed hpasses.hides.founded (fun b hb => ?_)
    (fun b hb => ⟨Nat.lt_of_lt_of_le hb.1 hgrows.blocks, ?_⟩) fun b hb cell hcell => ?_
  · rcases hb with hb | hb
    · exact Nat.lt_of_lt_of_le (hh.heap.held b hb) hgrows.blocks
    · exact ((hrenewed.mem_iff b).mp hb).2
  · rintro (hm | hm)
    · exact hb.2 hm
    · exact Nat.not_lt_of_le ((hrenewed.mem_iff b).mp hm).1 hb.1
  · have hlt : b < s.heap.blocks.size := by
      refine Nat.lt_of_not_le fun hle => hb (.inr ((hrenewed.mem_iff b).mpr ⟨hle, ?_⟩))
      exact lt_size_of_mem_cells hcell
    exact ⟨fun hm => hb (.inl hm), hsame b hlt ▸ hcell⟩

theorem withReadonly (hy : Yields H s t [o] [v] F) (r : Bool) :
    Yields H s t [o.withReadonly r] [v.withReadonly r] F where
  passes := hy.passes
  same := hy.same
  lies := List.forall_mem_singleton.mpr
    ((List.forall_mem_singleton.mp hy.lies).withReadonly r)
  represents := hy.represents.withReadonly r
  nodup := hy.nodup
  fresh := hy.fresh
  hides := hy.hides

end Yields

section Fill

variable {f : Filling} {ms next : List Making} {made : Array Value} {l l' : List Origin}
  {make : Making → RunM (Progress .value)}

/-- Parts are made after those that are there, and then all of them are put into a block. -/
def Filled (f : Filling) (made : Array Value) (H : Set BlockId) (c : Config) (s : State)
    (ms : List Making) (v : Value) (t : State) : Prop :=
  ∃ os cells F l u, Constructs c ms s os u l ∧ Yields H s u os cells F ∧
    finish f (made ++ cells.toArray) c u = .ok (.done v) t

/-- Parts come from initializers, defaults and elements; structs come with what they are filled
from. -/
def IsPart : Making → Prop
  | .struct .. => False
  | .copy ty _ _ => ty.isArray = false
  | _ => True

/-- Some object is built, and the value represents it. -/
def Built (H : Set BlockId) (c : Config) (s : State) (m : Making) (v : Value) (t : State) : Prop :=
  ∃ o F l, Constructs c [m] s [o] t l ∧ Yields H s t [o] [v] F

/-- What is made in so many steps is built. -/
def BuildsIn (n : Nat) (make : Making → RunM (Progress .value)) : Prop :=
  ∀ (m : Making) (c : Config) (H : Set BlockId) (s : State) (v : Value) (t : State), IsPart m →
    m.Within (s.reach ∅) → s.Hides ∅ → s.Hides H → (make m).CompletesIn n c s v t →
    Built H c s m v t

/-- What is filled in so many steps is filled with objects that are built. -/
def FillsIn (n : Nat) (make : Making → RunM (Progress .value)) : Prop :=
  ∀ (f : Filling) (next : List Making) (made : Array Value) (c : Config) (H : Set BlockId)
    (s : State) (v : Value) (t : State), (∀ m ∈ next, IsPart m) → (∀ m ∈ next, m.Within (s.reach ∅)) →
    s.Hides ∅ → s.Hides H → (fillNext make f next made).CompletesIn n c s v t →
    Filled f made H c s (next ++ List.replicate f.defaults (.default f.element f.readonly)) v t

theorem fillNext_cons (m : Making) (made : Array Value) :
    fillNext make f (m :: next) made = make m >>= fun p =>
      p.andThen (.fill { f with made, next }) fun v => fillNext make f next (made.push v) :=
  bind_congr fun p => by cases p <;> rfl

theorem fillDefaults_succ (count : Nat) (made : Array Value) :
    fillDefaults make f (count + 1) made = make (.default f.element f.readonly) >>= fun p =>
      p.andThen (.fill { f with made, next := [], defaults := count }) fun v =>
        if f.element.isScalar then finish f (made ++ Array.replicate (count + 1) v)
        else fillDefaults make f count (made.push v) :=
  bind_congr fun p => by cases p <;> rfl

theorem finish_of_completesIn (h : (finish f made).CompletesIn n c s v t) :
    finish f made c s = .ok (.done v) t := by
  obtain ⟨store, u, ha, hd⟩ := completesIn_bind h
  obtain ⟨rfl, rfl⟩ := completesIn_done hd
  cases ha
  rfl

theorem Filled.nil (hs : s.Hides ∅) (hh : s.Hides H) (h : finish f made c s = .ok (.done v) t) :
    Filled f made H c s [] v t := by
  refine ⟨[], [], [], [], s, .nil, .of_nil hs hh (List.forall_mem_nil _) .nil, ?_⟩
  rwa [Array.append_empty]

theorem Filled.cons {m : Making} (hm : Constructs c [m] s [o] t l) (hy : Yields H s t [o] [w] F)
    (h : Filled f (made.push w) (H ∪ {b | b ∈ F}) c t ms v u) :
    Filled f made H c s (m :: ms) v u := by
  obtain ⟨os, cells, F', l', x, hms, hy', hfinish⟩ := h
  refine ⟨o :: os, w :: cells, F ++ F', l ++ l', x, .cons hm hms, hy.append hy', ?_⟩
  rwa [List.push_append_toArray] at hfinish

/-- A scalar without an initializer needs nothing else. -/
theorem Constructs.zero_of_isScalar {ty : Ty} {r : Bool} (hty : ty.isScalar = true)
    (h : Constructs c [.default ty r] s os t l) :
    ∃ z, ty.zero? = some z ∧ os = [.mk (z.withReadonly r) []] ∧ t = s ∧ l = [] := by
  generalize hms : [Making.default ty r] = ms at h
  induction h with
  | nil => cases hms
  | cons hm hms' ih ihs =>
    cases hms
    cases hms'
    obtain ⟨z, hz, hos, rfl, rfl⟩ := ih rfl
    exact ⟨z, hz, hos, rfl, rfl⟩
  | zero hz =>
    cases hms
    exact ⟨_, hz, rfl, rfl, rfl⟩
  | parts hslots =>
    cases hms
    cases hslots with
    | default => cases hty
    | list hlists => cases hlists
    | members hfields => cases hfields; cases hty
  | row hlists => cases hms; cases hlists
  | scalar hlists => cases hms; cases hlists
  | _ => cases hms

theorem zero?_eq_some {ty : Ty} {z : Value} (hz : ty.zero? = some z) (R : Set BlockId) :
    z.block? = none ∧ z.contents = z ∧ z.Lies R := by
  cases ty with
  | arith k =>
    cases hz
    cases k.isFloat <;> exact ⟨rfl, rfl, (Value.within_number rfl).toLies⟩
  | void =>
    cases hz
    exact ⟨rfl, rfl, Value.within_void.toLies⟩
  | pointer | functionPointer =>
    cases hz
    exact ⟨rfl, rfl, (Value.within_null _).toLies⟩
  | _ => cases hz

theorem Constructs.replicate_zero {ty : Ty} {z : Value} (hz : ty.zero? = some z) (r : Bool)
    (count : Nat) : Constructs c (List.replicate count (.default ty r)) s
      (List.replicate count (.mk (z.withReadonly r) [])) s [] := by
  induction count with
  | zero => exact .nil
  | succ count ih => exact .cons (.zero hz) ih

/-- The last parts of an array are built one by one, or all at once if they are scalars. -/
theorem filled_of_fillDefaults (hm : BuildsIn n make) (hlater : ∀ k < n, FillsIn k RunM.make)
    (count : Nat) (hs : s.Hides ∅) (hh : s.Hides H)
    (h : (fillDefaults make f count made).CompletesIn n c s v t) :
    Filled f made H c s (List.replicate count (.default f.element f.readonly)) v t := by
  induction count generalizing made s H with
  | zero => exact .nil hs hh (finish_of_completesIn h)
  | succ count ih =>
    rw [fillDefaults_succ] at h
    obtain ⟨w, u, hpart, hrest⟩ := completesIn_andThen h
    obtain ⟨o, F, l, hbuilt, hy⟩ := hm (.default _ _) c H s w u trivial trivial hs hh hpart
    rcases hrest with hrest | ⟨k, hk, hrest⟩
    · split at hrest
      · obtain ⟨z, hz, hos, rfl, rfl⟩ := hbuilt.zero_of_isScalar ‹_›
        obtain rfl := List.singleton_injective hos
        refine ⟨_, List.replicate (count + 1) w, [], [], u, .replicate_zero hz _ _,
          .of_nil hs hh (fun v hv => ?_) ?_, ?_⟩
        · exact List.eq_of_mem_replicate hv ▸ List.forall_mem_singleton.mp hy.lies
        · have hcontents : z.withReadonly f.readonly = w.contents := hy.represents.contents_eq
          have hempty : (z.withReadonly f.readonly).block? = none :=
            (Value.block?_withReadonly _).trans (zero?_eq_some hz ∅).1
          obtain rfl := hy.represents.footprint_eq_nil (hcontents ▸ hempty)
          exact hy.represents.replicate _
        · rw [List.toArray_replicate]
          exact finish_of_completesIn hrest
      · exact .cons hbuilt hy (ih hy.passes.hides hy.hides hrest)
    · exact .cons hbuilt hy (hlater k hk { f with made, next := [], defaults := count } [] _ c _ u v t
        (List.forall_mem_nil _) (List.forall_mem_nil _) hy.passes.hides hy.hides hrest)

/-- The parts of an array or a struct are built one by one. -/
theorem fillsIn (hm : BuildsIn n make) (hlater : ∀ k < n, FillsIn k RunM.make) :
    FillsIn n make := by
  intro f next made c H s v t hparts hwithin hs hh h
  induction next generalizing made s H with
  | nil => exact filled_of_fillDefaults hm hlater f.defaults hs hh h
  | cons m next ih =>
    obtain ⟨hpart, hparts⟩ := List.forall_mem_cons.mp hparts
    obtain ⟨hfirst, hwithin⟩ := List.forall_mem_cons.mp hwithin
    rw [fillNext_cons] at h
    obtain ⟨w, u, hcompletes, hrest⟩ := completesIn_andThen h
    obtain ⟨o, F, l, hbuilt, hy⟩ := hm m c H s w u hpart hfirst hs hh hcompletes
    have hwithin (m : Making) (hm : m ∈ next) : m.Within (u.reach ∅) :=
      (hwithin m hm).mono hy.passes.reach
    rcases hrest with hrest | ⟨k, hk, hrest⟩
    · exact .cons hbuilt hy (ih _ _ _ hparts hwithin hy.passes.hides hy.hides hrest)
    · exact .cons hbuilt hy (hlater k hk { f with made, next } next _ c _ u v t hparts hwithin
        hy.passes.hides hy.hides hrest)

end Fill

section Store

variable {c : Config} {s t : State} {o o' : Object} {os : List Object} {ms : List Making}
  {l : List Origin} {v w : Value} {F : List BlockId} {H R : Set BlockId} {readonly : Bool}

/-- The object is made of arrays as far as its type is. -/
def Nests : Ty → Object → Prop
  | .array element size, o => o.contents.ty = .array element size ∧
    o.contents.data = .array (some 0) 0 ∧ ∀ part ∈ o.parts, Nests element part
  | _, o => o.contents.ty.isArray = false

theorem Constructs.nests (h : Constructs c ms s os t l) :
    List.Forall₂ (fun m o => ∀ ty r, m = .default ty r → Nests ty o) ms os := by
  induction h with
  | nil => exact .nil
  | cons _ _ ih ihs =>
    cases ih with
    | cons hfirst _ => exact .cons hfirst ihs
  | parts hslots hparts _ ih =>
    refine .cons (fun ty r hm => ?_) .nil
    subst hm
    cases hslots with
    | default =>
      refine ⟨rfl, rfl, fun part hpart => ?_⟩
      obtain ⟨i, hi⟩ := List.getElem?_of_mem hpart
      obtain ⟨m, hm, hnests⟩ := Heap.Copies.exists_of_forall₂ ih hi
      exact hnests _ _ (List.eq_of_mem_replicate (List.mem_of_getElem? hm))
    | list hlists => cases hlists
    | members hfields =>
      cases hfields
      rfl
  | @zero ty _ _ _ hz =>
    refine .cons (fun ty' r hm => ?_) .nil
    cases hm
    cases ty with
    | arith k =>
      cases hz
      cases k.isFloat <;> rfl
    | void | pointer | functionPointer =>
      cases hz
      rfl
    | _ => cases hz
  | row hlists | scalar hlists =>
    refine .cons (fun ty r hm => ?_) .nil
    subst hm
    cases hlists
  | _ => exact .cons (fun ty r hm => nomatch hm) .nil

/-- An array is one whose contents are. -/
theorem array?_of_contents (ha : w.contents.ty.isArray = true)
    (hd : w.contents.data = .array (some 0) 0) :
    ∃ b, w.array? = some (b, 0) ∧ w.block? = some b := by
  obtain ⟨ty, data, place, r⟩ := w
  have harray : ty.isArray = true := ha
  cases data with
  | array store position =>
    cases store with
    | none => simp [Value.contents] at hd
    | some b =>
      have hposition : position = 0 := (Data.array.inj hd).2
      subst hposition
      exact ⟨b, rfl, if_pos harray⟩
  | _ => simp [Value.contents] at hd

/-- Numbers convert to no structs. -/
theorem isScalar_of_convert {ty : Ty} (hi : v.ty.isIntegral = true) (ha : ty.isArray = false)
    (h : operate (OperatorM.convert v ty false) c s = .ok w t) : ty.isScalar = true := by
  cases ty with
  | struct name fields =>
    obtain ⟨heap, hw, -⟩ := operate_eq_ok h
    have hne : ¬(v.ty == Ty.struct name fields) = true := by
      intro hsame
      have hnamed := Ty.beq_iff_named.mp hsame
      cases hty : v.ty <;> rw [hty] at hi hnamed <;> first | cases hi | cases hnamed
    unfold OperatorM.convert at hw
    rw [if_neg hne] at hw
    cases hw
  | array => cases ha
  | _ => rfl

theorem isArray_of_isScalar {ty : Ty} (h : ty.isScalar = true) : ty.isArray = false := by
  cases ty with
  | array => cases h
  | _ => rfl

theorem block?_of_isScalar (hv : v.Lies R) (hty : v.ty.isScalar = true) : v.block? = none := by
  rcases hv.regular with hsimple | ⟨name, fields, hstruct⟩
  · exact Value.block?_of_simple hsimple (isArray_of_isScalar hty)
  · rw [hstruct] at hty
    cases hty

variable {b : BlockId} {h : Heap}

/-- The first cell of a block is filled with what owns nothing. -/
theorem represents_init? {cell : Value} {rest : List Value}
    (hcells : (h.cells b).toList = cell :: rest) (ho : h.Represents os rest F) (hb : b ∉ F)
    (hw : w.block? = none) : ∃ h', h.init? (.element b 0) w = some h' ∧
      h'.Represents (.mk (w.withReadonly (w.readonly || cell.readonly)).contents [] :: os)
        (h'.cells b).toList F ∧ ∀ b' ≠ b, h'.cells b' = h.cells b' := by
  have hsize : 0 < (h.cells b).size := by
    rw [← Array.length_toList, hcells]
    exact Nat.succ_pos _
  obtain ⟨h', hinit⟩ : ∃ h', h.init? (.element b 0) w = some h' := ⟨_, if_pos hsize⟩
  have hother (b' : BlockId) (hne : b' ≠ b) : h'.cells b' = h.cells b' := by
    exact (cells_of_modify? hinit b').trans (if_neg (Ne.symm hne))
  refine ⟨h', hinit, ?_, hother⟩
  have hcells' := (cells_of_modify? hinit b).trans (if_pos rfl)
  rw [hcells', Array.toList_modify, hcells]
  have hrest : h'.Represents os rest F := ho.congr fun b' hb' => hother b' fun hsame => hb (hsame ▸ hb')
  exact .leaf (v := { w with place := none, readonly := w.readonly || cell.readonly }) hw hrest

theorem nests_isArray {ty : Ty} (h : Nests ty o) : o.contents.ty.isArray = ty.isArray := by
  cases ty with
  | array => exact h.1 ▸ rfl
  | _ => exact h

theorem load?_element_zero : h.load? (.element b 0) =
    (h.cells b).toList.head?.map fun v => v.placed (.element b 0) := by
  rw [List.head?_eq_getElem?, Array.getElem?_toList]
  rfl

/-- What is stored into the first scalar of an array that was just made. -/
theorem stores_of_storeIntoFirst (hv : v.Lies R) (hi : v.ty.isIntegral = true) :
    (ty : Ty) → {s t : State} → {o : Object} → {w : Value} → {F : List BlockId} → {a : Unit} →
      s.Hides ∅ → Nests ty o → ty.isArray = true → s.heap.Represents [o] [w] F → F.Nodup →
      storeIntoFirst v readonly ty w c s = .ok a t →
      ∃ o' heap, t = { s with heap } ∧ o.StoresFirst (Stores c s v readonly) o' ∧
        heap.Represents [o'] [w] F ∧ ∀ b ∉ F, heap.cells b = s.heap.cells b
  | .array element size, s, t, o, w, F, a, hs, hnests, _, ho, hnodup, h => by
    obtain ⟨hty, hdata, hparts⟩ := hnests
    rw [ho.contents_eq] at hty hdata
    obtain ⟨b, hfound, hb⟩ := array?_of_contents (hty ▸ rfl) hdata
    unfold storeIntoFirst at h
    rw [hfound] at h
    obtain ⟨_, _, hinspect, h⟩ := bind_eq_ok h
    cases hinspect
    dsimp only at h
    have hself := ho
    cases ho with
    | leaf hnone => cases hb.symm.trans hnone
    | @block _ _ os _ _ G _ hsome hcells hnil =>
      cases hb.symm.trans hsome
      cases hnil
      rw [List.append_nil] at hnodup hself ⊢
      obtain ⟨hfresh, hnodup⟩ := List.nodup_cons.mp hnodup
      rw [load?_element_zero] at h
      cases hlist : (s.heap.cells b).toList with
      | nil =>
        rw [hlist] at h hcells
        cases h
        cases hcells
        exact ⟨_, s.heap, rfl, .empty, hself, fun _ _ => rfl⟩
      | cons cell rest =>
        rw [hlist] at h hcells
        cases os with
        | nil => cases hcells
        | cons first os =>
          obtain ⟨G₁, G₂, rfl, hfirst, hrest⟩ := hcells.uncons
          obtain ⟨hnests, -⟩ := List.forall_mem_cons.mp hparts
          obtain ⟨hfresh₁, hfresh₂⟩ := not_or.mp (mt List.mem_append.mpr hfresh)
          obtain ⟨hnodup₁, -, hdisjoint⟩ := List.nodup_append'.mp hnodup
          have hty : first.contents.ty = cell.ty := by rw [hfirst.contents_eq]; rfl
          dsimp only [List.head?_cons, Option.map_some] at h
          split at h
          · have harray : first.contents.ty.isArray = true := hty ▸ ‹_›
            obtain ⟨first', heap, rfl, hstores, hfirst', hsame⟩ :=
              stores_of_storeIntoFirst hv hi element hs hnests (nests_isArray hnests ▸ harray)
                ((Represents.placed_iff _).mpr hfirst) hnodup₁ h
            refine ⟨_, heap, rfl, .row harray hstores, .of_block hb ?_, fun b' hb' => hsame b' ?_⟩
            · rw [hsame b hfresh₁, hlist]
              exact ((Represents.placed_iff _).mp hfirst').cons
                (hrest.congr fun b' hb' => hsame b' fun hm => hdisjoint hm hb')
            · exact fun hm => hb' (List.mem_cons_of_mem _ (List.mem_append_left _ hm))
          · have hfalse : cell.ty.isArray = false := Bool.eq_false_iff.mpr ‹_›
            obtain ⟨x, u, hx, hfill⟩ := bind_eq_ok h
            obtain ⟨rfl, -, hnone⟩ := operate_gives (OperatorM.gives_ofNumber hv hi hfalse) hx
            have hlies : cell.Lies (u.reach ∅) := by
              refine hs.heap.cells b (Set.notMem_empty _) cell (Array.mem_toList_iff.mp ?_)
              exact hlist ▸ List.mem_cons_self
            have hempty := block?_of_isScalar hlies (isScalar_of_convert hi hfalse hx)
            obtain rfl := hfirst.footprint_eq_nil (Value.block?_contents_eq_none.mpr hempty)
            obtain ⟨h', hinit, hfilled, hother⟩ :=
              represents_init? (w := x.withReadonly readonly) hlist hrest hfresh₂ hnone
            have ht := discard_attempt hfill
            rw [hinit] at ht
            refine ⟨_, h', ht, .scalar (hty ▸ hfalse) ⟨x, hty ▸ hx, ?_⟩, .of_block hb hfilled, ?_⟩
            · rw [hfirst.contents_eq]
              rfl
            · exact fun b' hb' => hother b' (List.ne_of_not_mem_cons hb')
  | .void, _, _, _, _, _, _, _, _, hty, _, _, _ | .arith _, _, _, _, _, _, _, _, _, hty, _, _, _
  | .pointer .., _, _, _, _, _, _, _, _, hty, _, _, _
  | .functionPointer _, _, _, _, _, _, _, _, _, hty, _, _, _
  | .function _, _, _, _, _, _, _, _, _, hty, _, _, _
  | .struct .., _, _, _, _, _, _, _, _, hty, _, _, _
  | .marker, _, _, _, _, _, _, _, _, hty, _, _, _ => by cases hty

end Store

end RunM

end Stepwise
