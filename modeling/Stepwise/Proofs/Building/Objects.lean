import Stepwise.Proofs.Confinement.Values

/-! # Objects in the heap

What an object consists of is a tree: its own value, apart from places and from where its parts are,
and its parts. Values in a heap represent objects, and the blocks of their parts are their footprint. As
long as the footprint stays as it is, they represent the same objects. A deep copy represents what the
original does, and its footprint is all that is new.
-/

namespace Stepwise

open Value

/-- The contents of an object and of its parts. -/
inductive Object
  | mk (contents : Value) (parts : List Object)

namespace Object

def contents : Object → Value
  | mk v _ => v

def parts : Object → List Object
  | mk _ os => os

def withReadonly (r : Bool) : Object → Object
  | mk v os => mk (v.withReadonly r) os

theorem eta (o : Object) : mk o.contents o.parts = o := by
  cases o
  rfl

theorem withReadonly_withReadonly (r r' : Bool) (o : Object) :
    (o.withReadonly r).withReadonly r' = o.withReadonly r' := by
  cases o
  rfl

theorem withReadonly_self {o : Object} {r : Bool} (h : o.contents.readonly = r) :
    o.withReadonly r = o := by
  subst h
  cases o
  rfl

end Object

namespace Value

variable {v : Value}

theorem block?_contents_eq_none : v.contents.block? = none ↔ v.block? = none := by
  obtain ⟨ty, data, place, readonly⟩ := v
  cases data with
  | array store position =>
    cases store <;> cases h : ty.isArray <;> simp [block?, contents, h]
  | _ => simp [block?, contents]

end Value

namespace Heap

/-- The values represent the objects, and the blocks are those of their parts, at all depths. -/
inductive Represents (h : Heap) : List Object → List Value → List BlockId → Prop
  | nil : Represents h [] [] []
  | leaf {v : Value} {os : List Object} {vs : List Value} {F : List BlockId} :
    v.block? = none → Represents h os vs F → Represents h (.mk v.contents [] :: os) (v :: vs) F
  | block {v : Value} {b : BlockId} {parts os : List Object} {vs : List Value}
    {F G : List BlockId} : v.block? = some b → Represents h parts (h.cells b).toList F →
    Represents h os vs G → Represents h (.mk v.contents parts :: os) (v :: vs) (b :: (F ++ G))

variable {h h' : Heap} {o o' : Object} {os os' : List Object} {v w : Value} {vs vs' : List Value}
  {F F' : List BlockId}

namespace Represents

theorem append (hh : h.Represents os vs F) (hh' : h.Represents os' vs' F') :
    h.Represents (os ++ os') (vs ++ vs') (F ++ F') := by
  induction hh with
  | nil => exact hh'
  | leaf hv _ ih => exact .leaf hv ih
  | block hv hparts _ _ ih =>
    have hblock := Represents.block hv hparts ih
    rwa [← List.append_assoc] at hblock

theorem cons (hh : h.Represents [o] [v] F) (hh' : h.Represents os vs F') :
    h.Represents (o :: os) (v :: vs) (F ++ F') := hh.append hh'

/-- A value and the parts in its block. -/
theorem of_block {b : BlockId} {parts : List Object} (hb : v.block? = some b)
    (hh : h.Represents parts (h.cells b).toList F) :
    h.Represents [.mk v.contents parts] [v] (b :: F) := by
  have hblock := Represents.block hb hh .nil
  rwa [List.append_nil] at hblock

/-- The first value, and the others. -/
theorem uncons (hh : h.Represents (o :: os) (v :: vs) F) :
    ∃ G G', F = G ++ G' ∧ h.Represents [o] [v] G ∧ h.Represents os vs G' := by
  cases hh with
  | leaf hv hrest => exact ⟨[], F, rfl, .leaf hv .nil, hrest⟩
  | @block _ b _ _ _ G G' hv hparts hrest => exact ⟨b :: G, G', rfl, .of_block hv hparts, hrest⟩

theorem length_eq (hh : h.Represents os vs F) : os.length = vs.length := by
  induction hh with
  | nil => rfl
  | leaf _ _ ih => exact congrArg Nat.succ ih
  | block _ _ _ _ ih => exact congrArg Nat.succ ih

/-- What is left of a value is the top of its object. -/
theorem contents_eq (hh : h.Represents [o] [v] F) : o.contents = v.contents := by
  cases hh <;> rfl

/-- Nothing but the blocks of the footprint matters. -/
theorem congr (hh : h.Represents os vs F) (hc : ∀ b ∈ F, h'.cells b = h.cells b) :
    h'.Represents os vs F := by
  induction hh with
  | nil => exact .nil
  | leaf hv _ ih => exact .leaf hv (ih hc)
  | block hv _ _ ihparts ih =>
    obtain ⟨hb, hrest⟩ := List.forall_mem_cons.mp hc
    obtain ⟨hparts, hrest⟩ := List.forall_mem_append.mp hrest
    have hparts := ihparts hparts
    rw [← hb] at hparts
    exact .block hv hparts (ih hrest)

/-- Neither the place of a value nor its flag matters to what it is made of. -/
theorem replace (hh : h.Represents [o] [v] F) (hb : w.block? = v.block?) :
    h.Represents [.mk w.contents o.parts] [w] F := by
  cases hh with
  | leaf hv hrest => exact .leaf (hb.trans hv) hrest
  | block hv hparts hrest => exact .block (hb.trans hv) hparts hrest

theorem withReadonly (hh : h.Represents [o] [v] F) (r : Bool) :
    h.Represents [o.withReadonly r] [v.withReadonly r] F := by
  have hcontents := hh.contents_eq
  have hreplaced := hh.replace (w := v.withReadonly r) rfl
  cases o
  obtain rfl := hcontents
  exact hreplaced

/-- Where a value was read from does not matter. -/
theorem placed_iff (p : Place) : h.Represents [o] [v.placed p] F ↔ h.Represents [o] [v] F := by
  refine ⟨fun hh => ?_, fun hh => ?_⟩
  · have hreplaced := hh.replace (w := v) rfl
    rwa [← contents_placed (v := v) (p := p), ← hh.contents_eq, Object.eta] at hreplaced
  · have hreplaced := hh.replace (w := v.placed p) rfl
    rwa [contents_placed, ← hh.contents_eq, Object.eta] at hreplaced

theorem replicate (hh : h.Represents [o] [v] []) (count : Nat) :
    h.Represents (List.replicate count o) (List.replicate count v) [] := by
  induction count with
  | zero => exact .nil
  | succ count ih => exact hh.cons ih

/-- What owns nothing has no footprint. -/
theorem footprint_eq_nil (hh : h.Represents [o] [v] F) (hb : v.contents.block? = none) : F = [] := by
  rw [block?_contents_eq_none] at hb
  cases hh with
  | leaf _ hrest =>
    cases hrest
    rfl
  | block hb' => cases hb'.symm.trans hb

/-- The footprint of what is there is there. -/
theorem lt_size (hh : h.Represents os vs F) (hc : h.Closed) (hv : ∀ v ∈ vs, h.Covers v) :
    ∀ b ∈ F, b < h.blocks.size := by
  induction hh with
  | nil => exact List.forall_mem_nil _
  | leaf _ _ ih => exact ih fun v hm => hv v (List.mem_cons_of_mem _ hm)
  | @block v b _ _ _ _ _ hsome _ _ ihparts ih =>
    refine List.forall_mem_cons.mpr ⟨hv v List.mem_cons_self b hsome, ?_⟩
    refine List.forall_mem_append.mpr ⟨ihparts fun cell hm => ?_, ih fun v hm => ?_⟩
    · exact hc b cell (Array.mem_toList_iff.mp hm)
    · exact hv v (List.mem_cons_of_mem _ hm)

/-- There is only one object that a value represents. -/
theorem unique (hh : h.Represents os vs F) (hh' : h.Represents os' vs F') : os = os' ∧ F = F' := by
  induction hh generalizing os' F' with
  | nil =>
    cases hh'
    exact ⟨rfl, rfl⟩
  | leaf hv _ ih =>
    cases hh' with
    | leaf _ hrest =>
      obtain ⟨rfl, rfl⟩ := ih hrest
      exact ⟨rfl, rfl⟩
    | block hv' => cases hv.symm.trans hv'
  | block hv _ _ ihparts ih =>
    cases hh' with
    | leaf hv' => cases hv.symm.trans hv'
    | block hv' hparts hrest =>
      cases hv.symm.trans hv'
      obtain ⟨rfl, rfl⟩ := ihparts hparts
      obtain ⟨rfl, rfl⟩ := ih hrest
      exact ⟨rfl, rfl⟩

end Represents

/-- Cells represent objects if what they own does. -/
theorem exists_represents_of_blocks
    (hb : ∀ v ∈ vs, ∀ b, v.block? = some b → ∃ os F, h.Represents os (h.cells b).toList F) :
    ∃ os F, h.Represents os vs F := by
  induction vs with
  | nil => exact ⟨[], [], .nil⟩
  | cons v vs ih =>
    obtain ⟨hfirst, hrest⟩ := List.forall_mem_cons.mp hb
    obtain ⟨os, G, hos⟩ := ih hrest
    cases hv : v.block? with
    | none => exact ⟨_, _, .leaf hv hos⟩
    | some b =>
      obtain ⟨parts, F, hparts⟩ := hfirst b hv
      exact ⟨_, _, .block hv hparts hos⟩

/-- Where nothing owns blocks without end, every value represents an object. -/
theorem Founded.exists_represents (hf : h.Founded) (v : Value) : ∃ o F, h.Represents [o] [v] F := by
  have hblock (b : BlockId) : ∃ os F, h.Represents os (h.cells b).toList F := by
    induction b using hf.induction with
    | _ b ih =>
      refine exists_represents_of_blocks fun cell hm s hs => ih s ?_
      exact ⟨cell, Array.mem_toList_iff.mp hm, hs⟩
  have hrepresents : ∃ os F, h.Represents os [v] F :=
    exists_represents_of_blocks fun _ _ b _ => hblock b
  obtain ⟨os, F, hos⟩ := hrepresents
  obtain ⟨o, rfl⟩ := List.length_eq_one_iff.mp hos.length_eq
  exact ⟨o, F, hos⟩

end Heap

namespace HeapM

open Heap

variable {h h₀ : Heap} {v : Value} {bound : Nat} {o : Object} {F : List BlockId}

/-- The values represent the objects, and their footprint is what is new in the heap. -/
structure Renewed (h : Heap) (os : List Object) (vs : List Value) (h' : Heap) (F : List BlockId) :
    Prop where
  represents : h'.Represents os vs F
  nodup : F.Nodup
  mem_iff : ∀ b : Nat, b ∈ F ↔ h.blocks.size ≤ b ∧ b < h'.blocks.size

theorem Renewed.unchanged {os : List Object} {vs : List Value} (hh : h.Represents os vs []) :
    Renewed h os vs h [] where
  represents := hh
  nodup := .nil
  mem_iff b := by
    refine iff_of_false List.not_mem_nil ?_
    exact fun hb => Nat.not_lt_of_le hb.1 hb.2

/-- What owns nothing is not copied. -/
theorem Renewed.shared (ho : h.Represents [o] [v] F) (hb : v.block? = none) :
    Renewed h [o.withReadonly false] [v.rvalue] h [] := by
  have hleaf : h.Represents [.mk v.contents []] [v] [] := .leaf hb .nil
  obtain ⟨heq, rfl⟩ := ho.unique hleaf
  obtain rfl := List.singleton_injective heq
  exact .unchanged (hleaf.replace (w := v.rvalue) rfl)

/-- What is made after something else is new beside it. -/
theorem Renewed.append {h' h'' : Heap} {os os' : List Object} {vs vs' : List Value}
    {F' : List BlockId} (hn : h.blocks.size ≤ h'.blocks.size) (hr : Renewed h os vs h' F)
    (hg : h'.GrowsTo h'') (hr' : Renewed h' os' vs' h'' F') :
    Renewed h (os ++ os') (vs ++ vs') h'' (F ++ F') where
  represents := by
    refine .append (hr.represents.congr fun b hb => ?_) hr'.represents
    exact Array.ext_getElem? fun i => hg.cells b ((hr.mem_iff b).mp hb).2 i id
  nodup := by
    refine List.nodup_append'.mpr ⟨hr.nodup, hr'.nodup, fun b hb hb' => ?_⟩
    exact Nat.not_lt_of_le ((hr'.mem_iff b).mp hb').1 ((hr.mem_iff b).mp hb).2
  mem_iff b := by
    have hsize := hg.blocks
    rw [List.mem_append, hr.mem_iff, hr'.mem_iff]
    omega

/-- A new block takes what was made. -/
theorem Renewed.alloc {h' : Heap} {os : List Object} (cells : Array Value)
    (hn : h.blocks.size ≤ h'.blocks.size) (hr : Renewed h os cells.toList h' F)
    (hv : v.block? = some h'.blocks.size) :
    Renewed h [.mk v.contents os] [v] (h'.alloc cells).2 (h'.blocks.size :: F) where
  represents := by
    have hnew : (h'.alloc cells).2.cells h'.blocks.size = cells := by rw [cells_alloc, if_pos rfl]
    have hcells : (h'.alloc cells).2.Represents os cells.toList F := by
      refine hr.represents.congr fun b hb => ?_
      rw [cells_alloc, if_neg (Nat.ne_of_lt ((hr.mem_iff b).mp hb).2)]
    exact .of_block hv (by rwa [hnew])
  nodup := List.nodup_cons.mpr ⟨fun hb => Nat.lt_irrefl _ ((hr.mem_iff _).mp hb).2, hr.nodup⟩
  mem_iff b := by
    have hsize : (h'.alloc cells).2.blocks.size = h'.blocks.size + 1 := Array.size_push _
    rw [List.mem_cons, hr.mem_iff, hsize]
    omega

/-- Cells are copied one by one. -/
theorem renewed_mapM (hcopy : ∀ (h : Heap) v o F, h.Closed → h.Covers v → Shallow bound h v →
      h.Represents [o] [v] F → ∃ F', let r := (deepCopyWithin bound v).run h
        Renewed h [o.withReadonly false] [r.1] r.2 F')
    (hc₀ : h₀.Closed) (cells : List Value) {os : List Object}
    (hcells : ∀ cell ∈ cells, h₀.Covers cell ∧ Shallow bound h₀ cell) (hos : h₀.Represents os cells F)
    (hs : h₀.GrowsTo h) (hc : h.Closed) :
    ∃ F', let r := (cells.mapM fun cell => do
        return (← deepCopyWithin bound cell).withReadonly cell.readonly).run h
      Renewed h os r.1 r.2 F' := by
  induction cells generalizing h os F with
  | nil =>
    cases hos
    exact ⟨[], .unchanged .nil⟩
  | cons cell cells ih =>
    obtain ⟨⟨hcovers, hshallow⟩, hrest⟩ := List.forall_mem_cons.mp hcells
    cases os with
    | nil => cases hos
    | cons o os =>
      obtain ⟨G, G', -, hfirst, hothers⟩ := hos.uncons
      have hlt := hfirst.lt_size hc₀ (List.forall_mem_singleton.mpr hcovers)
      have hone := duplicates_deepCopyWithin bound hc (hcovers.mono hs)
      have hfirst' : h.Represents [o] [cell] G :=
        hfirst.congr fun b hb => Array.ext_getElem? fun i => hs.cells b (hlt b hb) i id
      obtain ⟨F₁, hcopied⟩ := hcopy h cell o G hc (hcovers.mono hs) (fun path b hb => by
        rw [partBlock?_of_sameBut hs hc₀ hcovers .nothing] at hb
        exact hshallow path b hb) hfirst'
      have hall := forall₂_mapM (fun _ _ => duplicates_deepCopyWithin bound) hc₀ cells
        (fun cell hm => (hrest cell hm).1) (hs.trans hone.grows) hone.closed
      obtain ⟨F₂, hrenewed⟩ := ih hrest hothers (hs.trans hone.grows) hone.closed
      have hflag : (o.withReadonly false).withReadonly cell.readonly = o := by
        rw [Object.withReadonly_withReadonly]
        exact Object.withReadonly_self (congrArg Value.readonly hfirst.contents_eq :)
      have hflagged : Renewed h [o] [_] _ F₁ :=
        ⟨hflag ▸ hcopied.represents.withReadonly cell.readonly, hcopied.nodup, hcopied.mem_iff⟩
      rw [List.mapM_cons]
      exact ⟨F₁ ++ F₂, hflagged.append hone.grows.blocks hall.1 hrenewed⟩

/-- What is copied down to its last parts represents what the original does. -/
theorem renewed_deepCopyWithin (bound : Nat) (hc : h.Closed) (hv : h.Covers v)
    (hs : Shallow bound h v) (ho : h.Represents [o] [v] F) :
    ∃ F', let r := (deepCopyWithin bound v).run h
      Renewed h [o.withReadonly false] [r.1] r.2 F' := by
  have hshared := Renewed.shared ho
  induction bound generalizing h v o F with
  | zero =>
    cases hb : v.block? with
    | none => exact ⟨[], hshared hb⟩
    | some b => exact absurd (hs [] b hb) (Nat.not_lt_zero _)
  | succ bound ih =>
    cases hb : v.block? with
    | none =>
      rw [deepCopyWithin_of_none hb]
      exact ⟨[], hshared hb⟩
    | some b =>
      obtain ⟨parts, G, rfl, hparts⟩ : ∃ parts G, o = .mk v.contents parts ∧
          h.Represents parts (h.cells b).toList G := by
        cases ho with
        | leaf hnone => cases hnone.symm.trans hb
        | block hsome hparts =>
          cases hsome.symm.trans hb
          exact ⟨_, _, rfl, hparts⟩
      have hcells := hs.cells hc hb
      have hcopy (h : Heap) (v : Value) (o : Object) (F : List BlockId) (hc : h.Closed)
          (hv : h.Covers v) (hs : Shallow bound h v) (ho : h.Represents [o] [v] F) :
          ∃ F', let r := (deepCopyWithin bound v).run h
            Renewed h [o.withReadonly false] [r.1] r.2 F' := ih hc hv hs ho (.shared ho)
      obtain ⟨hgrows, -, -⟩ := forall₂_mapM (fun _ _ => duplicates_deepCopyWithin bound) hc
        (h.cells b).toList (fun cell hm => (hcells cell hm).1) (.refl h) hc
      obtain ⟨F', hrenewed⟩ := renewed_mapM hcopy hc (h.cells b).toList hcells hparts (.refl h) hc
      have halloc := Renewed.alloc (List.toArray _) hgrows.blocks hrenewed (Value.block?_onBlock hb)
      rw [Value.contents_onBlock hb] at halloc
      rw [run_deepCopyWithin hb]
      exact ⟨_, halloc⟩

/-- A copy represents what the original does, and its footprint is all that is new. -/
theorem renewed_deepCopy (hc : h.Closed) (hf : h.Founded) (hv : h.Covers v)
    (ho : h.Represents [o] [v] F) :
    ∃ F', let r := (deepCopy v).run h
      Renewed h [o.withReadonly false] [r.1] r.2 F' := by
  refine renewed_deepCopyWithin _ hc hv (fun path b hb => ?_) ho
  exact Nat.lt_succ_of_lt (hf.grounded.length_lt hc hv hb)

end HeapM

end Stepwise
