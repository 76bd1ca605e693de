import Mathlib.Logic.Relation
import Stepwise.Machine.Make
import Stepwise.Proofs.Closure.Invariants
import Stepwise.Proofs.Overload.Tables

/-! # Objects are made to the end

An array holds its elements and a struct the members of its current definition. If no type is a
part of itself, the way down from an object into its parts meets every definition at most once,
and a budget of steps that falls with every part is no more than the heights of the type and of
all definitions together.

The recursion that makes an object goes down into its parts. If no type is a part of itself,
the bound on its depth is never reached: every object is made, is suspended at an initializer, or
faults for a reason of its own.
-/

namespace Stepwise

/-- Struct definitions by name. -/
abbrev StructTable := List (String × StructTy)

namespace StructTable

/-- An object of the first type has a part of the second. -/
inductive Part (structs : StructTable) : Ty → Ty → Prop
  | element {element : Ty} {size : Nat} (hs : 0 < size) : Part structs (.array element size) element
  | member {name : String} {fields : List MemberTy} {m : MemberTy}
    (hm : m ∈ ((structs.lookup name).getD ⟨name, fields⟩).members) :
    Part structs (.struct name fields) m.ty

/-- No object holds an object of its own type. -/
def Acyclic (structs : StructTable) : Prop := ∀ t, ¬Relation.TransGen structs.Part t t

/-- An object of the type is one of the named struct or has one among its parts. -/
def Meets (structs : StructTable) (t : Ty) (name : String) : Prop :=
  ∃ fields, Relation.ReflTransGen structs.Part t (.struct name fields)

/-- The heights of all definitions. -/
def height (structs : StructTable) : Nat :=
  structs.foldr (fun e n => e.2.type.height + n) 0

open Classical in
/-- The height of the type with those of the definitions that its objects meet. -/
noncomputable def budget (structs : StructTable) (t : Ty) : Nat :=
  t.height + height (structs.filter fun e => structs.Meets t e.1)

section Sums

variable {p q : String × StructTy → Bool}

theorem height_filter_le (structs : StructTable) (hpq : ∀ e, p e = true → q e = true) :
    height (structs.filter p) ≤ height (structs.filter q) := by
  induction structs with
  | nil => exact Nat.le_refl _
  | cons e structs ih =>
    simp only [List.filter_cons]
    cases hp : p e with
    | true =>
      rw [hpq e hp]
      exact Nat.add_le_add_left ih _
    | false =>
      cases q e with
      | true => exact Nat.le_trans ih (Nat.le_add_left _ _)
      | false => exact ih

/-- A definition that only one of the sums has makes up for its height. -/
theorem height_filter_add_le {structs : StructTable} (hpq : ∀ e, p e = true → q e = true) {e : String × StructTy}
    (he : e ∈ structs) (hp : p e = false) (hq : q e = true) :
    height (structs.filter p) + e.2.type.height ≤ height (structs.filter q) := by
  induction structs with
  | nil => cases he
  | cons e' structs ih =>
    simp only [List.filter_cons]
    rcases List.mem_cons.mp he with rfl | he
    · rw [hp, hq]
      have hle := height_filter_le structs hpq
      simp only [Bool.false_eq_true, if_false, if_true, height, List.foldr_cons] at hle ⊢
      omega
    · have hle := ih he
      cases hp' : p e' with
      | true =>
        rw [hpq e' hp']
        simp only [if_true, height, List.foldr_cons] at hle ⊢
        omega
      | false =>
        cases q e' with
        | true =>
          simp only [Bool.false_eq_true, if_false, if_true, height,
            List.foldr_cons] at hle ⊢
          omega
        | false => exact hle

end Sums

variable {structs : StructTable}

theorem height_filter_le_height (p : String × StructTy → Bool) :
    height (structs.filter p) ≤ structs.height := by
  have hle : height (structs.filter p) ≤ height (structs.filter fun _ => true) :=
    height_filter_le structs fun _ _ => rfl
  rwa [List.filter_eq_self.mpr fun _ _ => rfl] at hle

/-- The budget of a type is no more than its height and the heights of all definitions. -/
theorem budget_le (structs : StructTable) (t : Ty) : structs.budget t ≤ t.height + structs.height :=
  Nat.add_le_add_left (height_filter_le_height _) _

theorem height_member_lt (name : String) {members : List MemberTy} {m : MemberTy}
    (hm : m ∈ members) : m.ty.height < (Ty.struct name members).height := by
  have hle : m.ty.height ≤ Ty.membersHeight members := by
    induction members with
    | nil => cases hm
    | cons m' ms ih =>
      obtain ⟨name', ty, readonly, default⟩ := m'
      rw [Ty.membersHeight]
      rcases List.mem_cons.mp hm with rfl | hm
      · exact Nat.le_max_left _ _
      · exact Nat.le_trans (ih hm) (Nat.le_max_right _ _)
  rw [Ty.height]
  omega

/-- What a part meets, the whole meets. -/
theorem Part.meets {t u : Ty} (h : structs.Part t u) {name : String} (hu : structs.Meets u name) :
    structs.Meets t name := by
  obtain ⟨fields, hf⟩ := hu
  exact ⟨fields, .head h hf⟩

/-- A member of a defined struct does not meet this struct again. -/
theorem Acyclic.not_meets (hs : structs.Acyclic) {name : String} {d : StructTy}
    (hd : structs.lookup name = some d) {m : MemberTy} (hm : m ∈ d.members) :
    ¬structs.Meets m.ty name := by
  rintro ⟨fields, hf⟩
  have hpart : structs.Part (.struct name fields) m.ty := by
    apply Part.member
    rwa [hd]
  exact hs _ (.head' hpart hf)

/-- Going down into a part costs some of the budget. -/
theorem Part.budget_lt (hs : structs.Acyclic) {t u : Ty} (h : structs.Part t u) :
    structs.budget u < structs.budget t := by
  classical
  have hmeets (e : String × StructTy) (he : decide (structs.Meets u e.1) = true) :
      decide (structs.Meets t e.1) = true := decide_eq_true (h.meets (of_decide_eq_true he))
  have hle := height_filter_le structs hmeets
  unfold budget
  cases h with
  | element =>
    rw [Ty.height]
    omega
  | @member name fields m hm =>
    cases hd : structs.lookup name with
    | none =>
      rw [hd] at hm
      have hlt := height_member_lt name hm
      dsimp only [Option.getD_none] at hlt
      omega
    | some d =>
      rw [hd] at hm
      -- The definition is paid for, because the member does not meet it again.
      have hlt : m.ty.height < d.type.height := height_member_lt d.name hm
      obtain ⟨before, after, hmem, -⟩ := List.lookup_eq_some_iff.mp hd
      have he : (name, d) ∈ structs := by
        rw [hmem]
        exact List.mem_append_right before List.mem_cons_self
      have hadd := height_filter_add_le hmeets he (decide_eq_false (hs.not_meets hd hm))
        (decide_eq_true ⟨fields, .refl⟩)
      dsimp only at hadd
      omega

theorem Part.height_lt {t u : Ty} (h : Part [] t u) : u.height < t.height := by
  cases h with
  | element =>
    rw [Ty.height]
    omega
  | member hm => exact height_member_lt _ hm

theorem acyclic_nil : Acyclic [] := by
  have hlt {t u : Ty} (h : Relation.TransGen (Part []) t u) : u.height < t.height := by
    induction h with
    | single h => exact h.height_lt
    | tail _ h ih => exact Nat.lt_trans h.height_lt ih
  exact fun t h => Nat.lt_irrefl _ (hlt h)

/-- The table with the definition in place of any earlier one. -/
def define (structs : StructTable) (d : StructTy) : StructTable :=
  (d.name, d) :: structs.filter fun (name, _) => name != d.name

section Define

variable {d : StructTy}

theorem lookup_define_self : (structs.define d).lookup d.name = some d := by
  simp [define]

theorem lookup_define {name : String} (hn : name ≠ d.name) :
    (structs.define d).lookup name = structs.lookup name := by
  rw [define, List.lookup_cons, beq_false_of_ne hn]
  exact lookup_filter_ne structs hn

/-- Only objects of the defined struct get other parts. -/
theorem Part.of_define {t u : Ty} (h : (structs.define d).Part t u) :
    structs.Part t u ∨ ∃ fields, t = .struct d.name fields := by
  cases h with
  | element hs => exact .inl (.element hs)
  | @member name fields m hm =>
    by_cases hn : name = d.name
    · exact .inr ⟨fields, hn ▸ rfl⟩
    · rw [lookup_define hn] at hm
      exact .inl (.member hm)

/-- A way down was there before, or it goes past the defined struct. -/
theorem transGen_of_define {t u : Ty} (h : Relation.TransGen (structs.define d).Part t u) :
    Relation.TransGen structs.Part t u ∨ ∃ fields,
      Relation.ReflTransGen (structs.define d).Part t (.struct d.name fields) ∧
      Relation.TransGen (structs.define d).Part (.struct d.name fields) u := by
  induction h with
  | single h =>
    rcases h.of_define with hold | ⟨fields, rfl⟩
    · exact .inl (.single hold)
    · exact .inr ⟨fields, .refl, .single h⟩
  | tail hto h ih =>
    rcases ih with hold | ⟨fields, hpast, hfrom⟩
    · rcases h.of_define with hstep | ⟨fields, rfl⟩
      · exact .inl (hold.tail hstep)
      · exact .inr ⟨fields, hto.to_reflTransGen, .single h⟩
    · exact .inr ⟨fields, hpast, hfrom.tail h⟩

/-- A definition whose members do not lead back to it closes no circle. -/
theorem Acyclic.define (hs : structs.Acyclic)
    (hd : ∀ m ∈ d.members, ¬(structs.define d).Meets m.ty d.name) :
    (structs.define d).Acyclic := by
  intro t h
  rcases transGen_of_define h with hold | ⟨fields, hto, hfrom⟩
  · exact hs t hold
  · obtain ⟨u, hu, hback⟩ := Relation.TransGen.head'_iff.mp (hfrom.trans_left hto)
    cases hu with
    | member hm =>
      rw [lookup_define_self] at hm
      exact hd _ hm ⟨fields, hback⟩

end Define

end StructTable

/-- The fault does not stand for a recursion without end. -/
def Fault.Ends (fault : Fault) : Prop := fault.cause.isEndless = false

namespace Contract

/-- The struct definitions are as `pre` says and stay as they are. -/
def onStructs (pre : StructTable → Prop) (raises : Fault → Prop) : Contract where
  pre s := pre s.structs
  heap _ _ := True
  kept s t := t.structs = s.structs
  raises := raises

theorem lawful_onStructs (pre : StructTable → Prop) {raises : Fault → Prop}
    (hr : ∀ fault : Fault, fault.Ends → raises fault)
    (ho : ∀ (fault : Fault) node, raises fault → raises (fault.orAt node)) :
    (onStructs pre raises).Lawful where
  heaps := ⟨fun _ => trivial, fun _ _ => trivial, fun _ _ => trivial, fun _ => trivial,
    fun _ => trivial⟩
  refl _ := rfl
  trans ht hu := Eq.trans hu ht
  stays {s t} hs ht := by
    change pre t.structs
    have ht : t.structs = s.structs := ht
    rwa [ht]
  raises := hr
  orAt hf := ho _ _ hf
  change hh s := hh.structs s
  onHeap _ := rfl
  write _ _ := rfl

/-- Structs stay as they are, and faults are not for want of an end. -/
theorem lawful_ends (pre : StructTable → Prop) : (onStructs pre Fault.Ends).Lawful :=
  lawful_onStructs pre (fun _ h => h) fun _ _ h => h

end Contract

namespace StructTable

variable {structs : StructTable}

/-- The depth is enough for the recursion that makes the object. -/
def Suffices (structs : StructTable) (depth : Nat) : Making → Prop
  | .default ty _ => if ty.isScalar then 0 < depth else 2 * structs.budget ty + 2 ≤ depth
  | .initial _ (.expr _) _ _ | .copy .. | .nested => 0 < depth
  | .initial ty (.list ..) _ _ | .row ty _ _ _ | .arrayOf ty _ _ =>
    2 * structs.budget ty + 2 ≤ depth
  | .struct d _ _ _ => 0 < depth ∧ ∀ m ∈ d.members, 2 * structs.budget m.ty + 2 < depth

theorem not_suffices_zero (m : Making) : ¬structs.Suffices 0 m := by
  have hno {n : Nat} : ¬n + 2 ≤ 0 := Nat.not_succ_le_zero _
  cases m with
  | default ty readonly =>
    intro h
    change if ty.isScalar then 0 < 0 else 2 * structs.budget ty + 2 ≤ 0 at h
    split at h
    · exact Nat.lt_irrefl 0 h
    · exact hno h
  | initial ty init =>
    cases init with
    | expr e => exact Nat.lt_irrefl 0
    | list span items => exact hno
  | struct => exact fun h => Nat.lt_irrefl 0 h.1
  | row | arrayOf => exact hno
  | copy | nested => exact Nat.lt_irrefl 0

section Budget

variable {depth : Nat} {ty : Ty} (h : 2 * structs.budget ty + 2 ≤ depth)

include h

theorem suffices_default (readonly : Bool) : structs.Suffices depth (.default ty readonly) := by
  change if ty.isScalar then 0 < depth else 2 * structs.budget ty + 2 ≤ depth
  split
  · exact Nat.lt_of_lt_of_le (Nat.succ_pos _) h
  · exact h

theorem suffices_initial (init : Initializer) (readonly : Bool) (hint : Option StructTy) :
    structs.Suffices depth (.initial ty init readonly hint) := by
  cases init with
  | expr e => exact Nat.lt_of_lt_of_le (Nat.succ_pos _) h
  | list span items => exact h

theorem suffices_ofItem (readonly : Bool) (hint : Option StructTy) (item : Initializer) :
    structs.Suffices depth (RunM.ofItem ty readonly hint item) := by
  cases item with
  | expr e => exact suffices_initial h _ _ _
  | list span items =>
    cases ty with
    | array element size => exact h
    | struct name fields => exact suffices_initial h _ _ _
    | _ => exact Nat.lt_of_lt_of_le (Nat.succ_pos _) h

end Budget

theorem suffices_members {depth : Nat} {readonly : Bool} {hint : Option StructTy}
    {ms : List MemberTy} (h : ∀ m ∈ ms, 2 * structs.budget m.ty + 2 ≤ depth)
    (items : List Initializer) :
    ∀ part ∈ RunM.members readonly hint ms items, structs.Suffices depth part := by
  induction ms generalizing items with
  | nil =>
    intro part hp
    cases hp
  | cons m ms ih =>
    obtain ⟨hm, hms⟩ := List.forall_mem_cons.mp h
    cases items with
    | nil =>
      refine List.forall_mem_cons.mpr ⟨?_, ih hms []⟩
      cases m.default with
      | some init => exact suffices_initial hm _ _ _
      | none => exact suffices_default hm _
    | cons item items =>
      exact List.forall_mem_cons.mpr ⟨suffices_initial hm _ _ _, ih hms items⟩

/-- The depth with which the making of an object begins is enough. -/
theorem suffices_makingDepth {s : State} (m : Making) :
    StructTable.Suffices s.structs (s.makingDepth m.type) m := by
  have hb := budget_le s.structs m.type
  have hdepth : s.makingDepth m.type = 2 * (m.type.height + height s.structs) + 2 := rfl
  have hle : 2 * budget s.structs m.type + 2 ≤ s.makingDepth m.type := by omega
  cases m with
  | default ty readonly => exact suffices_default hle _
  | initial ty init readonly hint => exact suffices_initial hle _ _ _
  | row | arrayOf => exact hle
  | copy | nested => exact Nat.lt_of_lt_of_le (Nat.succ_pos _) hle
  | struct d items readonly hint =>
    refine ⟨Nat.lt_of_lt_of_le (Nat.succ_pos _) hle, fun m hm => ?_⟩
    have hm := height_member_lt d.name hm
    have hbm := budget_le s.structs m.ty
    change m.ty.height < d.type.height at hm
    change s.makingDepth d.type = 2 * (d.type.height + height s.structs) + 2 at hdepth
    change _ < s.makingDepth d.type
    omega

end StructTable

namespace RunM

open StructTable Contract

variable {structs : StructTable} (hs : structs.Acyclic)

include hs

/-- With enough depth, an object is made to the end. -/
theorem meets_makeWithin (depth : Nat) (m : Making) (hd : structs.Suffices depth m) :
    (makeWithin depth m).Meets (onStructs (· = structs) Fault.Ends) Progress.Proceeds := by
  have hT := closed_meets (lawful_ends (· = structs))
  induction depth generalizing m with
  | zero => exact absurd hd (not_suffices_zero m)
  | succ depth ih =>
    have helement {element : Ty} {size : Nat}
        (hd : 2 * structs.budget (.array element size) + 2 ≤ depth + 1) (hsize : 0 < size) :
        2 * structs.budget element + 2 ≤ depth := by
      have hpart : structs.Part (.array element size) element := .element hsize
      have hlt := hpart.budget_lt hs
      omega
    have hstruct {name : String} {fields : List MemberTy} (items : List Initializer)
        (readonly : Bool) (hint : Option StructTy)
        (hd : 2 * structs.budget (.struct name fields) + 2 ≤ depth + 1) :
        (do makeWithin depth (.struct (← inspect fun s => s.currentStruct name fields) items
          readonly hint)).Meets (onStructs (· = structs) Fault.Ends) Progress.Proceeds := by
      intro c s hpre
      refine ih (.struct (s.currentStruct name fields) items readonly hint) ?_ c s hpre
      refine ⟨by omega, fun m hm => ?_⟩
      have hpre : s.structs = structs := hpre
      rw [State.currentStruct, State.struct?, hpre] at hm
      have hlt := (Part.member hm).budget_lt hs
      omega
    cases m with
    | default ty readonly =>
      cases ty with
      | arith k => exact hT.pure trivial
      | array element size =>
        have hd : 2 * structs.budget (.array element size) + 2 ≤ depth + 1 := hd
        refine hT.fillNext ⟨_, readonly, #[], [], size, element⟩ (fun hne => ?_)
          (List.forall_mem_nil _) _
        exact ih _ (suffices_default (helement hd (Nat.pos_of_ne_zero hne)) readonly)
      | pointer _ _ | functionPointer _ => exact hT.pure trivial
      | struct name fields =>
        have hd : 2 * structs.budget (.struct name fields) + 2 ≤ depth + 1 := hd
        exact hstruct [] readonly none hd
      | void => exact hT.pure trivial
      | function _ | marker => exact hT.fail _ rfl
    | initial ty init readonly hint =>
      cases init with
      | expr e =>
        simp only [RunM.makeWithin]
        refine Sequential.ite (T := fun _ x Q => x.Meets _ Q) (hT.visit e hint _) ?_
        exact hT.inspect_bind (fun _ _ => rfl) fun _ => hT.visit e _ _
      | list span items =>
        have hd : 2 * structs.budget ty + 2 ≤ depth + 1 := hd
        have hpos : 0 < depth := by omega
        simp only [RunM.makeWithin]
        split
        · exact hT.fillArray _ _ _ _ _ _ _
            (fun hsize => ih _ (suffices_default (helement hd hsize) _))
            fun hsize item _ => ih _ (suffices_ofItem (helement hd hsize) _ _ item)
        · exact hstruct items readonly hint hd
        · rename_i harray hstruct
          refine ih _ ?_
          have hscalar : ty.isScalar = true := by
            cases ty with
            | array element size => exact absurd rfl (harray element size)
            | struct name fields => exact absurd rfl (hstruct name fields)
            | _ => rfl
          change if ty.isScalar then 0 < depth else _
          rwa [hscalar, if_pos rfl]
        · exact ih _ hpos
        · exact hT.fail _ rfl
        · exact hT.fail _ rfl
    | row ty items readonly hint =>
      have hd : 2 * structs.budget ty + 2 ≤ depth + 1 := hd
      cases ty with
      | array element size =>
        exact hT.fillArray _ _ _ _ _ _ _
          (fun hsize => ih _ (suffices_default (helement hd hsize) _))
          fun hsize item _ => ih _ (suffices_ofItem (helement hd hsize) _ _ item)
      | _ => exact hT.fail _ rfl
    | struct d items readonly hint =>
      simp only [RunM.makeWithin]
      refine hT.check (R := fun _ => True) (hT.fail _ rfl) ?_
      refine hT.fillNext _ (fun hne => absurd rfl hne) (fun part hp => ih part ?_) _
      exact suffices_members (fun m hm => Nat.le_of_lt_succ (hd.2 m hm)) items part hp
    | copy ty v readonly => exact hT.bind (hT.copy v ty) fun _ _ => hT.pure trivial
    | arrayOf ty v readonly =>
      have hd : 2 * structs.budget ty + 2 ≤ depth + 1 := hd
      have hpos : 0 < depth := by omega
      cases ty with
      | array element size =>
        refine hT.bind (hT.elementsFrom v) fun source _ => ?_
        dsimp only
        split
        · exact hT.bind (R := fun _ => False) (hT.fail _ rfl) fun _ hfalse => hfalse.elim
        · rename_i hcount
          refine hT.fillNext ⟨_, readonly, #[], [], size - source.length, element⟩
            (fun hne => ?_) (fun part hp => ?_) _
          · exact ih _ (suffices_default (helement hd (by dsimp only at hne; omega)) readonly)
          · obtain ⟨item, hitem, rfl⟩ := List.mem_map.mp hp
            have hsize := List.length_pos_of_mem hitem
            split
            · exact ih _ (helement hd (by omega))
            · exact ih _ hpos
      | _ => exact hT.fail _ rfl
    | nested => exact hT.fail _ rfl

/-- Every object is made to the end. -/
theorem meets_make_ends (m : Making) :
    (make m).Meets (onStructs (· = structs) Fault.Ends) Progress.Proceeds := by
  intro c s hpre
  obtain rfl : s.structs = structs := hpre
  exact meets_makeWithin hs (s.makingDepth m.type) m (suffices_makingDepth m) c s rfl

end RunM

end Stepwise
