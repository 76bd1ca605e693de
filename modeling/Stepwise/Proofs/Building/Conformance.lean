import Stepwise.Proofs.Building.Completions

/-! # Objects have the shapes of their types

An object conforms to a type if it has as many parts as an array has elements, or one for each member of
a struct, and its scalars have the types that are declared. What an initializer builds conforms to
the type that it is for, if every struct has the definition that the type knows, and structs that
are copied conform to theirs. Its blocks are new, and nothing else leads to them.
-/

namespace Stepwise

open Heap

namespace Object

/-- The object has the parts that the type says, and its scalars have the types that it says. -/
inductive Conforms : Ty → Object → Prop
  | scalar {ty : Ty} {v : Value} : ty.isScalar = true → v.ty.named = ty.named →
    Conforms ty (.mk v [])
  | array {element : Ty} {size : Nat} {v : Value} {parts : List Object} :
    v.ty = .array element size → v.data = .array (some 0) 0 → parts.length = size →
    (∀ part ∈ parts, Conforms element part) → Conforms (.array element size) (.mk v parts)
  | struct {name : String} {fields : List MemberTy} {v : Value} {parts : List Object} :
    v.ty.named = .struct name [] → v.data = .struct 0 →
    List.Forall₂ (fun (m : MemberTy) part => Conforms m.ty part) fields parts →
    Conforms (.struct name fields) (.mk v parts)

variable {ty : Ty} {o : Object}

theorem Conforms.withReadonly (ho : o.Conforms ty) (r : Bool) : (o.withReadonly r).Conforms ty := by
  cases ho with
  | scalar hs hty => exact .scalar hs hty
  | array hty hdata hsize hparts => exact .array hty hdata hsize hparts
  | struct hty hdata hparts => exact .struct hty hdata hparts

theorem Conforms.isScalar_contents (ho : o.Conforms ty) : o.contents.ty.isScalar = ty.isScalar := by
  cases ho with
  | scalar hs hty => rw [contents, ← Ty.isScalar_named, hty, Ty.isScalar_named]
  | array hty => rw [contents, hty]
  | struct hty => rw [contents, ← Ty.isScalar_named, hty]; rfl

/-- An object still conforms if its first scalar has another value of the type. -/
theorem Conforms.stores {value : Value → Value → Prop} {o' : Object}
    (hvalue : ∀ v w, v.ty.isArray = false → value v w →
      v.ty.isScalar = true ∧ w.ty.named = v.ty.named)
    (ho : o.Conforms ty) (h : o.StoresFirst value o') : o'.Conforms ty := by
  induction h generalizing ty with
  | empty => exact ho
  | row harray _ ih =>
    cases ho with
    | array hty hdata hsize hparts =>
      obtain ⟨hfirst, hrest⟩ := List.forall_mem_cons.mp hparts
      exact .array hty hdata hsize (List.forall_mem_cons.mpr ⟨ih hfirst, hrest⟩)
    | struct hty hdata hparts =>
      cases hparts with
      | cons hfirst hrest => exact .struct hty hdata (.cons (ih hfirst) hrest)
  | scalar harray hstored =>
    obtain ⟨hscalar, hnamed⟩ := hvalue _ _ harray hstored
    have hother {ty : Ty} {first : Object} {w : Value} (ho : first.Conforms ty)
        (hscalar : first.contents.ty.isScalar = true) (hnamed : w.ty.named = first.contents.ty.named) :
        (Object.mk w []).Conforms ty := by
      rw [ho.isScalar_contents] at hscalar
      cases ho with
      | scalar hs hty => exact .scalar hs (hnamed.trans hty)
      | array | struct => cases hscalar
    cases ho with
    | array hty hdata hsize hparts =>
      obtain ⟨hfirst, hrest⟩ := List.forall_mem_cons.mp hparts
      exact .array hty hdata hsize
        (List.forall_mem_cons.mpr ⟨hother hfirst hscalar hnamed, hrest⟩)
    | struct hty hdata hparts =>
      cases hparts with
      | cons hfirst hrest => exact .struct hty hdata (.cons (hother hfirst hscalar hnamed) hrest)

end Object

/-- The struct has the definition that its type knows, or the struct that is copied conforms to its
type. -/
def Origin.Sound : Origin → Prop
  | .definition name fields d => d = ⟨name, fields⟩
  | .copy ty o => o.Conforms ty

namespace Making

variable {s : State} {m : Making} {v : Value} {ms : List Making} {l : List Origin}

theorem type_ofElement (element : Ty) (readonly : Bool) (item : Value) :
    (ofElement element readonly item).type = element := by
  unfold ofElement
  split <;> rfl

/-- The parts are of the types that their object needs, or they cannot be made. -/
theorem types_ofItem {element : Ty} {readonly : Bool} {hint : Option StructTy} {item : Initializer}
    (h : RunM.ofItem element readonly hint item ≠ .nested) :
    (RunM.ofItem element readonly hint item).type = element := by
  cases item with
  | expr e => rfl
  | list span items =>
    cases element with
    | array | struct => rfl
    | _ => exact absurd rfl h

theorem types_members (readonly : Bool) (hint : Option StructTy) (ms : List MemberTy)
    (items : List Initializer) :
    (RunM.members readonly hint ms items).map Making.type = ms.map MemberOf.ty := by
  induction ms generalizing items with
  | nil => rfl
  | cons m ms ih =>
    cases items with
    | cons item items => exact congrArg _ (ih items)
    | nil => 
      rw [RunM.members, List.map_cons, List.map_cons, ih]
      cases m.default <;> rfl

theorem Lists.type_eq {element : Ty} {size : Nat} {items : List Initializer} {readonly : Bool}
    {hint : Option StructTy} (hm : m.Lists element size items readonly hint) :
    m ≠ .nested ∧ m.type = .array element size ∧ items.length ≤ size := by
  cases hm with
  | outermost _ hle => exact ⟨nofun, rfl, hle⟩
  | inner hitems =>
    refine ⟨nofun, rfl, ?_⟩
    rcases hitems with rfl | hsize
    · exact Nat.zero_le _
    · exact Nat.le_of_eq hsize

/-- The making is one of an object of the type, and the object conforms. -/
def Conform (m : Making) (o : Object) : Prop := m ≠ .nested ∧ o.Conforms m.type

variable {os : List Object} {element : Ty}

theorem conforms_of_mem {size : Nat} {readonly : Bool} (h : List.Forall₂ Conform ms os)
    (hms : ∀ m ∈ ms, m ≠ .nested → m.type = element) (hsize : ms.length = size) :
    (Object.mk ((Ty.array element size).shell readonly) os).Conforms (.array element size) := by
  refine .array rfl rfl (h.length_eq ▸ hsize) fun part hpart => ?_
  obtain ⟨i, hi⟩ := List.getElem?_of_mem hpart
  obtain ⟨m, hm, hne, hconforms⟩ := Copies.exists_of_forall₂ h hi
  rwa [hms m (List.mem_of_getElem? hm) hne] at hconforms

/-- What is made of parts that conform does. -/
theorem Slots.conforms (hm : m.Slots s v ms l) (hl : ∀ origin ∈ l, origin.Sound)
    (hparts : List.Forall₂ Conform ms os) : m.Conform (.mk v os) := by
  cases hm with
  | @default element size readonly =>
    refine ⟨nofun, conforms_of_mem hparts (fun m hm _ => ?_) List.length_replicate⟩
    exact List.eq_of_mem_replicate hm ▸ rfl
  | @list _ element size items readonly hint hlists =>
    obtain ⟨hne, hty, hle⟩ := hlists.type_eq
    refine ⟨hne, hty ▸ conforms_of_mem hparts (fun m hm hne => ?_) ?_⟩
    · rcases List.mem_append.mp hm with hm | hm
      · obtain ⟨item, -, rfl⟩ := List.mem_map.mp hm
        exact types_ofItem hne
      · exact List.eq_of_mem_replicate hm ▸ rfl
    · rw [List.length_append, List.length_map, List.length_replicate, Nat.add_sub_cancel' hle]
  | @members _ name fields items readonly hint d hfields hcurrent hle =>
    obtain rfl := List.forall_mem_singleton.mp hl
    have hconforms := hparts.imp fun _ _ hpart => hpart.2
    have htypes : List.Forall₂ (fun ty o => Object.Conforms ty o) (fields.map MemberOf.ty) os := by
      rw [← types_members readonly hint fields items]
      exact List.forall₂_map_left_iff.mpr hconforms
    have hstruct : (Object.mk ((StructTy.type ⟨name, fields⟩).shell readonly) os).Conforms
        (.struct name fields) := .struct rfl rfl (List.forall₂_map_left_iff.mp htypes)
    cases hfields <;> exact ⟨nofun, hstruct⟩
  | @elements array element size readonly store position source harray hcells hle =>
    refine ⟨nofun, conforms_of_mem hparts (fun m hm _ => ?_) ?_⟩
    · rcases List.mem_append.mp hm with hm | hm
      · obtain ⟨item, -, rfl⟩ := List.mem_map.mp hm
        exact type_ofElement element readonly item
      · exact List.eq_of_mem_replicate hm ▸ rfl
    · rw [List.length_append, List.length_map, List.length_replicate, Nat.add_sub_cancel' hle]

end Making

namespace RunM

variable {c : Config} {s t : State} {ms : List Making} {os : List Object} {l : List Origin}

/-- What is built conforms to the types that it is made for. -/
theorem Constructs.conforms (h : Constructs c ms s os t l) (hl : ∀ origin ∈ l, origin.Sound) :
    List.Forall₂ Making.Conform ms os := by
  induction h with
  | nil => exact .nil
  | cons _ _ ih ihs =>
    obtain ⟨hfirst, hrest⟩ := List.forall_mem_append.mp hl
    cases ih hfirst with
    | cons ho _ => exact .cons ho (ihs hrest)
  | parts hslots _ _ ih =>
    obtain ⟨hown, hparts⟩ := List.forall_mem_append.mp hl
    exact .cons (hslots.conforms hown (ih hparts)) .nil
  | @zero ty readonly _ v hz =>
    refine .cons ⟨nofun, ?_⟩ .nil
    cases ty with
    | arith k =>
      cases hz
      cases k.isFloat <;> exact .scalar rfl rfl
    | void | pointer | functionPointer =>
      cases hz
      exact .scalar rfl rfl
    | _ => cases hz
  | braces | braced | value | array =>
    rename_i ih
    obtain ⟨-, ho⟩ := (List.forall₂_cons.mp (ih hl)).1
    exact .cons ⟨nofun, ho⟩ .nil
  | converted hty hw =>
    obtain ⟨-, hconverted⟩ := operate_gives (.convert _ false) hw
    exact .cons ⟨nofun, .scalar hty hconverted.type⟩ .nil
  | copied =>
    have hcopied := List.forall_mem_singleton.mp hl
    exact .cons ⟨nofun, Object.Conforms.withReadonly hcopied _⟩ .nil
  | @row m element size e readonly hint _ _ _ _ _ _ _ _ hlists harray _ _ _ _ ih =>
    obtain ⟨hne, hty, hle⟩ := hlists.type_eq
    refine .cons ⟨hne, hty ▸ Making.conforms_of_mem (ih hl) (fun m hm _ => ?_) ?_⟩ .nil
    · rcases List.mem_cons.mp hm with rfl | hm
      · rfl
      · exact List.eq_of_mem_replicate hm ▸ rfl
    · rw [List.length_cons, List.length_replicate]
      exact Nat.sub_add_cancel hle
  | scalar hlists _ _ hi _ _ hstores _ _ _ ih =>
    obtain ⟨hne, hty, -⟩ := hlists.type_eq
    obtain ⟨-, ho⟩ := (List.forall₂_cons.mp (ih hl)).1
    refine .cons ⟨hne, hty ▸ Object.Conforms.stores (fun first _ harray hstored => ?_) ho hstores⟩ .nil
    obtain ⟨w, hw, rfl⟩ := hstored
    obtain ⟨-, hconverted⟩ := operate_gives (.convert _ false) hw
    exact ⟨isScalar_of_convert hi harray hw, hconverted.type⟩

/-- What an initializer builds conforms to the type that it gives the variable. -/
theorem Initializes.conforms {d : Declared} {init : Option Initializer} {ty : Ty} {o : Object}
    (h : Initializes c d init s ty o t l) (hl : ∀ origin ∈ l, origin.Sound) : o.Conforms ty := by
  cases h with
  | default _ h | initial _ h | items _ _ h | elements _ _ _ _ _ h =>
    exact (List.forall₂_cons.mp (h.conforms hl)).1.2

section Variables

variable {name : String} {d : Declared} {init : Option Initializer} {v : Value}

/-- The value of a variable represents the object that its initializer says. -/
theorem yields_initialValue (hs : s.Hides ∅) (h : (initialValue name d init).Completes c s v t) :
    ∃ ty o F l, Initializes c d init s ty o t l ∧ Yields ∅ s t [o] [v] F := by
  have hmade {m : Making} {s : State} (hs : s.Hides ∅) (hpart : IsPart m)
      (hwithin : m.Within (s.reach ∅)) (h : (make m).Completes c s v t) : Built ∅ c s m v t := by
    obtain ⟨n, hn⟩ := h.exists_completesIn
    exact (buildsIn_make n).1 m c ∅ s v t hpart hwithin hs hs hn
  unfold initialValue at h
  split at h
  · rename_i hopen
    unfold openValue at h
    split at h
    · exact absurd h (not_completes_of_error rfl)
    · obtain ⟨o, F, l, ho, hy⟩ := hmade (m := .initial ..) hs trivial trivial h
      exact ⟨_, o, F, l, .items hopen ‹_› ho, hy⟩
    · obtain ⟨w, u, hw, hmake⟩ := completes_visit_iff.mp h
      obtain ⟨hpasses, hwithin⟩ := passesBy_visit hs hw
      obtain ⟨source, x, hsource, hrest⟩ := completes_bind hmake
      obtain ⟨rfl, store, position, harray, hcells⟩ := elementsFrom_eq_ok hsource
      obtain ⟨o, F, l, ho, hy⟩ := hmade (m := .arrayOf ..) hpasses.hides trivial hwithin.toLies hrest
      exact ⟨_, o, F, l, .elements hopen ‹_› hw harray hcells ho, hy.after hpasses hpasses⟩
    · exact absurd h (not_completes_of_error rfl)
  · obtain ⟨o, F, l, ho, hy⟩ := hmade (m := .initial ..) hs trivial trivial h
    exact ⟨_, o, F, l, .initial ‹_› ho, hy⟩
  · obtain ⟨o, F, l, ho, hy⟩ := hmade (m := .default ..) hs trivial trivial h
    exact ⟨_, o, F, l, .default ‹_› ho, hy⟩

/-- An array of arrays, `int a[2][2]`. -/
def declaredRows : Declared := ⟨some "a", .array (.array .int 2) 2, false, false, false, []⟩

/-- The list `{0}`. -/
def listOfZero : Initializer := .list default [.expr (.literal default (.int 0 10 false false))]

end Variables

end RunM

end Stepwise
