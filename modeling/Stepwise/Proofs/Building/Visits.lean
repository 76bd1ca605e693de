import Stepwise.Proofs.Closure.Drives
import Stepwise.Proofs.Structs.Making

/-! # Initializers in order

The making of an object visits the expressions of its initializer in the order in which they
are written, and each of them once. What it visits in between are default initializers of
members that got none. What a making waits with tells which expressions are still to come,
and a step takes one of them at most.
-/

namespace Stepwise

open RunM

variable {c : Config} {s t : State}

mutual

/-- The expressions of an initializer, in the order in which they are written. -/
def Initializer.expressions : Initializer → List Expr
  | .expr e => [e]
  | .list _ items => Initializer.expressionsAll items

def Initializer.expressionsAll : List Initializer → List Expr
  | [] => []
  | item :: items => item.expressions ++ Initializer.expressionsAll items

end

/-- The second list is the first one with further elements, all of which are as `D` says. -/
inductive Interspersed {α : Type} (D : α → Prop) : List α → List α → Prop
  | nil : Interspersed D [] []
  | same (a : α) {xs ys : List α} (h : Interspersed D xs ys) : Interspersed D (a :: xs) (a :: ys)
  | further {a : α} (ha : D a) {xs ys : List α} (h : Interspersed D xs ys) :
    Interspersed D xs (a :: ys)

namespace Interspersed

variable {α : Type} {D : α → Prop} {xs ys zs : List α}

theorem refl (xs : List α) : Interspersed D xs xs := by
  induction xs with
  | nil => exact .nil
  | cons a xs ih => exact .same a ih

theorem append {xs' ys' : List α} (h : Interspersed D xs ys) (h' : Interspersed D xs' ys') :
    Interspersed D (xs ++ xs') (ys ++ ys') := by
  induction h with
  | nil => exact h'
  | same a _ ih => exact .same a ih
  | further ha _ ih => exact .further ha ih

theorem trans (h : Interspersed D xs ys) (h' : Interspersed D ys zs) : Interspersed D xs zs := by
  induction h' generalizing xs with
  | nil => exact h
  | further ha _ ih => exact .further ha (ih h)
  | same a _ ih =>
    cases h with
    | same _ h => exact .same a (ih h)
    | further ha h => exact .further ha (ih h)

theorem of_forall (h : ∀ a ∈ ys, D a) : Interspersed D [] ys := by
  induction ys with
  | nil => exact .nil
  | cons a ys ih =>
    obtain ⟨ha, hys⟩ := List.forall_mem_cons.mp h
    exact .further ha (ih hys)

theorem eq_nil (h : Interspersed D xs []) : xs = [] := by
  cases h
  rfl

/-- A first part of the second list comes from a first part of the first one. -/
theorem exists_append (h : Interspersed D xs (ys ++ zs)) :
    ∃ us vs, xs = us ++ vs ∧ Interspersed D us ys ∧ Interspersed D vs zs := by
  induction ys generalizing xs with
  | nil => exact ⟨[], xs, rfl, .nil, h⟩
  | cons a ys ih =>
    cases h with
    | same _ h =>
      obtain ⟨us, vs, rfl, hu, hv⟩ := ih h
      exact ⟨a :: us, vs, rfl, .same a hu, hv⟩
    | further ha h =>
      obtain ⟨us, vs, rfl, hu, hv⟩ := ih h
      exact ⟨us, vs, rfl, .further ha hu, hv⟩

end Interspersed

/-- The types that an object may have, and the struct definitions that its making meets. -/
structure Blueprint where
  types : Ty → Prop
  tables : StructTable → Prop

namespace Blueprint

/-- The type of the object or of one of its parts. -/
inductive IsPart (B : Blueprint) : Ty → Prop
  | whole {ty : Ty} (h : B.types ty) : IsPart B ty
  | element {element : Ty} {size : Nat} (h : IsPart B (.array element size)) : IsPart B element
  | member {structs : StructTable} (hs : B.tables structs) {name : String} {fields : List MemberTy}
    (h : IsPart B (.struct name fields)) {m : MemberTy}
    (hm : m ∈ ((structs.lookup name).getD ⟨name, fields⟩).members) : IsPart B m.ty

/-- The expression belongs to the default initializer of a member of the object or of one of its
parts. -/
inductive IsDefault (B : Blueprint) (e : Expr) : Prop
  | mk {structs : StructTable} (hs : B.tables structs) {name : String} {fields : List MemberTy}
    (hp : B.IsPart (.struct name fields)) {m : MemberTy}
    (hm : m ∈ ((structs.lookup name).getD ⟨name, fields⟩).members) {init : Initializer}
    (hd : m.default = some init) (he : e ∈ init.expressions)

end Blueprint

/-- The types of the objects that a declarator may stand for: its own, or an array of any size if
its first bound is open. -/
inductive Declared.Denotes (d : Declared) : Ty → Prop
  | type : Denotes d d.type
  | bound (ho : d.openBound = true) {element : Ty} (he : d.type.pointee? = some element) (n : Nat) :
    Denotes d (.array element n)

variable {B : Blueprint}

/-- The expressions that are written for the object, if it can be made at all. -/
def Making.Awaits (B : Blueprint) (xs : List Expr) : Making → Prop
  | default ty _ | arrayOf ty _ _ => xs = [] ∧ B.IsPart ty
  | initial ty init _ _ => xs = init.expressions ∧ B.IsPart ty
  | row ty items _ _ => xs = Initializer.expressionsAll items ∧ B.IsPart ty
  | struct d items _ _ => xs = Initializer.expressionsAll items ∧
    ∀ m ∈ d.members, B.IsPart m.ty ∧
      ∀ init, m.default = some init → ∀ e ∈ init.expressions, B.IsDefault e
  | copy .. => xs = []
  | nested => True

/-- The expressions that are written for objects, one after the other. -/
inductive Making.AwaitAll (B : Blueprint) : List Making → List Expr → Prop
  | nil : AwaitAll B [] []
  | cons {m : Making} {ms : List Making} {xs ys : List Expr} (hm : m.Awaits B xs)
    (hms : AwaitAll B ms ys) : AwaitAll B (m :: ms) (xs ++ ys)

/-- The expressions that are still to be visited once the frame has a value. -/
def Frame.Awaits (B : Blueprint) (xs : List Expr) : Frame .value .value → Prop
  | .fill f => Making.AwaitAll B f.next xs ∧ (f.defaults ≠ 0 → B.IsPart f.element)
  | .convert .. | .storeFirst .. => xs = []
  | .arrayFrom ty _ | .single ty _ => xs = [] ∧ B.IsPart ty
  | .openBound element _ => xs = [] ∧ ∀ n, B.IsPart (.array element n)
  | _ => False

inductive Frames.Awaits (B : Blueprint) : List Expr → Frames .value .value → Prop
  | nil : Awaits B [] .nil
  | cons {xs ys : List Expr} {f : Frame .value .value} {rest : Frames .value .value}
    (hf : f.Awaits B xs) (hr : rest.Awaits B ys) : Awaits B (xs ++ ys) (.cons f rest)

/-- A making that is suspended visits an expression; others are still to be visited. -/
inductive Progress.Awaits (B : Blueprint) : List Expr → Progress .value → Prop
  | done (v : Value) : Awaits B [] (.done v)
  | visit (e : Expr) (hint : Option StructTy) (node : Node) (previous : Option Node)
    {xs : List Expr} {path : Frames .value .value} (hp : path.Awaits B xs) :
    Awaits B (e :: xs) (.paused (.expr e hint) (.cons (.leave node previous) path))

namespace Frames.Awaits

variable {xs ys : List Expr}

theorem append {path path' : Frames .value .value} (h : path.Awaits B xs)
    (h' : path'.Awaits B ys) : (path ++ path').Awaits B (xs ++ ys) := by
  induction h with
  | nil => exact h'
  | cons hf _ ih =>
    rw [List.append_assoc]
    exact .cons hf ih

theorem one {f : Frame .value .value} (h : f.Awaits B xs) : (Frames.one f).Awaits B xs := by
  rw [← List.append_nil xs]
  exact .cons h .nil

end Frames.Awaits

theorem Making.awaitAll_map {α : Type} {g : α → Making} {l : List α}
    (h : ∀ a ∈ l, (g a).Awaits B []) : AwaitAll B (l.map g) [] := by
  induction l with
  | nil => exact .nil
  | cons a l ih =>
    obtain ⟨ha, hl⟩ := List.forall_mem_cons.mp h
    exact .cons ha (ih hl)

/-- The items of a list are what the parts of an array await. -/
theorem Making.awaitAll_items {element : Ty} (readonly : Bool) (hint : Option StructTy)
    (items : List Initializer) (hp : B.IsPart element) :
    AwaitAll B (items.map (ofItem element readonly hint)) (Initializer.expressionsAll items) := by
  induction items with
  | nil => exact .nil
  | cons item items ih =>
    refine .cons ?_ ih
    cases item with
    | expr e => exact ⟨rfl, hp⟩
    | list span items =>
      cases element with
      | array | struct => exact ⟨rfl, hp⟩
      | _ => trivial

/-- A struct awaits the items of its list, and then default initializers. -/
theorem Making.awaitAll_members {readonly : Bool} {hint : Option StructTy} {ms : List MemberTy}
    (hms : ∀ m ∈ ms, B.IsPart m.ty ∧
      ∀ init, m.default = some init → ∀ e ∈ init.expressions, B.IsDefault e)
    {items : List Initializer} (hlen : items.length ≤ ms.length) :
    ∃ ys, Interspersed B.IsDefault (Initializer.expressionsAll items) ys ∧
      AwaitAll B (members readonly hint ms items) ys := by
  induction ms generalizing items with
  | nil =>
    obtain rfl := List.eq_nil_of_length_eq_zero (Nat.le_zero.mp hlen)
    exact ⟨[], .nil, .nil⟩
  | cons m ms ih =>
    obtain ⟨⟨hpart, hdefault⟩, hms⟩ := List.forall_mem_cons.mp hms
    cases items with
    | cons item items =>
      obtain ⟨ys, hys, hall⟩ := ih hms (Nat.le_of_succ_le_succ hlen)
      exact ⟨_, (Interspersed.refl item.expressions).append hys, .cons ⟨rfl, hpart⟩ hall⟩
    | nil =>
      have hnone : ([] : List Initializer).length ≤ ms.length := Nat.zero_le _
      obtain ⟨ys, hys, hall⟩ := ih hms hnone
      cases hinit : m.default with
      | none =>
        refine ⟨[] ++ ys, hys, ?_⟩
        rw [members, hinit]
        exact .cons ⟨rfl, hpart⟩ hall
      | some init =>
        have hinits := Interspersed.of_forall (hdefault init hinit)
        refine ⟨init.expressions ++ ys, hinits.append hys, ?_⟩
        rw [members, hinit]
        exact .cons ⟨rfl, hpart⟩ hall

namespace RunM

variable {α : Type} {xs : List Expr}

/-- The struct definitions are as they were. -/
def KeepsStructs (x : RunM α) : Prop := ∀ c s a t, x c s = .ok a t → t.structs = s.structs

/-- The making is suspended with the expressions that it was to visit, and with defaults in
between. -/
def Expects (B : Blueprint) (x : RunM (Progress .value)) (xs : List Expr) : Prop :=
  ∀ c s p t, B.tables s.structs → x c s = .ok p t → t.structs = s.structs ∧
    ∃ ys, Interspersed B.IsDefault xs ys ∧ p.Awaits B ys

theorem lawful_structs : (Contract.onStructs (fun _ => True) fun _ => True).Lawful :=
  Contract.lawful_onStructs _ (fun _ _ => trivial) fun _ _ _ => trivial

theorem KeepsStructs.of_meets {x : RunM α} {Q : α → Prop}
    (h : x.Meets (.onStructs (fun _ => True) fun _ => True) Q) : x.KeepsStructs :=
  fun _ _ _ _ hx => (h.of_ok trivial hx).1

theorem meetsStructs_make (m : Making) :
    (make m).Meets (.onStructs (fun _ => True) fun _ => True) Progress.Proceeds :=
  meets_make lawful_structs (fun _ => trivial) m

theorem keepsStructs_resumeFrames {j k : Completion} (path : Frames j k) (r : j.Result) :
    (resumeFrames path r).KeepsStructs :=
  .of_meets (meets_resumeFrames lawful_structs (meets_readCharacter fun _ => rfl) meetsStructs_make
    path r)

theorem keepsStructs_initialValue (name : String) (d : Declared) (init : Option Initializer) :
    (initialValue name d init).KeepsStructs :=
  .of_meets ((closed_meets lawful_structs).initialValue meetsStructs_make name d init)

theorem keepsStructs_inspect (f : State → α) : (inspect f).KeepsStructs := by
  rintro c s a t ⟨⟩
  rfl

namespace Expects

theorem bind {x : RunM α} {f : α → RunM (Progress .value)} (hx : x.KeepsStructs)
    (hf : ∀ a, (f a).Expects B xs) : (x >>= f).Expects B xs := by
  intro c s p t hs h
  obtain ⟨a, u, ha, h⟩ := bind_eq_ok h
  rw [← hx c s a u ha] at hs ⊢
  exact hf a c u p t hs h

theorem fail (cause : FaultCause) : (fail cause).Expects B xs := fun _ _ _ _ _ h => nomatch h

theorem ite {b : Prop} [Decidable b] {x y : RunM (Progress .value)} (hx : b → x.Expects B xs)
    (hy : ¬b → y.Expects B xs) : (if b then x else y).Expects B xs := by
  split
  · exact hx ‹_›
  · exact hy ‹_›

/-- A check that may end the computation. -/
theorem check {b : Prop} [Decidable b] {cause : FaultCause} {f : PUnit → RunM (Progress .value)}
    (hf : ¬b → (f ⟨⟩).Expects B xs) :
    (if b then RunM.fail cause >>= f else f ⟨⟩).Expects B xs :=
  ite (fun _ _ _ _ _ _ h => nomatch h) hf

theorem done (v : Value) : (return .done v : RunM (Progress .value)).Expects B [] := by
  rintro c s p t hs ⟨⟩
  exact ⟨rfl, [], .nil, .done v⟩

theorem visit {f : Frame .value .value} (hf : f.Awaits B xs) (e : Expr) (hint : Option StructTy) :
    (visit e hint (.one f)).Expects B (e :: xs) := by
  rintro c s p t hs ⟨⟩
  exact ⟨rfl, _, .refl _, .visit e hint _ _ (.one hf)⟩

theorem finish (f : Filling) (made : Array Value) : (finish f made).Expects B [] := by
  rintro c s p t hs ⟨⟩
  exact ⟨rfl, [], .nil, .done _⟩

/-- Defaults may come in between before the making begins. -/
theorem of_interspersed {x : RunM (Progress .value)} {ys : List Expr}
    (h : Interspersed B.IsDefault xs ys) (hx : x.Expects B ys) : x.Expects B xs := by
  intro c s p t hs hp
  obtain ⟨ht, zs, hzs, hawaits⟩ := hx c s p t hs hp
  exact ⟨ht, zs, h.trans hzs, hawaits⟩

theorem storeFirst (v : Value) (readonly : Bool) (array : Value) :
    (storeFirst v readonly array).Expects B [] :=
  bind (.of_meets ((closed_meets lawful_structs).storeIntoFirst v readonly _ _)) fun _ => done array

section Fill

variable {make : Making → RunM (Progress .value)}
  (hmake : ∀ {m xs}, m.Awaits B xs → (make m).Expects B xs)

include hmake

theorem fillDefaults {f : Filling} {count : Nat} (hp : count ≠ 0 → B.IsPart f.element)
    (made : Array Value) : (fillDefaults make f count made).Expects B [] := by
  induction count generalizing made with
  | zero => exact finish f made
  | succ count ih =>
    have hpart := hp (Nat.succ_ne_zero count)
    intro c s p t hs h
    obtain ⟨q, u, hq, h⟩ := bind_eq_ok h
    obtain ⟨hu, ys, hys, hawaits⟩ :=
      hmake (m := .default f.element f.readonly) ⟨rfl, hpart⟩ c s q u hs hq
    rw [← hu] at hs ⊢
    cases hawaits with
    | visit e hint node previous hpath =>
      cases h
      refine ⟨rfl, _, hys, ?_⟩
      rw [← List.append_nil (_ :: _)]
      exact .visit e hint node previous (hpath.append (.one ⟨.nil, fun _ => hpart⟩))
    | done v =>
      dsimp only at h
      split at h
      · exact finish f _ c u p t hs h
      · exact ih (fun _ => hpart) _ c u p t hs h

theorem fillNext {f : Filling} (hp : f.defaults ≠ 0 → B.IsPart f.element) {next : List Making}
    (hn : Making.AwaitAll B next xs) (made : Array Value) :
    (fillNext make f next made).Expects B xs := by
  induction hn generalizing made with
  | nil => exact fillDefaults hmake hp made
  | cons hm hms ih =>
    intro c s p t hs h
    obtain ⟨q, u, hq, h⟩ := bind_eq_ok h
    obtain ⟨hu, ys, hys, hawaits⟩ := hmake hm c s q u hs hq
    rw [← hu] at hs ⊢
    cases hawaits with
    | visit e hint node previous hpath =>
      cases h
      exact ⟨rfl, _, hys.append (.refl _),
        .visit e hint node previous (hpath.append (.one ⟨hms, hp⟩))⟩
    | done v =>
      obtain ⟨ht, zs, hzs, hrest⟩ := ih (made.push v) c u p t hs h
      exact ⟨ht, zs, hys.append hzs, hrest⟩

theorem fillArray {element : Ty} {size : Nat} (hp : B.IsPart (.array element size))
    (items : List Initializer) (readonly : Bool) (hint : Option StructTy) (outermost : Bool) :
    (fillArray make (.array element size) element size items readonly hint outermost).Expects B
      (Initializer.expressionsAll items) := by
  unfold RunM.fillArray
  refine check fun _ => ?_
  dsimp only
  split
  · refine visit (?_ : (Frame.single _ readonly).Awaits B []) _ _
    exact ⟨rfl, hp⟩
  · exact fillNext hmake (fun _ => hp.element) (Making.awaitAll_items _ _ _ hp.element) _

end Fill

theorem makeWithin (depth : Nat) {m : Making} (hm : m.Awaits B xs) :
    (makeWithin depth m).Expects B xs := by
  induction depth generalizing m xs with
  | zero => exact fail _
  | succ depth ih =>
    -- A struct is made by its definition at the time.
    have hstruct {name : String} {fields : List MemberTy} (hp : B.IsPart (.struct name fields))
        (items : List Initializer) (readonly : Bool) (hint : Option StructTy) :
        (do RunM.makeWithin depth (.struct (← inspect fun s => s.currentStruct name fields) items
          readonly hint)).Expects B (Initializer.expressionsAll items) := by
      intro c s p t hs h
      let d := s.currentStruct name fields
      refine ih (m := .struct d items readonly hint) ⟨rfl, ?_⟩ c s p t hs h
      exact fun m hm => ⟨hp.member hs hm, fun init hd e he => ⟨hs, hp, hm, hd, he⟩⟩
    cases m with
    | default ty readonly =>
      obtain ⟨rfl, hp⟩ := hm
      cases ty with
      | arith k | pointer _ _ | functionPointer _ | void => exact done _
      | array element size => exact fillNext ih (fun _ => hp.element) .nil _
      | struct name fields => exact hstruct hp [] readonly none
      | function _ | marker => exact fail _
    | initial ty init readonly hint =>
      obtain ⟨rfl, hp⟩ := hm
      cases init with
      | expr e =>
        refine ite (fun _ => visit (f := .arrayFrom ty readonly) ⟨rfl, hp⟩ _ _) fun _ => ?_
        exact bind (keepsStructs_inspect _) fun _ => visit (f := .convert ty readonly) rfl _ _
      | list span items =>
        simp only [RunM.makeWithin]
        split
        · exact fillArray ih hp _ _ _ _
        · exact hstruct hp _ _ _
        · exact ih ⟨rfl, hp⟩
        · exact ih ⟨rfl, hp⟩
        · exact fail _
        · exact fail _
    | row ty items readonly hint =>
      obtain ⟨rfl, hp⟩ := hm
      cases ty with
      | array element size => exact fillArray ih hp _ _ _ _
      | _ => exact fail _
    | struct d items readonly hint =>
      obtain ⟨rfl, hmembers⟩ := hm
      simp only [RunM.makeWithin]
      refine check fun hlen => ?_
      obtain ⟨ys, hys, hall⟩ := Making.awaitAll_members hmembers (Nat.le_of_not_lt hlen)
      exact of_interspersed hys (fillNext ih (fun hne => absurd rfl hne) hall _)
    | copy ty v readonly =>
      obtain rfl : xs = [] := hm
      exact bind (.of_meets ((closed_meets lawful_structs).copy v ty)) fun _ => done _
    | arrayOf ty v readonly =>
      obtain ⟨rfl, hp⟩ := hm
      cases ty with
      | array element size =>
        refine bind (.of_meets ((closed_meets lawful_structs).elementsFrom v)) fun source => ?_
        refine check fun _ => ?_
        refine fillNext ih (fun _ => hp.element) (Making.awaitAll_map fun item _ => ?_) _
        split
        · exact ⟨rfl, hp.element⟩
        · rfl
      | _ => exact fail _
    | nested => exact fail _

theorem make {m : Making} (hm : m.Awaits B xs) : (make m).Expects B xs :=
  bind (keepsStructs_inspect _) fun depth => makeWithin depth hm

/-- What waits for the value of an initializer goes on with those that come after it. -/
theorem resumeFrame {f : Frame .value .value} (hf : f.Awaits B xs) (v : Value) :
    (resumeFrame f v).Expects B xs := by
  cases f with
  | fill f => exact fillNext make hf.2 hf.1 _
  | convert ty readonly => exact make (m := .copy ty v readonly) hf
  | arrayFrom ty readonly =>
    refine ite (fun _ => ?_) fun _ => make (m := .arrayOf ty v readonly) hf
    exact bind (keepsStructs_inspect _) fun _ => fun _ _ _ _ _ h => nomatch h
  | single ty readonly =>
    obtain ⟨rfl, hp⟩ := hf
    cases ty with
    | array element size =>
      refine ite (fun _ => ?_) fun _ => ite (fun _ => ?_) fun _ =>
        bind (keepsStructs_inspect _) fun _ => fail _
      · have hpart : (Making.arrayOf element v readonly).Awaits B [] := ⟨rfl, hp.element⟩
        exact fillNext make (fun _ => hp.element) (.cons hpart .nil) _
      · intro c s p t hs h
        obtain ⟨q, u, hq, h⟩ := bind_eq_ok h
        obtain ⟨hu, ys, hys, hawaits⟩ :=
          make (m := .default (.array element size) readonly) ⟨rfl, hp⟩ c s q u hs hq
        rw [← hu] at hs ⊢
        cases hawaits with
        | done w => exact storeFirst v readonly w c u p t hs h
        | visit e hint node previous hpath =>
          cases h
          refine ⟨rfl, _, hys, ?_⟩
          rw [← List.append_nil (_ :: _)]
          exact .visit e hint node previous (hpath.append (.one rfl))
    | _ => exact fail _
  | storeFirst w readonly =>
    obtain rfl : xs = [] := hf
    exact storeFirst w readonly v
  | openBound element readonly =>
    obtain ⟨rfl, hp⟩ := hf
    exact bind (.of_meets ((closed_meets lawful_structs).elementsFrom v)) fun source =>
      make (m := .arrayOf _ v readonly) ⟨rfl, hp _⟩
  | _ => exact hf.elim

theorem resumeFrames {path : Frames .value .value} (hp : path.Awaits B xs) (v : Value) :
    (resumeFrames path v).Expects B xs := by
  induction hp generalizing v with
  | nil => exact done v
  | cons hf _ ih =>
    intro c s p t hs h
    rcases within_eq_ok h with ⟨w, u, hw, hr⟩ | ⟨j, q, inner, hq, rfl⟩
    · obtain ⟨hu, ys, hys, hawaits⟩ := resumeFrame hf v c s _ u hs hw
      cases hawaits
      rw [← hu] at hs ⊢
      obtain ⟨ht, zs, hzs, hrest⟩ := ih w c u p t hs hr
      exact ⟨ht, _, hys.append hzs, hrest⟩
    · obtain ⟨ht, ys, hys, hawaits⟩ := resumeFrame hf v c s _ t hs hq
      cases hawaits with
      | visit e hint node previous hpath =>
        exact ⟨ht, _, hys.append (.refl _), .visit e hint node previous (hpath.append ‹_›)⟩

theorem initialValue (name : String) (d : Declared) (init : Initializer)
    (hd : ∀ ty, d.Denotes ty → B.types ty) :
    (initialValue name d (some init)).Expects B init.expressions := by
  unfold RunM.initialValue
  cases ho : d.openBound with
  | false => exact make ⟨rfl, .whole (hd _ .type)⟩
  | true =>
    unfold openValue
    cases he : d.type.pointee? with
    | none => exact fail _
    | some element =>
      have hpart (n : Nat) : B.IsPart (.array element n) := .whole (hd _ (.bound ho he n))
      cases init with
      | expr e => exact visit (f := .openBound element d.readonly) ⟨rfl, hpart⟩ _ _
      | list span items => exact make ⟨rfl, hpart _⟩

end Expects

/-- The expression that a making visits at once, and those of `later`, which gets the visit and what
waits for its value. -/
def visitsWith (later : {k : Completion} → Progress k → Frames k .value → State → List Expr)
    (x : RunM (Progress .value)) (c : Config) (s : State) : List Expr :=
  match x c s with
  | .ok (.paused (.expr e hint) (.cons leave outer)) t =>
    e :: later (.paused (.expr e hint) (.one leave)) outer t
  | _ => []

/-- The expressions that a making visits once it has the value of the one that it visits now, which
is driven on its own. -/
def visitsAfter (c : Config) :
    List (Console → Console) → {k : Completion} → Progress k → Frames k .value → State → List Expr
  | f :: fs, _, .paused q inner, outer, s =>
    match step q inner c (s.onConsole f) with
    | .ok (.done v) t => visitsWith (visitsAfter c fs) (resumeFrames outer v) c t
    | .ok p t => visitsAfter c fs p outer t
    | .error .. => []
  | _, _, _, _, _ => []

/-- The expressions that a making visits by itself while the host drives it. -/
def visits (fs : List (Console → Console)) (x : RunM (Progress .value)) (c : Config) (s : State) :
    List Expr := visitsWith (visitsAfter c fs) x c s

/-- The struct definitions that there are at one of the times when the computation is suspended. -/
def MeetsStructs (fs : List (Console → Console)) (x : RunM (Progress .value)) (c : Config)
    (s : State) (structs : StructTable) : Prop :=
  ∃ gs p t, gs <+: fs ∧ (x >>= drive gs) c s = .ok p t ∧ t.structs = structs

section Visits

variable {fs : List (Console → Console)} {vs : List Expr} {x : RunM (Progress .value)}

theorem MeetsStructs.of_eq {y : RunM (Progress .value)} {structs : StructTable}
    (hm : MeetsStructs fs y c t structs) (h : x c s = y c t) : MeetsStructs fs x c s structs := by
  obtain ⟨gs, p, u, hgs, hd, hu⟩ := hm
  exact ⟨gs, p, u, hgs, (bind_eq_of_eq h _).trans hd, hu⟩

/-- What is met after a step is met. -/
theorem MeetsStructs.of_step {y : RunM (Progress .value)} {structs : StructTable}
    (hm : MeetsStructs fs y c t structs) {j : Completion} {q : Pause j} {path : Frames j .value}
    {f : Console → Console} (h : step q path c (s.onConsole f) = y c t) :
    MeetsStructs (f :: fs) (return .paused q path) c s structs := by
  obtain ⟨gs, p, u, hgs, hd, hu⟩ := hm
  exact ⟨f :: gs, p, u, (List.prefix_cons_inj f).mpr hgs, (bind_eq_of_eq h _).trans hd, hu⟩

/-- The expressions are visited in the order of the others, with defaults in between; if the
computation ends, none is left out. -/
def InOrder (B : Blueprint) (x : RunM (Progress .value)) (c : Config) (s : State)
    (xs vs : List Expr) : Prop :=
  ∃ rest, Interspersed B.IsDefault xs (vs ++ rest) ∧ ∀ v t, x c s = .ok (.done v) t → rest = []

theorem InOrder.of_eq {y : RunM (Progress .value)} (h : InOrder B y c t xs vs)
    (hxy : x c s = y c t) : InOrder B x c s xs vs := by
  obtain ⟨rest, hi, hd⟩ := h
  exact ⟨rest, hi, fun v u hx => hd v u (hxy.symm.trans hx)⟩

/-- A computation that ends with a fault may leave expressions out. -/
theorem InOrder.of_error {fault : Fault} (h : x c s = .error fault t) : InOrder B x c s xs [] :=
  ⟨xs, .refl xs, fun _ _ hx => nomatch h.symm.trans hx⟩

/-- What a visit goes on to visit is in order. -/
def OrdersAfter (B : Blueprint) (c : Config) (fs : List (Console → Console)) : Prop :=
  ∀ {j : Completion} (q : Pause j) (inner : Frames j .value) (outer : Frames .value .value)
    (s : State) (xs : List Expr), outer.Awaits B xs →
    (∀ structs, MeetsStructs fs (return .paused q (inner ++ outer)) c s structs →
      B.tables structs) →
    InOrder B (drive fs (.paused q (inner ++ outer))) c s xs
      (visitsAfter c fs (.paused q inner) outer s)

theorem inOrder_visitsWith (hlater : OrdersAfter B c fs) (hx : x.Expects B xs) (hk : x.KeepsStructs)
    (ht : ∀ structs, MeetsStructs fs x c s structs → B.tables structs) :
    InOrder B (x >>= drive fs) c s xs (visitsWith (visitsAfter c fs) x c s) := by
  unfold visitsWith
  cases hp : x c s with
  | error fault t => exact .of_error (bind_error hp)
  | ok p t =>
    have hs : B.tables s.structs :=
      ht _ ⟨[], p, t, List.nil_prefix, bind_ok hp, hk c s p t hp⟩
    obtain ⟨-, ys, hys, hawaits⟩ := hx c s p t hs hp
    have hd : (x >>= drive fs) c s = drive fs p c t := bind_ok hp
    cases hawaits with
    | done v => exact ⟨[], hys, fun _ _ _ => rfl⟩
    | visit e hint node previous hpath =>
      obtain ⟨rest, hrest, hdone⟩ := hlater (.expr e hint) (.one (.leave node previous)) _ t _ hpath
        fun structs hm => ht structs (hm.of_eq hp)
      refine ⟨rest, hys.trans ?_, fun v u h => hdone v u (hd.symm.trans h)⟩
      exact .same e hrest

theorem ordersAfter (B : Blueprint) (c : Config) (fs : List (Console → Console)) :
    OrdersAfter B c fs := by
  induction fs with
  | nil => exact fun q inner outer s xs _ _ => ⟨xs, .refl xs, fun _ _ h => nomatch h⟩
  | cons f fs ih =>
    intro j q inner outer s xs hxs ht
    have hstep := congrFun (congrFun (step_append inner outer q) c) (s.onConsole f)
    have hdrive : drive (f :: fs) (.paused q (inner ++ outer)) c s =
        (step q (inner ++ outer) >>= drive fs) c (s.onConsole f) := rfl
    unfold visitsAfter
    -- The step is taken inside the visit; what waits for its value goes on if it completes.
    cases hx : step q inner c (s.onConsole f) with
    | error fault t =>
      refine ⟨xs, .refl xs, fun v u h => ?_⟩
      obtain ⟨p, w, hp, -⟩ := bind_eq_ok (hdrive.symm.trans h)
      rw [hstep, within_error hx] at hp
      exact absurd hp (unwind_ne_ok outer fault p)
    | ok p t =>
      cases p with
      | done v =>
        have hnext := hstep.trans (within_done hx)
        refine InOrder.of_eq ?_ (hdrive.trans (bind_eq_of_eq hnext (drive fs)))
        exact inOrder_visitsWith ih (.resumeFrames hxs v) (keepsStructs_resumeFrames outer v)
          fun structs hm => ht structs (hm.of_step hnext)
      | paused q' inner' =>
        have hnext := hstep.trans (within_paused hx)
        refine InOrder.of_eq ?_ (hdrive.trans (bind_ok hnext))
        exact ih q' inner' outer t xs hxs fun structs hm => ht structs (hm.of_step hnext)

end Visits

/-- Driven by the host, the making of a declared object visits the expressions of its initializer in
the order in which they are written, each of them once, up to where it is suspended or has failed.
In between it visits default initializers of members, and if the object is made, it has visited all
expressions. -/
theorem visits_initialValue_inOrder (name : String) (d : Declared) (init : Initializer) (c : Config)
    (s : State) (fs : List (Console → Console)) :
    ∃ written, written <+: init.expressions ∧
      Interspersed (Blueprint.IsDefault
          ⟨d.Denotes, MeetsStructs fs (initialValue name d (some init)) c s⟩)
        written (visits fs (initialValue name d (some init)) c s) ∧
      ∀ v t, (initialValue name d (some init) >>= drive fs) c s = .ok (.done v) t →
        written = init.expressions := by
  obtain ⟨rest, hrest, hdone⟩ := inOrder_visitsWith (ordersAfter _ c fs)
    (Expects.initialValue (B := ⟨d.Denotes, MeetsStructs fs (initialValue name d (some init)) c s⟩)
      name d init fun _ h => h)
    (keepsStructs_initialValue name d (some init)) fun _ h => h
  obtain ⟨written, left, heq, hwritten, hleft⟩ := hrest.exists_append
  refine ⟨written, ⟨left, heq.symm⟩, hwritten, fun v t h => ?_⟩
  rw [hdone v t h] at hleft
  rw [heq, hleft.eq_nil, List.append_nil]

end RunM

end Stepwise
