import Stepwise.Proofs.Structs.Making

/-! # Steps come to an end

The bound on the depth of the recursion that makes an object is seen only when it is reached: with a
larger bound the recursion does the same. A step that leaves struct definitions behind of which no
type is a part of itself has made its objects to the end. Only a definition that closes a circle
makes later objects endless.
-/

namespace Stepwise

section Depth

namespace RunM

/-- The second computation does what the first one does, unless that is cut short. -/
def Prolongs {α : Type} (x y : RunM α) : Prop := ∀ c s,
  y c s = x c s ∨ ∃ fault t, x c s = .error fault t ∧ ¬fault.Ends

namespace Prolongs

variable {α β : Type}

theorem refl (x : RunM α) : Prolongs x x := fun _ _ => .inl rfl

theorem trans {x y z : RunM α} (hxy : Prolongs x y) (hyz : Prolongs y z) : Prolongs x z := by
  intro c s
  rcases hxy c s with hx | hx
  · rcases hyz c s with hy | hy
    · exact .inl (hy.trans hx)
    · rw [hx] at hy
      exact .inr hy
  · exact .inr hx

theorem bind {x y : RunM α} {f g : α → RunM β} (hx : Prolongs x y)
    (hf : ∀ a, Prolongs (f a) (g a)) : Prolongs (x >>= f) (y >>= g) := by
  intro c s
  simp only [Bind.bind, ReaderT.bind, EStateM.bind]
  rcases hx c s with hx | ⟨fault, t, hx, hfault⟩
  · rw [hx]
    cases x c s with
    | ok a t => exact hf a c t
    | error fault t => exact .inl rfl
  · rw [hx]
    exact .inr ⟨fault, t, rfl, hfault⟩

theorem bind_left (x : RunM α) {f g : α → RunM β} (hf : ∀ a, Prolongs (f a) (g a)) :
    Prolongs (x >>= f) (x >>= g) := bind (refl x) hf

theorem ite {p : Prop} [Decidable p] {x y x' y' : RunM α} (hx : Prolongs x x')
    (hy : Prolongs y y') : Prolongs (if p then x else y) (if p then x' else y') := by
  split
  · exact hx
  · exact hy

section Fill

variable {make make' : Making → RunM (Progress .value)} (hm : ∀ m, Prolongs (make m) (make' m))

include hm

theorem fillDefaults (f : Filling) (count : Nat) (made : Array Value) :
    Prolongs (fillDefaults make f count made) (fillDefaults make' f count made) := by
  induction count generalizing made with
  | zero => exact refl _
  | succ n ih =>
    refine bind (hm _) fun p => ?_
    cases p with
    | paused p path => exact refl _
    | done v => exact ite (refl _) (ih _)

theorem fillNext (f : Filling) (next : List Making) (made : Array Value) :
    Prolongs (fillNext make f next made) (fillNext make' f next made) := by
  induction next generalizing made with
  | nil => exact fillDefaults hm f f.defaults made
  | cons m rest ih =>
    refine bind (hm m) fun p => ?_
    cases p with
    | paused p path => exact refl _
    | done v => exact ih _

theorem fillArray (ty element : Ty) (size : Nat) (items : List Initializer) (readonly : Bool)
    (hint : Option StructTy) (outermost : Bool) :
    Prolongs (fillArray make ty element size items readonly hint outermost)
      (fillArray make' ty element size items readonly hint outermost) := by
  have hfill : Prolongs
      (RunM.fillNext make ⟨ty, readonly, #[], [], size - items.length, element⟩
        (items.map (ofItem element readonly hint)) #[])
      (RunM.fillNext make' ⟨ty, readonly, #[], [], size - items.length, element⟩
        (items.map (ofItem element readonly hint)) #[]) := fillNext hm _ _ _
  unfold RunM.fillArray
  refine ite (bind_left _ fun _ => ?_) ?_
  · split
    · exact refl _
    · exact hfill
  · split
    · exact refl _
    · exact hfill

end Fill

/-- One more level of recursion changes nothing that ends without it. -/
theorem makeWithin_succ (depth : Nat) (m : Making) :
    Prolongs (makeWithin depth m) (makeWithin (depth + 1) m) := by
  induction depth generalizing m with
  | zero => exact fun c s => .inr ⟨_, _, rfl, nofun⟩
  | succ depth ih =>
    cases m with
    | default ty readonly =>
      cases ty with
      | array element size => exact fillNext ih _ _ _
      | struct name fields => exact bind_left _ fun d => ih _
      | _ => exact refl _
    | initial ty init readonly hint =>
      cases init with
      | expr e => exact refl _
      | list span items =>
        simp only [RunM.makeWithin]
        split
        · exact fillArray ih _ _ _ _ _ _ _
        · exact bind_left _ fun d => ih _
        · exact ih _
        · exact ih _
        · exact refl _
        · exact refl _
    | row ty items readonly hint =>
      cases ty with
      | array element size => exact fillArray ih _ _ _ _ _ _ _
      | _ => exact refl _
    | struct d items readonly hint =>
      exact ite (refl _) (fillNext ih _ _ _)
    | copy => exact refl _
    | arrayOf ty v readonly =>
      cases ty with
      | array element size =>
        refine bind_left _ fun source => ?_
        exact ite (refl _) (fillNext ih _ _ _)
      | _ => exact refl _
    | nested => exact refl _

theorem makeWithin_le {depth depth' : Nat} (h : depth ≤ depth') (m : Making) :
    Prolongs (makeWithin depth m) (makeWithin depth' m) := by
  induction h with
  | refl => exact refl _
  | step _ ih => exact ih.trans (makeWithin_succ _ m)

end Prolongs

/-- If no type is a part of itself, the depth of the recursion is not bounded in effect. -/
theorem makeWithin_eq_make {s : State} (hs : StructTable.Acyclic s.structs) (c : Config)
    {m : Making} {depth : Nat} (hd : s.makingDepth m.type ≤ depth) :
    makeWithin depth m c s = make m c s := by
  have hmake : make m c s = makeWithin (s.makingDepth m.type) m c s := rfl
  rw [hmake]
  rcases Prolongs.makeWithin_le hd m c s with h | ⟨fault, t, h, hfault⟩
  · exact h
  · exact absurd ((meets_make_ends hs m).of_error rfl (hmake.trans h)).2 hfault

end RunM

end Depth

open RunM StructTable Contract

variable {c : Config} {s t : State} {fault : Fault} {j k : Completion}

namespace Contract

/-- Faults are not for want of an end. -/
def ends : Contract where
  pre _ := True
  heap _ _ := True
  kept _ _ := True
  raises := Fault.Ends

theorem lawful_ends_any : ends.Lawful where
  heaps := ⟨fun _ => trivial, fun _ _ => trivial, fun _ _ => trivial, fun _ => trivial,
    fun _ => trivial⟩
  refl _ := trivial
  trans _ _ := trivial
  stays _ _ := trivial
  raises _ h := h
  orAt h := h
  change _ _ := trivial
  onHeap _ := trivial
  write _ _ := trivial

end Contract

namespace RunM

/-- What keeps the definitions, and raises no endless fault if no type is a part of itself. -/
structure EndsOn {α : Type} (x : RunM α) : Prop where
  keeps : x.Meets (onStructs (fun _ => True) fun _ => True) fun _ => True
  ends : ∀ structs : StructTable, structs.Acyclic →
    x.Meets (onStructs (· = structs) Fault.Ends) fun _ => True

/-- The definitions afterwards are those before. -/
theorem EndsOn.fault_ends {α : Type} {x : RunM α} (hx : x.EndsOn) (h : x c s = .error fault t)
    (ht : StructTable.Acyclic t.structs) : fault.Ends := by
  have hkept : t.structs = s.structs := (hx.keeps.of_error trivial h).1
  rw [hkept] at ht
  exact ((hx.ends s.structs ht).of_error rfl h).2

section Laws

variable {pre : StructTable → Prop} {raises : Fault → Prop}

theorem lawful_all : (onStructs (fun _ => True) fun _ => True).Lawful :=
  lawful_onStructs _ (fun _ _ => trivial) fun _ _ _ => trivial

theorem meets_readCharacter_onStructs :
    readCharacter.Meets (onStructs pre raises) fun _ => True :=
  meets_readCharacter fun _ => rfl

end Laws

theorem endsOn_resumeFrames (path : Frames j k) (r : j.Result) : (resumeFrames path r).EndsOn where
  keeps := meets_resumeFrames lawful_all meets_readCharacter_onStructs
    (meets_make lawful_all fun _ => trivial) path r
  ends _ hs := meets_resumeFrames (lawful_ends _) meets_readCharacter_onStructs
    (meets_make_ends hs) path r

theorem endsOn_step {p : Pause j} (hp : p.definesStruct = false) (path : Frames j k) :
    (step p path).EndsOn where
  keeps := by
    have hm := meets_make lawful_all fun _ => trivial
    exact meets_step lawful_all meets_readCharacter_onStructs hm
      ((closed_meets lawful_all).resumePause_other meets_readCharacter_onStructs hm hp) path
  ends _ hs := by
    have hm := meets_make_ends hs
    exact meets_step (lawful_ends _) meets_readCharacter_onStructs hm
      ((closed_meets (lawful_ends _)).resumePause_other meets_readCharacter_onStructs hm hp) path

/-- A step that leaves no type behind that is a part of itself is no endless recursion. -/
theorem step_ends {p : Pause j} {path : Frames j k} (h : step p path c s = .error fault t)
    (ht : StructTable.Acyclic t.structs) : fault.Ends := by
  cases hp : p.definesStruct with
  | false => exact (endsOn_step hp path).fault_ends h ht
  | true =>
    -- The definition makes no objects, and the frames keep it.
    have hK := lawful_ends_any
    have hdef : (resumePause p).Meets Contract.ends fun _ => True :=
      (closed_meets hK).resumePause_definition (meets_readCharacter fun _ => trivial)
        (fun _ _ _ _ => ⟨trivial, trivial⟩) hp
    cases hx : resumePause p c s with
    | error earlier u =>
      have hearlier : earlier.Ends := (hdef.of_error trivial hx).2
      have hunwind : (unwind path earlier : RunM (Progress k)).Meets Contract.ends fun _ => True :=
        meets_unwind hK path hearlier
      exact (hunwind.of_error trivial ((within_error hx).symm.trans h)).2
    | ok q u =>
      cases q with
      | done r =>
        exact (endsOn_resumeFrames path r).fault_ends ((within_done hx).symm.trans h) ht
      | paused q inner => cases (within_paused hx).symm.trans h

end RunM

theorem Run.step_ends {r : Run} {fault : Fault} (hr : r.isFinished = false)
    (h : r.step.1 = .error fault) (ht : StructTable.Acyclic r.step.2.state.structs) :
    fault.Ends := by
  obtain ⟨config, s, rest⟩ := r
  cases rest with
  | ended result => cases hr
  | suspended p path =>
    cases hs : RunM.step p path config s with
    | ok progress t =>
      cases progress with
      | done v =>
        rw [step_done hs] at h
        cases h
      | paused q inner =>
        rw [step_paused hs] at h
        cases h
    | error earlier t =>
      rw [step_fault hs] at h ht
      cases h
      exact RunM.step_ends hs ht

/-- As long as no type is a part of itself, every object is made to the end, so that no larger bound
on the depth makes a difference, and every step ends with the next node, with the status of the
program or with a fault of the program. There is no such type in the beginning, and there is none
after a definition whose members do not lead back to what it defines. -/
theorem Run.regains_control (c : Config) (s : State) :
    (∀ m fault t, StructTable.Acyclic s.structs → make m c s = .error fault t → fault.Ends) ∧
    (∀ m depth, StructTable.Acyclic s.structs → s.makingDepth m.type ≤ depth →
      makeWithin depth m c s = make m c s) ∧
    (∀ (r : Run) fault, StructTable.Acyclic r.step.2.state.structs → r.isFinished = false →
      r.step.1 = .error fault → fault.Ends) ∧
    (∀ p console files,
      StructTable.Acyclic (Run.ofProgram c p console files).state.structs) ∧
    ∀ (t : State) d, StructTable.Acyclic s.structs → defineStruct d c s = .ok () t →
      (∀ m ∈ d.members, ¬StructTable.Meets t.structs m.ty d.name) →
      StructTable.Acyclic t.structs := by
  refine ⟨fun m fault t hs h => ?_, fun m depth hs hd => makeWithin_eq_make hs c hd,
    fun r fault ht hr h => r.step_ends hr h ht,
    fun _ _ _ => acyclic_nil, fun t d hs h hd => ?_⟩
  · exact ((meets_make_ends hs m).of_error rfl h).2
  · cases h
    exact Acyclic.define hs hd

/-- `struct Point { int x; };` -/
def pointTy : StructTy := ⟨"Point", [⟨"x", .arith .int, false, none⟩]⟩

/-- The definition was the first statement of a program, and a name without a declaration comes
next. -/
def runOfPoint : Run :=
  ⟨{}, { structs := [("Point", pointTy)] }, .suspended (.expr (.identifier default "x") none) .nil⟩

theorem Run.regains_control_point :
    StructTable.Acyclic runOfPoint.state.structs ∧
    (∃ fault t, make (.row pointTy.type [] false none) {} runOfPoint.state = .error fault t ∧
      fault.Ends) ∧
    ∃ fault : Fault, runOfPoint.step.1 = .error fault ∧ fault.Ends := by
  obtain ⟨-, -, -, hbegin, hdefine⟩ := regains_control {} {}
  obtain ⟨hmake, -, hstep, -, -⟩ := regains_control {} runOfPoint.state
  have hscalar (structs : StructTable) : ¬structs.Meets (.arith .int) "Point" := by
    rintro ⟨fields, h⟩
    rcases h.cases_head with h | ⟨u, hu, -⟩
    · cases h
    · cases hu
  have hpoint : StructTable.Acyclic runOfPoint.state.structs := by
    refine hdefine _ pointTy (hbegin ⟨[], []⟩ {} {}) rfl fun m hm => ?_
    obtain rfl := List.mem_singleton.mp hm
    exact hscalar _
  have hrow := hmake (.row pointTy.type [] false none) _ _ hpoint rfl
  exact ⟨hpoint, ⟨_, _, rfl, hrow⟩, ⟨_, rfl, hstep runOfPoint _ hpoint rfl rfl⟩⟩

/-- `struct S { S s; };` -/
def structOfItself : Stmt :=
  .struct default "S" [⟨⟨[], ["S"], default⟩, .mk default [] false (.named "s") [], none⟩] []

/-- What the definition declares. -/
def typeOfItself : StructTy := ⟨"S", [⟨"s", .struct "S" [], false, none⟩]⟩

def stateOfItself : State := { structs := [("S", typeOfItself)] }

/-- The definition is accepted, and however deep the making of an object goes, it does not come to
an end. -/
theorem RunM.endless_structOfItself :
    execute structOfItself false {} {} = .ok (.done .normal) stateOfItself ∧
      ∀ depth, ∃ fault t, makeWithin depth (.default (.struct "S" []) false) {} stateOfItself =
        .error fault t ∧ ¬fault.Ends := by
  refine ⟨rfl, fun depth => ?_⟩
  -- The member of the struct is to be made with what is left of the depth.
  have hend (depth : Nat) : (∃ fault t, makeWithin depth (.default (.struct "S" []) false) {}
        stateOfItself = .error fault t ∧ ¬fault.Ends) ∧
      ∃ fault t, makeWithin depth (.struct typeOfItself [] false none) {} stateOfItself =
        .error fault t ∧ ¬fault.Ends := by
    induction depth with
    | zero => exact ⟨⟨_, _, rfl, nofun⟩, ⟨_, _, rfl, nofun⟩⟩
    | succ depth ih =>
      obtain ⟨⟨fault, t, hmember, hfault⟩, hstruct⟩ := ih
      refine ⟨hstruct, ⟨fault, t, ?_, hfault⟩⟩
      change (makeWithin depth (.default (.struct "S" []) false) >>= _) {} stateOfItself = _
      simp only [Bind.bind, ReaderT.bind, EStateM.bind, hmember]
  exact (hend depth).1

end Stepwise
