import Stepwise.Machine.Declare
import Stepwise.Proofs.Closure.Frames
import Stepwise.Proofs.Constants.Cells

/-! # Making constant objects

An object that is made to be constant is constant when it is done, however often its making
is suspended, and so are the elements of an array. The frames that wait for the parts of an
object remember what it is to be.
-/

namespace Stepwise

open RunM

/-- The object is to be constant; lists in the place of single values are never made. -/
def Making.readonly : Making → Bool
  | default _ readonly | initial _ _ readonly _ | row _ _ readonly _ => readonly
  | struct _ _ readonly _ | copy _ _ readonly | arrayOf _ _ readonly => readonly
  | nested => true

/-- Arrays are not made by copying values. -/
def Making.isProper : Making → Bool
  | copy ty _ _ => !ty.isArray
  | _ => true

/-- What a pointer points to and the elements of an array are constant. -/
structure Heap.ConstantTargets (h : Heap) (v : Value) : Prop where
  elements : ∀ store position, v.data = .array (some store) position → h.ConstantBlock store
  target : ∀ p, v.data = .pointer (some p) →
    h.Constant p ∧ (p.role = .element → h.ConstantBlock p.block)

theorem Heap.KeepsConstants.constantTargets {h h' : Heap} (hk : h.KeepsConstants h') {v : Value}
    (hv : h.ConstantTargets v) : h'.ConstantTargets v where
  elements store position hd := hk.constantBlock (hv.elements store position hd)
  target p hd :=
    ⟨hk.constant (hv.target p hd).1, fun hr => hk.constantBlock ((hv.target p hd).2 hr)⟩

/-- A constant object that is being filled: its parts are constant. -/
structure Filling.Constant (f : Filling) : Prop where
  readonly : f.readonly = true
  made : ∀ v ∈ f.made, v.readonly = true
  next : ∀ m ∈ f.next, m.readonly = true ∧ m.isProper = true

/-- The frame makes a constant object, which is an array or not, of whatever value it is given. -/
def Frame.Builds (isArray : Bool) : Frame .value .value → Prop
  | .convert ty readonly => readonly = true ∧ ty.isArray = false ∧ isArray = false
  | .arrayFrom ty readonly | .single ty readonly => readonly = true ∧ ty.isArray = isArray
  | .openBound _ readonly => readonly = true ∧ isArray = true
  | _ => False

/-- A path to a constant object. -/
inductive Frames.Builds : Bool → {j : Completion} → Frames j .value → Prop
  | frame {isArray : Bool} {j : Completion} (inner : Frames j .value) {f : Frame .value .value}
    (hf : f.Builds isArray) : Builds isArray (inner ++ one f)
  /-- A part of the object is being made. -/
  | fill {isArray part : Bool} {j : Completion} {path : Frames j .value} (hp : Builds part path)
    {f : Filling} (hf : f.Constant) : Builds isArray (path ++ one (.fill f))
  | storeFirst {isArray : Bool} {j : Completion} {path : Frames j .value}
    (hp : Builds isArray path) (v : Value) : Builds isArray (path ++ one (.storeFirst v true))

/-- A constant object, or a part of a run that makes one. -/
def Progress.Builds (isArray : Bool) (h : Heap) : Progress .value → Prop
  | .done v => v.readonly = true ∧ (isArray = true → h.ConstantTargets v)
  | .paused _ path => path.Builds isArray

namespace RunM

variable {α : Type} {isArray : Bool}

/-- What the computation makes is constant. -/
def Builds (isArray : Bool) (x : RunM (Progress .value)) : Prop := ∀ c s p t,
  x c s = .ok p t → p.Builds isArray t.heap

namespace Builds

theorem bind {x : RunM α} {f : α → RunM (Progress .value)} (hf : ∀ a, (f a).Builds isArray) :
    (x >>= f).Builds isArray := by
  intro c s p t h
  obtain ⟨a, u, -, ha⟩ := bind_eq_ok h
  exact hf a c u p t ha

theorem fail (cause : FaultCause) : (fail cause).Builds isArray := fun _ _ _ _ h => nomatch h

theorem ite {b : Prop} [Decidable b] {x y : RunM (Progress .value)} (hx : x.Builds isArray)
    (hy : y.Builds isArray) : (if b then x else y).Builds isArray := by
  split
  · exact hx
  · exact hy

/-- A check that may end the computation. -/
theorem check {b : Prop} [Decidable b] {x : RunM PUnit} {f : PUnit → RunM (Progress .value)}
    (hf : (f ⟨⟩).Builds isArray) : (if b then x >>= f else f ⟨⟩).Builds isArray :=
  ite (bind fun _ => hf) hf

theorem visit {f : Frame .value .value} (hf : f.Builds isArray) (e : Expr)
    (hint : Option StructTy) : (visit e hint (.one f)).Builds isArray := by
  refine bind fun s => bind fun _ => ?_
  rintro c u p t ⟨⟩
  exact Frames.Builds.frame (.one (.leave e.node s.cursor)) hf

theorem done {v : Value} (hv : v.readonly = true) (ha : isArray = false) :
    (return .done v : RunM (Progress .value)).Builds isArray := by
  rintro c s p t ⟨⟩
  refine ⟨hv, fun harray => ?_⟩
  cases ha.symm.trans harray

/-- The cells of a new block are constant if its parts are. -/
theorem finish {f : Filling} {made : Array Value} (hr : f.readonly = true)
    (hm : ∀ v ∈ made, v.readonly = true) : (finish f made).Builds isArray := by
  rintro c s p t ⟨⟩
  refine ⟨hr, fun _ => ?_⟩
  have hblock : (s.heap.alloc made).2.ConstantBlock s.heap.blocks.size := by
    refine ⟨?_, ?_⟩
    · change _ < (s.heap.blocks.push made).size
      simp
    · rwa [Heap.cells_alloc, if_pos rfl]
  constructor
  · intro store position hstore
    cases hty : f.target <;> · rw [hty] at hstore; cases hstore <;> exact hblock
  · intro p hp
    cases hty : f.target <;> · rw [hty] at hp; cases hp

section Fill

variable {make : Making → RunM (Progress .value)}
  (hmake : ∀ m, m.readonly = true → m.isProper = true → (make m).Builds m.type.isArray)

include hmake

theorem fillDefaults {f : Filling} (hf : f.readonly = true) (count : Nat) {made : Array Value}
    (hm : ∀ v ∈ made, v.readonly = true) : (fillDefaults make f count made).Builds isArray := by
  induction count generalizing made with
  | zero => exact finish hf hm
  | succ n ih =>
    intro c s p t h
    obtain ⟨q, u, hq, h⟩ := bind_eq_ok h
    have hq := hmake (.default f.element f.readonly) hf rfl c s q u hq
    cases q with
    | paused q path =>
      cases h
      exact .fill hq ⟨hf, hm, List.forall_mem_nil _⟩
    | done v =>
      have hv : v.readonly = true := hq.1
      refine ite (finish hf ?_) (ih ?_) c u p t h
      · intro w hw
        rcases Array.mem_append.mp hw with hw | hw
        · exact hm w hw
        · rw [Array.mem_replicate.mp hw |>.2]
          exact hv
      · intro w hw
        rcases Array.mem_push.mp hw with hw | rfl
        · exact hm w hw
        · exact hv

theorem fillNext {f : Filling} (hf : f.readonly = true) {next : List Making} {made : Array Value}
    (hn : ∀ m ∈ next, m.readonly = true ∧ m.isProper = true) (hm : ∀ v ∈ made, v.readonly = true) :
    (fillNext make f next made).Builds isArray := by
  induction next generalizing made with
  | nil => exact fillDefaults hmake hf f.defaults hm
  | cons m rest ih =>
    intro c s p t h
    obtain ⟨hfirst, hrest⟩ := List.forall_mem_cons.mp hn
    obtain ⟨q, u, hq, h⟩ := bind_eq_ok h
    have hq := hmake m hfirst.1 hfirst.2 c s q u hq
    cases q with
    | paused q path =>
      cases h
      exact .fill hq ⟨hf, hm, hrest⟩
    | done v =>
      refine ih hrest (fun w hw => ?_) c u p t h
      rcases Array.mem_push.mp hw with hw | rfl
      · exact hm w hw
      · exact hq.1

theorem fillArray {ty : Ty} (hty : ty.isArray = isArray) (element : Ty) (size : Nat)
    (items : List Initializer) (hint : Option StructTy) (outermost : Bool) :
    (fillArray make ty element size items true hint outermost).Builds isArray := by
  have hparts : ∀ m ∈ items.map (ofItem element true hint),
      m.readonly = true ∧ m.isProper = true := by
    intro m hm
    obtain ⟨item, -, rfl⟩ := List.mem_map.mp hm
    cases item with
    | expr e => exact ⟨rfl, rfl⟩
    | list span items => cases element <;> exact ⟨rfl, rfl⟩
  unfold RunM.fillArray
  refine check ?_
  dsimp only
  split
  · exact visit (f := .single ty true) ⟨rfl, hty⟩ _ _
  · exact fillNext hmake rfl hparts (by simp)

end Fill

/-- The members of a constant struct. -/
theorem proper_members (hint : Option StructTy) (ms : List MemberTy) (items : List Initializer) :
    ∀ m ∈ members true hint ms items, m.readonly = true ∧ m.isProper = true := by
  induction ms generalizing items with
  | nil => intro m hm; cases hm
  | cons d ms ih =>
    cases items with
    | nil =>
      refine List.forall_mem_cons.mpr ⟨?_, ih []⟩
      cases d.default <;> exact ⟨rfl, rfl⟩
    | cons item items => exact List.forall_mem_cons.mpr ⟨⟨rfl, rfl⟩, ih items⟩

theorem makeWithin (depth : Nat) (m : Making) (hr : m.readonly = true) (hp : m.isProper = true) :
    (makeWithin depth m).Builds m.type.isArray := by
  induction depth generalizing m with
  | zero => exact fail _
  | succ depth ih =>
    have hfill {isArray : Bool} (f : Filling) (hf : f.readonly = true) (next : List Making)
        (hn : ∀ m ∈ next, m.readonly = true ∧ m.isProper = true) :
        (RunM.fillNext (RunM.makeWithin depth) f next #[]).Builds isArray :=
      fillNext ih hf hn (by simp)
    cases m with
    | default ty readonly =>
      obtain rfl : readonly = true := hr
      cases ty with
      | arith k =>
        refine done ?_ rfl
        split <;> rfl
      | array element size => exact hfill _ rfl _ (List.forall_mem_nil _)
      | pointer _ _ | functionPointer _ => exact done rfl rfl
      | struct name fields => exact bind fun _ => ih (.struct _ [] true none) rfl rfl
      | void => exact done rfl rfl
      | function _ | marker => exact fail _
    | initial ty init readonly hint =>
      obtain rfl : readonly = true := hr
      cases init with
      | expr e =>
        simp only [RunM.makeWithin]
        split
        · exact visit (f := .arrayFrom ty true) ⟨rfl, rfl⟩ _ _
        · have hty : ty.isArray = false := Bool.eq_false_iff.mpr ‹_›
          exact bind fun _ => visit (f := .convert ty true) ⟨rfl, hty, hty⟩ _ _
      | list span items =>
        simp only [RunM.makeWithin]
        split
        · exact fillArray ih rfl _ _ _ _ _
        · exact bind fun _ => ih (.struct _ items true hint) rfl rfl
        · exact ih (.default ty true) rfl rfl
        · exact ih (.initial ty _ true hint) rfl rfl
        · exact fail _
        · exact fail _
    | row ty items readonly hint =>
      obtain rfl : readonly = true := hr
      cases ty with
      | array element size => exact fillArray ih rfl _ _ _ _ _
      | _ => exact fail _
    | struct d items readonly hint =>
      obtain rfl : readonly = true := hr
      simp only [RunM.makeWithin]
      exact check (hfill _ rfl _ (proper_members hint d.members items))
    | copy ty v readonly =>
      obtain rfl : readonly = true := hr
      have hty : ty.isArray = false := by simpa [Making.isProper] using hp
      exact bind fun copied => done rfl hty
    | arrayOf ty v readonly =>
      obtain rfl : readonly = true := hr
      cases ty with
      | array element size =>
        refine bind fun source => check (hfill _ rfl _ fun m hm => ?_)
        obtain ⟨item, -, rfl⟩ := List.mem_map.mp hm
        cases he : element.isArray with
        | true => exact ⟨rfl, rfl⟩
        | false => exact ⟨rfl, by simp [Making.isProper, he]⟩
      | _ => exact fail _
    | nested => exact fail _

/-- What is to be constant is made constant. -/
theorem make (m : Making) (hr : m.readonly = true) (hp : m.isProper = true) :
    (make m).Builds m.type.isArray := bind fun depth => makeWithin depth m hr hp

/-- The first scalar of the array stays constant. -/
theorem storeFirst {array : Value} (v : Value) {c : Config} {s t : State} {p : Progress .value}
    (ha : (Progress.done array).Builds isArray s.heap)
    (h : storeFirst v true array c s = .ok p t) : p.Builds isArray t.heap := by
  obtain ⟨_, u, hu, h⟩ := bind_eq_ok h
  cases h
  have hT := closed_meets lawful_keepsConstants
  have hk : s.heap.KeepsConstants t.heap :=
    ((hT.storeIntoFirst v true array.ty array).of_ok trivial hu).1
  exact ⟨ha.1, fun harray => hk.constantTargets (ha.2 harray)⟩

theorem makeArrayFrom {ty : Ty} (hty : ty.isArray = isArray) (v : Value) :
    (makeArrayFrom ty true v).Builds isArray := by
  have harray : (RunM.make (.arrayOf ty v true)).Builds isArray := hty ▸ make _ rfl rfl
  exact ite (bind fun _ => bind fun _ => harray) harray

theorem makeSingle {ty : Ty} (hty : ty.isArray = isArray) (v : Value) :
    (makeSingle ty true v).Builds isArray := by
  cases ty with
  | array element size =>
    refine ite (fillNext make rfl ?_ (by simp)) (ite ?_ (bind fun _ => fail _))
    · intro m hm
      obtain rfl := List.mem_singleton.mp hm
      exact ⟨rfl, rfl⟩
    · intro c s p t h
      obtain ⟨q, u, hq, h⟩ := bind_eq_ok h
      have hq : q.Builds isArray u.heap := hty ▸ make (.default _ true) rfl rfl c s q u hq
      cases q with
      | done array => exact storeFirst v hq h
      | paused q path =>
        cases h
        exact .storeFirst hq v
  | _ => exact fail _

theorem makeOpen (element : Ty) (v : Value) : (makeOpen element true v).Builds true :=
  bind fun _ => make (.arrayOf (.array element _) v true) rfl rfl

/-- A frame that makes a constant object goes on with it. -/
theorem resumeFrame {f : Frame .value .value} (hf : f.Builds isArray) (v : Value) :
    (resumeFrame f v).Builds isArray := by
  cases f with
  | convert ty readonly =>
    obtain ⟨rfl, hty, rfl⟩ := hf
    have hcopy := make (.copy ty v true) rfl (by simp [Making.isProper, hty])
    exact hty ▸ hcopy
  | arrayFrom ty readonly =>
    obtain ⟨rfl, hty⟩ := hf
    exact makeArrayFrom hty v
  | single ty readonly =>
    obtain ⟨rfl, hty⟩ := hf
    exact makeSingle hty v
  | openBound element readonly =>
    obtain ⟨rfl, rfl⟩ := hf
    exact makeOpen element v
  | _ => exact hf.elim

theorem resumeFilling {f : Filling} (hf : f.Constant) {v : Value} (hv : v.readonly = true) :
    (resumeFilling f v).Builds isArray := by
  refine fillNext make hf.readonly hf.next fun w hw => ?_
  rcases Array.mem_push.mp hw with hw | rfl
  · exact hf.made w hw
  · exact hv

end Builds

/-- A step goes on making a constant object. -/
theorem builds_step {j : Completion} {path : Frames j .value} (hp : path.Builds isArray)
    (p : Pause j) : (step p path).Builds isArray := by
  induction hp with
  | frame inner hf =>
    intro c s q t h
    rcases step_one_eq_ok _ h with ⟨r, u, -, hr⟩ | ⟨i, p', inner', -, rfl⟩
    · exact Builds.resumeFrame hf r c u q t hr
    · exact .frame inner' hf
  | fill hp hf ih =>
    intro c s q t h
    rcases step_one_eq_ok _ h with ⟨r, u, hx, hr⟩ | ⟨i, p', inner', hx, rfl⟩
    · exact Builds.resumeFilling hf (ih p c s _ u hx).1 c u q t hr
    · exact .fill (ih p c s _ t hx) hf
  | storeFirst hp v ih =>
    intro c s q t h
    rcases step_one_eq_ok _ h with ⟨r, u, hx, hr⟩ | ⟨i, p', inner', hx, rfl⟩
    · exact Builds.storeFirst v (ih p c s _ u hx) hr
    · exact .storeFirst (ih p c s _ t hx) v

end RunM

end Stepwise
