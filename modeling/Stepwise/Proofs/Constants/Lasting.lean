import Stepwise.Proofs.Constants.Cells
import Stepwise.Proofs.Constants.Firsts
import Stepwise.Proofs.Session.Evolution

/-! # Constant cells last

Whatever a run does, a constant cell stays constant. It also keeps its value until a struct that
it is a member of is assigned to: the members are copied whether they are constant or not.
-/

namespace Stepwise

open RunM

variable {j k l : Completion} {b : BlockId} {i : Nat}

namespace Handover

/-- The struct whose members are assigned to when the handover takes place. -/
def assigned? : Handover → Option BlockId
  | ⟨.operate .assign l, _, _⟩ => l.structStore?
  | _ => none

/-- The first scalar of an array whose making was suspended, and which is filled now. -/
def filled? : Handover → Option Place
  | ⟨.storeFirst _ _, array, heap⟩ => heap.firstScalar? array.ty array
  | _ => none

/-- The handover does not fill the cell. -/
def Leaves (b : BlockId) (i : Nat) (e : Handover) : Prop :=
  ∀ p ∈ e.filled?, ¬(p.block = b ∧ p.index = i)

instance (e : Handover) : Decidable (e.Leaves b i) :=
  inferInstanceAs (Decidable (∀ p ∈ e.filled?, ¬(p.block = b ∧ p.index = i)))

end Handover

/-- The frame may pass on a value that it is given or has waited with. -/
def Frame.passesOn : Frame j k → Bool
  | .leave .. | .rightOperand .. | .operate .. | .assign .. | .unary _ | .storeFirst .. => true
  | _ => false

namespace RunM

/-- What a frame comes to that passes nothing on. -/
theorem Respects.resumeFrame {f : Frame j k} (hf : f.passesOn = false) (r : j.Result) :
    (resumeFrame f r).Respects b i := by
  cases f with
  | leave | rightOperand | operate | assign | unary | storeFirst => cases hf
  | logical op right hint => exact decideLogical op right hint r
  | truth | size => exact bind fun _ => done rfl
  | choose => exact bind fun _ => visit _ _ fun _ => trivial
  | callee args hint => exact nextArgument r [] hint args
  | argument f values rest hint => exact nextArgument f _ hint rest
  | member name throughPointer => exact memberOf r name throughPointer
  | cast ty => exact answer (.convert r ty true)
  | defaultArgument entry body name param rest =>
    exact bind fun _ => bind fun _ => runDefaults entry body rest
  | endCall entry depth => exact endCall entry depth r
  | exitStatus => exact answer (.exitStatus r)
  | fill f => exact fillNext make f _ _
  | convert ty readonly => exact make _
  | arrayFrom ty readonly => exact makeArrayFrom ty readonly r
  | single ty readonly => exact makeSingle ty readonly r
  | openBound element readonly => exact makeOpen element readonly r
  | bind binding spec rest => exact bind fun _ => declareAll spec rest
  | discard | returns => exact ends _
  | block rest inSwitch => exact ite (runBlock inSwitch rest) (leaveScope r)
  | popScope | endSwitch => exact leaveScope _
  | ifThen thenBranch elseBranch inSwitch => exact runBranch thenBranch elseBranch inSwitch r
  | switch body => exact enterSwitch body r
  | caseLabel s => exact ite (bind fun _ => walkSwitch _ _ _) (bind fun _ => walkSwitch _ _ _)
  | switchStatement s => exact ite (walkSwitch _ _ _) (ends r)
  | whileCondition condition body inSwitch =>
    exact whileHolds r (visitStmt body inSwitch fun _ => ⟨trivial, trivial⟩)
  | whileBody condition body inSwitch | doBody condition body inSwitch =>
    exact afterBody r (visit condition none fun _ => ⟨trivial, trivial⟩)
  | doCondition condition body inSwitch =>
    exact whileHolds r (visitStmt body inSwitch fun _ => ⟨trivial, trivial⟩)
  | forInit l | forStep l => exact forNext l
  | forCondition l => exact whileHolds r (visitStmt _ _ fun _ => ⟨trivial, trivial⟩)
  | forBody l => exact afterBody r (forAdvance l)
  | eachRange spec d range body inSwitch => exact eachBegin spec d range body inSwitch r
  | eachIterable spec d range body inSwitch => exact eachElement spec d range body inSwitch r
  | eachBody l => exact bind fun _ => afterBody r (eachNext l)
  | items rest => exact runItems rest

/-- The computation spares the cell, and what it comes to respects it. -/
structure Honours (b : BlockId) (i : Nat) (P : Prop) (c : Config) (s : State)
    (x : RunM (Progress k)) : Prop where
  spares : x.SparesFrom b i P c s
  respects : ∀ p t, x c s = .ok p t → p.Respects t.heap b i

variable {P : Prop} {c : Config} {s : State}

/-- New blocks leave it true that the cell was spared. -/
theorem spares_alloc {h₀ : Heap} (h : Heap) (cells : Array Value) (hs : h₀.Spares b i P h) :
    h₀.Spares b i P (h.alloc cells).2 := hs.trans (.alloc h cells)

theorem honours_operate {op : Operator} {l : Value} {r : Option Value}
    (hl : l.Respects s.heap b i) (hr : ∀ w, r = some w → w.Respects s.heap b i) :
    (do return .done (← operate (op.apply l r)) : RunM (Progress .value)).Honours b i
      (op = .assign ∧ l.structStore? = some b) c s := by
  have h := op.spares_apply hl hr ⟨c.numerics, s.tables, s.cursor⟩
  cases hx : op.apply l r ⟨c.numerics, s.tables, s.cursor⟩ s.heap with
  | ok v heap =>
    rw [hx] at h
    have hrun : (do return .done (← operate (op.apply l r)) : RunM (Progress .value)) c s =
        .ok (.done v) { s with heap } := bind_ok (operate_ok hx)
    refine ⟨?_, fun p t hp => ?_⟩
    · rw [SparesFrom, after_ok hrun]
      exact h.1
    · cases hrun.symm.trans hp
      exact h.2
  | error fault heap =>
    rw [hx] at h
    cases h
    have hrun : (do return .done (← operate (op.apply l r)) : RunM (Progress .value)) c s =
        .error fault s := bind_error (operate_error hx)
    refine ⟨?_, fun p t hp => ?_⟩
    · rw [SparesFrom, after_error hrun]
      exact .refl s.heap
    · cases hrun.symm.trans hp

section Frame

variable {f : Frame j k} {r : j.Result} (hf : f.Respects s.heap b i)
  (hr : j.Respects s.heap b i r) (hl : (⟨f, r, s.heap⟩ : Handover).Leaves b i)

include hf hr hl

theorem spares_resumeFrame :
    (resumeFrame f r).SparesFrom b i ((⟨f, r, s.heap⟩ : Handover).assigned? = some b) c s := by
  cases f with
  | operate op l =>
    refine (honours_operate (r := some r) hf fun w hw => ?_).spares.mono ?_
    · cases hw
      exact hr
    · rintro ⟨rfl, hb⟩
      exact hb
  | unary op =>
    have hmarker (w : Value) (hw : (unaryOperator op).2 = some w) : w.Respects s.heap b i := by
      cases op <;> cases hw <;> exact .of_detached rfl
    refine (honours_operate hr hmarker).spares.mono ?_
    rintro ⟨hop, -⟩
    cases op <;> cases hop
  | single ty readonly => exact sparesFrom_makeSingle c s ty readonly r
  | storeFirst v readonly => exact sparesFrom_storeFirst c s v readonly hl
  | _ => exact .of_maintains (heap_resumeFrame spares_alloc c rfl r)

theorem respects_resumeFrame {p : Progress k} {t : State} (h : resumeFrame f r c s = .ok p t) :
    p.Respects t.heap b i := by
  have hs := spares_resumeFrame (c := c) hf hr hl
  rw [SparesFrom, after_ok h] at hs
  cases f with
  | leave node previous =>
    cases h
    exact hr
  | rightOperand op right hint =>
    cases h
    exact ⟨trivial, hr, trivial⟩
  | assign op value =>
    cases h
    exact ⟨trivial, hr, trivial⟩
  | operate op l =>
    refine (honours_operate (r := some r) hf fun w hw => ?_).respects p t h
    cases hw
    exact hr
  | unary op =>
    refine (honours_operate hr fun w hw => ?_).respects p t h
    cases op <;> cases hw <;> exact .of_detached rfl
  | storeFirst v readonly =>
    obtain ⟨_, u, -, h⟩ := bind_eq_ok h
    cases h
    exact Value.Respects.spared hr hs
  | _ => exact Respects.resumeFrame rfl r c s p t h

end Frame

/-- Results are handed out through the path while the cell is spared. -/
theorem honours_within {path : Frames j k} {x : RunM (Progress j)} (hx : x.Honours b i P c s)
    (hp : path.Respects s.heap b i) (hl : ∀ e ∈ handovers c path x s, e.Leaves b i)
    (ha : ∀ e ∈ handovers c path x s, e.assigned? = some b → P) :
    (within path x (resumeFrames path)).Honours b i P c s := by
  induction path generalizing s with
  | nil => rwa [within_nil]
  | cons frame rest ih =>
    have hs := hx.spares
    unfold SparesFrom at hs
    cases h : x c s with
    | error fault t =>
      rw [after_error h] at hs
      refine ⟨?_, fun p t hp => ?_⟩
      · rw [SparesFrom, after, within_error h]
        exact (heap_unwind (Q := fun _ => True) spares_alloc c _ fault).after hs
      · exact absurd (within_error h ▸ hp) (unwind_ne_ok _ fault p)
    | ok p t =>
      rw [after_ok h] at hs
      have hresult := hx.respects p t h
      have hrest := hp.spared hs
      cases p with
      | paused q inner =>
        refine ⟨?_, fun p t hp => ?_⟩
        · rwa [SparesFrom, after_ok (within_paused h)]
        · cases (within_paused h).symm.trans hp
          exact hresult.append hrest
      | done r =>
        rw [handovers_done h] at hl ha
        obtain ⟨hl, hls⟩ := List.forall_mem_cons.mp hl
        obtain ⟨ha, has⟩ := List.forall_mem_cons.mp ha
        have hframe : (resumeFrame frame r).Honours b i P c t :=
          ⟨(spares_resumeFrame hrest.1 hresult hl).mono ha,
            fun p u hu => respects_resumeFrame hrest.1 hresult hl hu⟩
        have hrun := ih hframe hrest.2 hls has
        refine ⟨?_, fun p u hu => ?_⟩
        · rw [SparesFrom, after, within_done h]
          exact hs.trans hrun.spares
        · exact hrun.respects p u ((within_done h).symm.trans hu)

end RunM

namespace Run

variable {P : Prop}

/-- The left operands that wait in the run respect the cell. -/
def Respects (b : BlockId) (i : Nat) (r : Run) : Prop :=
  match r.rest with
  | .suspended _ path => path.Respects r.state.heap b i
  | .ended _ => True

theorem spares_step {r : Run} (hr : r.Respects b i) (hl : ∀ e ∈ r.stepHandovers, e.Leaves b i)
    (ha : ∀ e ∈ r.stepHandovers, e.assigned? = some b → P) :
    r.state.heap.Spares b i P r.step.2.state.heap ∧ r.step.2.Respects b i := by
  obtain ⟨config, s, rest⟩ := r
  cases rest with
  | ended result => exact ⟨.refl s.heap, trivial⟩
  | suspended p path =>
    have hpause : (resumePause p).Honours b i P config s :=
      ⟨.of_maintains (heap_resumePause spares_alloc config p),
        RunM.Respects.resumePause p config s⟩
    obtain ⟨hs, hresult⟩ := honours_within hpause hr hl ha
    unfold SparesFrom at hs
    cases h : RunM.step p path config s with
    | error fault t =>
      rw [step_fault h]
      exact ⟨after_error h ▸ hs, trivial⟩
    | ok progress t =>
      have hs' := after_ok h ▸ hs
      cases progress with
      | done v =>
        rw [step_done h]
        exact ⟨hs', trivial⟩
      | paused q inner =>
        rw [step_paused h]
        exact ⟨hs', hresult _ t h⟩

theorem spares_play (moves : List HostMove) {r : Run} (hr : r.Respects b i)
    (hl : ∀ e ∈ r.handovers moves, e.Leaves b i)
    (ha : ∀ e ∈ r.handovers moves, e.assigned? = some b → P) :
    r.state.heap.Spares b i P (r.play moves).state.heap ∧ (r.play moves).Respects b i := by
  induction moves generalizing r with
  | nil => exact ⟨.refl _, hr⟩
  | cons move moves ih =>
    obtain ⟨hl, hls⟩ := List.forall_mem_append.mp hl
    obtain ⟨ha, has⟩ := List.forall_mem_append.mp ha
    have hmove : r.state.heap.Spares b i P (move.perform r).state.heap ∧
        (move.perform r).Respects b i := by
      cases move with
      | step => exact spares_step hr hl ha
      | feed text => exact ⟨.refl _, hr⟩
      | close => exact ⟨.refl _, hr⟩
    obtain ⟨hs, hplay⟩ := ih hmove.2 hls has
    exact ⟨hmove.1.trans hs, hplay⟩

end Run

/-- `struct S { const int id; int v; };`
`int main() { S a = {1, 2}; S b = {3, 4}; a = b; return a.id; }` -/
def Program.ofCopy : Program where
  includes := []
  items :=
    let named (name : String) : Declarator := .mk default [] false (.named name) []
    let literal (n : Nat) : Initializer := .expr (.literal default (.int n 10 false false))
    let object (name : String) (id v : Nat) : Stmt :=
      .declaration default ⟨⟨[], ["S"], default⟩,
        [⟨named name, some (.list default [literal id, literal v])⟩]⟩
    let a : Expr := .identifier default "a"
    [.struct default "S"
      [⟨⟨["const"], ["int"], default⟩, named "id", none⟩,
        ⟨⟨[], ["int"], default⟩, named "v", none⟩] [],
      .function default (.mk ⟨[], ["int"], default⟩
        (.mk default [] false (.named "main") [.params [] false])
        (.compound default
          [object "a" 1 2, object "b" 3 4,
            .expression default (some (.assign default none a (.identifier default "b"))),
            .returnJump default (some (.member default a "id" false))]))]

namespace Run

end Run

end Stepwise
