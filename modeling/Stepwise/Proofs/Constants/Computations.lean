import Stepwise.Machine.Step
import Stepwise.Proofs.Closure.Frames
import Stepwise.Proofs.Constants.Declarations
import Stepwise.Proofs.Constants.Results

/-! # What a run does respects constant cells

Objects, calls, declarations and statements are suspended without left operands that wait, and
the values that they come to are no cells.
-/

namespace Stepwise

/-! ## Left operands that wait

While the right operand of an operator is evaluated, a frame holds the value of the left one. Only
an operator whose left operand has just got its value brings such a frame about. What else a run
does is suspended without one, and its results are no cells, or cells that were just read.
-/

section Suspensions

variable {j k : Completion} {h : Heap} {b : BlockId} {i : Nat}

/-- A left operand that waits respects the cell. -/
def Frame.Respects (h : Heap) (b : BlockId) (i : Nat) : Frame j k → Prop
  | .operate _ l => l.Respects h b i
  | _ => True

/-- The left operands that wait on the path respect the cell. -/
def Frames.Respects (h : Heap) (b : BlockId) (i : Nat) : {j k : Completion} → Frames j k → Prop
  | _, _, .nil => True
  | _, _, .cons f rest => f.Respects h b i ∧ rest.Respects h b i

/-- The result respects the cell, if it is a value. -/
def Completion.Respects (h : Heap) (b : BlockId) (i : Nat) : (k : Completion) → k.Result → Prop
  | .value, v => v.Respects h b i
  | .flow, _ => True

/-- The result of the computation, or the left operands that wait in it, respect the cell. -/
def Progress.Respects (h : Heap) (b : BlockId) (i : Nat) : Progress k → Prop
  | .done r => k.Respects h b i r
  | .paused _ path => path.Respects h b i

theorem Frames.Respects.append {l : Completion} {fs : Frames j k} {gs : Frames k l}
    (hf : fs.Respects h b i) (hg : gs.Respects h b i) : (fs ++ gs).Respects h b i := by
  induction fs with
  | nil => exact hg
  | cons f rest ih => exact ⟨hf.1, ih hf.2 hg⟩

theorem Frame.Respects.spared {P : Prop} {h' : Heap} {f : Frame j k} (hf : f.Respects h b i)
    (hs : h.Spares b i P h') : f.Respects h' b i := by
  cases f with
  | operate op l => exact Value.Respects.spared hf hs
  | _ => trivial

theorem Frames.Respects.spared {P : Prop} {h' : Heap} {fs : Frames j k} (hf : fs.Respects h b i)
    (hs : h.Spares b i P h') : fs.Respects h' b i := by
  induction fs with
  | nil => trivial
  | cons f rest ih => exact ⟨hf.1.spared hs, ih hf.2⟩

namespace RunM

/-- The value respects the cell. -/
def Answers (b : BlockId) (i : Nat) (x : RunM Value) : Prop := ∀ c s v t,
  x c s = .ok v t → v.Respects t.heap b i

/-- What the computation comes to respects the cell. -/
def Respects (b : BlockId) (i : Nat) (x : RunM (Progress k)) : Prop := ∀ c s p t,
  x c s = .ok p t → p.Respects t.heap b i

variable {α : Type}

namespace Answers

theorem bind {x : RunM α} {f : α → RunM Value} (hf : ∀ a, (f a).Answers b i) :
    (x >>= f).Answers b i := by
  intro c s v t h
  obtain ⟨a, u, -, ha⟩ := bind_eq_ok h
  exact hf a c u v t ha

theorem pure {v : Value} (hv : v.Detached) : (pure v : RunM Value).Answers b i := by
  rintro c s v' t ⟨⟩
  exact .of_detached hv

theorem fail (cause : FaultCause) : (fail cause : RunM Value).Answers b i :=
  fun _ _ _ _ h => nomatch h

theorem ite {p : Prop} [Decidable p] {x y : RunM Value} (hx : x.Answers b i)
    (hy : y.Answers b i) : (if p then x else y).Answers b i := by
  split
  · exact hx
  · exact hy

theorem operate {x : OperatorM Value}
    (hx : ∀ ctx h v h', x ctx h = .ok v h' → v.Respects h' b i) : (operate x).Answers b i := by
  intro c s v t h
  obtain ⟨heap, hv, rfl⟩ := operate_eq_ok h
  exact hx _ _ _ _ hv

theorem convert (v : Value) (ty : Ty) (explicit : Bool) :
    (RunM.operate (OperatorM.convert v ty explicit)).Answers b i :=
  operate fun ctx _ w h' hw =>
    .of_detached (OperatorM.Gives.convert v explicit ctx w h' hw).2.detached

theorem copy (v : Value) (ty : Ty) : (RunM.operate (OperatorM.copy v ty)).Answers b i :=
  operate fun _ _ _ _ hw => .of_detached (OperatorM.converted_of_copy hw).detached

/-- A cell that is named. -/
theorem named {f : State → Option Place} (name : String) :
    (do RunM.named ((f (← get)).bind (← get).load?) name).Answers b i := by
  intro c s v t h
  change RunM.named ((f s).bind s.load?) name c s = .ok v t at h
  cases hp : f s with
  | none =>
    rw [hp] at h
    cases h
  | some p =>
    rw [hp, Option.bind_some] at h
    cases hv : s.load? p with
    | none =>
      rw [hv] at h
      cases h
    | some w =>
      rw [hv] at h
      cases h
      exact .of_load? hv

theorem literal (l : Literal) : (literal l).Answers b i := by
  refine bind fun c => ?_
  cases l with
  | int value radix unsigned long =>
    dsimp only
    split
    · exact pure rfl
    · exact fail _
  | string text width => exact bind fun _ => bind fun _ => pure rfl
  | _ => exact pure rfl

/-- A member is as constant as its cell, or more. -/
theorem member (object : Value) (name : String) : (member object name).Answers b i := by
  refine bind fun found => ?_
  split
  · exact fail _
  · split
    · exact fail _
    · rename_i index store _ _
      intro c s v t h
      obtain ⟨cell, u, hcell, h⟩ := bind_eq_ok h
      cases hcell
      dsimp only at h
      cases hl : s.heap.load? (.member store index) with
      | none =>
        rw [hl] at h
        cases h
      | some w =>
        rw [hl] at h
        cases h
        intro role hp
        obtain ⟨cell, hc, hr⟩ := Value.Respects.of_load? (b := b) (i := i) hl role hp
        exact ⟨cell, hc, fun ht => by simp [Value.withReadonly, hr ht]⟩
    · refine bind fun s => ?_
      split
      · exact pure rfl
      · exact fail _

theorem exitStatus (v : Value) : (exitStatus v).Answers b i :=
  ite (pure rfl) (bind fun _ => pure rfl)

theorem returned (entry : FunctionEntry) (flow : Flow) : (returned entry flow).Answers b i := by
  refine ite (pure rfl) ?_
  split
  · exact copy _ _
  · exact ite (pure rfl) (fail _)

theorem filePointer (name mode : String) : (filePointer name mode).Answers b i := by
  refine bind fun opened => bind fun s => ?_
  split
  · exact fail _
  · exact ite (pure rfl) (bind fun _ => bind fun _ => bind fun _ => pure rfl)

end Answers

namespace Respects

theorem bind {x : RunM α} {f : α → RunM (Progress k)} (hf : ∀ a, (f a).Respects b i) :
    (x >>= f).Respects b i := by
  intro c s p t h
  obtain ⟨a, u, -, ha⟩ := bind_eq_ok h
  exact hf a c u p t ha

theorem fail (cause : FaultCause) : (fail cause : RunM (Progress k)).Respects b i :=
  fun _ _ _ _ h => nomatch h

theorem ite {p : Prop} [Decidable p] {x y : RunM (Progress k)} (hx : x.Respects b i)
    (hy : y.Respects b i) : (if p then x else y).Respects b i := by
  split
  · exact hx
  · exact hy

theorem check {p : Prop} [Decidable p] {x : RunM PUnit} {f : PUnit → RunM (Progress k)}
    (hf : (f ⟨⟩).Respects b i) : (if p then x >>= f else f ⟨⟩).Respects b i :=
  ite (bind fun _ => hf) hf

theorem ends (flow : Flow) : (return .done flow : RunM (Progress .flow)).Respects b i := by
  rintro c s p t ⟨⟩
  trivial

theorem answer {x : RunM Value} (hx : x.Answers b i) :
    (do return .done (← x) : RunM (Progress .value)).Respects b i := by
  intro c s p t h
  obtain ⟨v, u, hv, h⟩ := bind_eq_ok h
  cases h
  exact hx c s v t hv

theorem done {v : Value} (hv : v.Detached) :
    (return .done v : RunM (Progress .value)).Respects b i := answer (.pure hv)

theorem paused (p : Pause j) {path : Frames j k} (hp : ∀ h, path.Respects h b i) :
    (return .paused p path : RunM (Progress k)).Respects b i := by
  rintro c s q t ⟨⟩
  exact hp _

theorem visit (e : Expr) (hint : Option StructTy) {next : Frames .value k}
    (hn : ∀ h, next.Respects h b i) : (visit e hint next).Respects b i :=
  bind fun _ => bind fun _ => paused _ fun h => ⟨trivial, hn h⟩

theorem visitStmt (s : Stmt) (inSwitch : Bool) {next : Frames .flow k}
    (hn : ∀ h, next.Respects h b i) : (visitStmt s inSwitch next).Respects b i :=
  bind fun _ => bind fun _ => paused _ fun h => ⟨trivial, hn h⟩

/-- A part of a computation, and a frame that waits for it. -/
theorem andThen (frame : Frame j k) (hframe : ∀ h, frame.Respects h b i) {x : RunM (Progress j)}
    (hx : x.Respects b i) {f : j.Result → RunM (Progress k)} (hf : ∀ r, (f r).Respects b i) :
    (do (← x).andThen frame f).Respects b i := by
  intro c s q t h
  obtain ⟨p, u, hp, h⟩ := bind_eq_ok h
  have hp := hx c s p u hp
  cases p with
  | done r => exact hf r c u q t h
  | paused p path =>
    cases h
    exact hp.append ⟨hframe _, trivial⟩

end Respects

end RunM

end Suspensions

/-! ## Computations -/

namespace RunM

variable {j k : Completion} {b : BlockId} {i : Nat}

/-- The value that a declarator waits for respects the cell. -/
def Awaits (b : BlockId) (i : Nat) (x : RunM (Option (Binding × Progress .value))) : Prop :=
  ∀ c s binding p t, x c s = .ok (some (binding, p)) t → p.Respects t.heap b i

namespace Awaits

theorem bind {α : Type} {x : RunM α} {f : α → RunM (Option (Binding × Progress .value))}
    (hf : ∀ a, (f a).Awaits b i) : (x >>= f).Awaits b i := by
  intro c s binding p t h
  obtain ⟨a, u, -, ha⟩ := bind_eq_ok h
  exact hf a c u binding p t ha

theorem fail (cause : FaultCause) : Awaits b i (fail cause) := fun _ _ _ _ _ h => nomatch h

theorem nothing : Awaits b i (return none) := fun _ _ _ _ _ h => nomatch h

theorem value {x : RunM (Progress .value)} (binding : Binding) (hx : x.Respects b i) :
    (do return some (binding, ← x) : RunM _).Awaits b i := by
  intro c s binding' p t h
  obtain ⟨q, u, hq, h⟩ := bind_eq_ok h
  cases h
  exact hx c s p t hq

end Awaits

namespace Respects

section Objects

theorem finish (f : Filling) (made : Array Value) : (finish f made).Respects b i :=
  bind fun _ => done rfl

section Fill

variable {make : Making → RunM (Progress .value)} (hm : ∀ m, (make m).Respects b i)

include hm

/-- A part of an object, and what goes on when it is made. -/
theorem part (m : Making) {f : Filling} {next : Value → RunM (Progress .value)}
    (hn : ∀ v, (next v).Respects b i) : (do
      match ← make m with
      | Progress.paused p path => return Progress.paused p (path ++ Frames.one (.fill f))
      | Progress.done v => next v).Respects b i := by
  intro c s q t h
  obtain ⟨p, u, hp, h⟩ := bind_eq_ok h
  have hp := hm m c s p u hp
  cases p with
  | done v => exact hn v c u q t h
  | paused p path =>
    cases h
    exact Frames.Respects.append hp ⟨trivial, trivial⟩

theorem fillDefaults (f : Filling) (count : Nat) (made : Array Value) :
    (fillDefaults make f count made).Respects b i := by
  induction count generalizing made with
  | zero => exact finish f made
  | succ n ih => exact part hm _ fun v => ite (finish f _) (ih _)

theorem fillNext (f : Filling) (next : List Making) (made : Array Value) :
    (fillNext make f next made).Respects b i := by
  induction next generalizing made with
  | nil => exact fillDefaults hm f f.defaults made
  | cons m rest ih => exact part hm m fun v => ih _

theorem fillArray (ty element : Ty) (size : Nat) (items : List Initializer) (readonly : Bool)
    (hint : Option StructTy) (outermost : Bool) :
    (fillArray make ty element size items readonly hint outermost).Respects b i := by
  unfold RunM.fillArray
  refine check ?_
  split
  · exact visit _ hint fun _ => ⟨trivial, trivial⟩
  · exact fillNext hm _ _ _

end Fill

theorem makeWithin (depth : Nat) (m : Making) : (makeWithin depth m).Respects b i := by
  induction depth generalizing m with
  | zero => exact fail _
  | succ depth ih =>
    cases m with
    | default ty readonly =>
      cases ty with
      | arith k => exact done (by cases k.isFloat <;> rfl)
      | array element size => exact fillNext ih _ _ _
      | struct name fields => exact bind fun _ => ih _
      | function _ | marker => exact fail _
      | _ => exact done rfl
    | initial ty init readonly hint =>
      cases init with
      | expr e =>
        refine ite (visit e hint fun _ => ⟨trivial, trivial⟩) (bind fun _ => ?_)
        exact visit e _ fun _ => ⟨trivial, trivial⟩
      | list span items =>
        simp only [RunM.makeWithin]
        split
        · exact fillArray ih _ _ _ _ _ _ _
        · exact bind fun _ => ih _
        · exact ih _
        · exact ih _
        · exact fail _
        · exact fail _
    | row ty items readonly hint =>
      cases ty with
      | array element size => exact fillArray ih _ _ _ _ _ _ _
      | _ => exact fail _
    | struct d items readonly hint =>
      simp only [RunM.makeWithin]
      exact check (fillNext ih _ _ _)
    | copy ty v readonly =>
      intro c s p t h
      obtain ⟨copied, u, hcopied, h⟩ := bind_eq_ok h
      cases h
      have hd : copied.Detached := operate_copy hcopied
      exact .of_detached hd
    | arrayOf ty v readonly =>
      cases ty with
      | array element size => exact bind fun _ => check (fillNext ih _ _ _)
      | _ => exact fail _
    | nested => exact fail _

theorem make (m : Making) : (make m).Respects b i := bind fun depth => makeWithin depth m

theorem makeArrayFrom (ty : Ty) (readonly : Bool) (v : Value) :
    (makeArrayFrom ty readonly v).Respects b i :=
  ite (bind fun _ => bind fun _ => make _) (make _)

theorem makeOpen (element : Ty) (readonly : Bool) (v : Value) :
    (makeOpen element readonly v).Respects b i := bind fun _ => make _

end Objects

section Calls

theorem readCharacter : readCharacter.Respects b i := by
  intro c s p t h
  rw [readCharacter_apply] at h
  cases hr : s.console.read.1 <;> rw [hr] at h <;> cases h
  · exact .of_detached rfl
  · trivial
  · exact .of_detached rfl

theorem callLibrary (f : StdioFunction) (args : List Value) :
    (callLibrary f args).Respects b i := by
  have hint (n : Int) : (intResult n).Respects b i := done rfl
  unfold RunM.callLibrary
  split
  -- printf, puts and putchar
  · exact bind fun _ => bind fun _ => bind fun _ => bind fun _ => bind fun _ => hint _
  · exact fail _
  · exact bind fun _ => bind fun _ => hint _
  · split
    · exact fail _
    · split
      · exact bind fun _ => hint _
      · exact hint _
  · exact readCharacter
  · exact bind fun _ => bind fun _ => answer (.filePointer _ _)
  -- fputs, fgetc and fclose
  · refine bind fun _ => bind fun _ => bind fun _ => ?_
    split
    · exact hint _
    · exact bind fun _ => hint _
  · refine bind fun _ => bind fun _ => ?_
    split
    · exact hint _
    · exact bind fun _ => hint _
  · refine bind fun _ => bind fun _ => ?_
    split
    · exact hint _
    · exact bind fun _ => hint _
  · exact fail _

variable (entry : FunctionEntry) (body : Stmt)

theorem runDefaults (params : List (ParamInfo × ParamTy)) :
    (runDefaults entry body params).Respects b i := by
  unfold RunM.runDefaults
  split
  · exact visitStmt body false fun _ => trivial
  · exact visit _ none fun _ => ⟨trivial, trivial⟩
  · exact fail _

theorem beginBody (receiver : Option Receiver) (args : List Value) :
    (beginBody entry receiver body args).Respects b i := by
  unfold RunM.beginBody
  extract_lets rest
  have hrest : (rest ⟨⟩).Respects b i := bind fun _ => runDefaults entry body _
  split
  · exact bind fun _ => bind fun _ => hrest
  · exact hrest

theorem endCall (depth : Nat) (flow : Flow) : (endCall entry depth flow).Respects b i :=
  bind fun _ => answer (.returned entry flow)

theorem enterBody (receiver : Option Receiver) (args : List Value) :
    (enterBody entry receiver body args).Respects b i := by
  refine bind fun s₀ => bind fun _ => ?_
  intro c s q t h
  simp only [outcome, Bind.bind, ReaderT.bind, EStateM.bind] at h
  cases hx : RunM.beginBody entry receiver body args c s with
  | error fault u =>
    rw [hx] at h
    cases h
  | ok p u =>
    have hp := beginBody (b := b) (i := i) entry body receiver args c s p u hx
    rw [hx] at h
    cases p with
    | done flow => exact endCall entry _ flow c u q t h
    | paused p path =>
      cases h
      exact Frames.Respects.append hp ⟨trivial, trivial⟩

theorem call (f : Value) (args : List Value) : (call f args).Respects b i := by
  rw [call_eq_resolveCall]
  refine bind fun target => bind fun entry => bind fun bound => ?_
  split
  · exact callLibrary _ bound
  · exact fail _
  · exact enterBody entry _ _ bound

end Calls

section Expressions

theorem evaluate (e : Expr) (hint : Option StructTy) : (evaluate e hint).Respects b i := by
  cases e with
  | literal _ l => exact answer (.literal l)
  | identifier _ name => exact answer (.named (f := fun s => s.lookup name) name)
  | qualified _ path => exact answer (.named (f := fun s => s.namespaces.lookup path) _)
  | cast _ spec target operand =>
    exact bind fun _ => visit operand hint fun _ => ⟨trivial, trivial⟩
  | sizeofType _ spec target => exact bind fun _ => bind fun _ => done rfl
  | list _ items =>
    cases hint with
    | some d => exact make _
    | none => exact fail _
  | _ => exact visit _ hint fun _ => ⟨trivial, trivial⟩

theorem decideLogical (op : LogicalOp) (right : Expr) (hint : Option StructTy) (l : Value) :
    (decideLogical op right hint l).Respects b i := by
  refine bind fun holds => ?_
  split
  · exact done rfl
  · exact done rfl
  · exact visit right hint fun _ => ⟨trivial, trivial⟩

theorem nextArgument (f : Value) (values : List Value) (hint : Option StructTy)
    (args : List Expr) : (nextArgument f values hint args).Respects b i := by
  cases args with
  | nil => exact call f _
  | cons e rest => exact visit e hint fun _ => ⟨trivial, trivial⟩

theorem memberOf (object : Value) (name : String) (throughPointer : Bool) :
    (memberOf object name throughPointer).Respects b i :=
  ite (bind fun _ => answer (.member _ name)) (bind fun _ => answer (.member _ name))

end Expressions

section Declarations

theorem initialValue (name : String) (d : Declared) (init : Option Initializer) :
    (initialValue name d init).Respects b i := by
  unfold RunM.initialValue
  split
  · unfold RunM.openValue
    split
    · exact fail _
    · exact make _
    · exact visit _ none fun _ => ⟨trivial, trivial⟩
    · exact fail _
  · exact make _
  · exact make _

theorem declareOne (spec : TypeSpec) (item : InitDeclarator) :
    (declareOne spec item).Awaits b i := by
  unfold RunM.declareOne
  split
  · split
    · exact .value _ (visit _ none fun _ => trivial)
    · exact .fail _
    · exact .fail _
  · refine .bind fun d => .bind fun name => ?_
    split
    · exact .bind fun _ => .nothing
    · exact .value _ (visit _ none fun _ => trivial)
    · exact .fail _
    · exact .value _ (initialValue name d _)

theorem declareAll (spec : TypeSpec) (items : List InitDeclarator) :
    (declareAll spec items).Respects b i := by
  induction items with
  | nil => exact ends .normal
  | cons item rest ih =>
    intro c s q t h
    obtain ⟨found, u, hfound, h⟩ := bind_eq_ok h
    cases found with
    | none => exact ih c u q t h
    | some found =>
      obtain ⟨binding, p⟩ := found
      have hp := declareOne (b := b) (i := i) spec item c s binding p u hfound
      cases p with
      | done v =>
        obtain ⟨_, u', -, h⟩ := bind_eq_ok h
        exact ih c u' q t h
      | paused p path =>
        cases h
        exact Frames.Respects.append hp ⟨trivial, trivial⟩

theorem declaration (decl : Declaration) : (declaration decl).Respects b i := by
  unfold RunM.declaration
  exact check (declareAll _ _)

end Declarations

section Statements

theorem leaveScope (flow : Flow) : (leaveScope flow).Respects b i := bind fun _ => ends flow

theorem runBlock (inSwitch : Bool) (body : List Stmt) : (runBlock inSwitch body).Respects b i := by
  cases body with
  | nil => exact leaveScope .normal
  | cons s rest => exact visitStmt s inSwitch fun _ => ⟨trivial, trivial⟩

theorem runBranch (thenBranch : Stmt) (elseBranch : Option Stmt) (inSwitch : Bool) (v : Value) :
    (runBranch thenBranch elseBranch inSwitch v).Respects b i := by
  refine bind fun holds => ?_
  split
  · exact visitStmt _ inSwitch fun _ => ⟨trivial, trivial⟩
  · exact visitStmt _ inSwitch fun _ => ⟨trivial, trivial⟩
  · exact leaveScope .normal

theorem walkSwitch (discriminant : Value) (running : Bool) (body : List Stmt) :
    (walkSwitch discriminant running body).Respects b i := by
  induction body with
  | nil => exact ends _
  | cons s rest ih =>
    cases s with
    | caseLabel span value => exact bind fun _ => paused _ fun _ => ⟨trivial, trivial⟩
    | defaultLabel span => exact bind fun _ => paused _ fun _ => trivial
    | _ => exact ite (visitStmt _ true fun _ => ⟨trivial, trivial⟩) ih

theorem enterSwitch (body : Stmt) (discriminant : Value) :
    (enterSwitch body discriminant).Respects b i := by
  have hend (flow : Flow) : (endSwitch flow).Respects b i := leaveScope _
  cases body with
  | compound span statements =>
    exact bind fun _ => paused _ fun _ => ⟨trivial, trivial, trivial⟩
  | _ => exact andThen .endSwitch (fun _ => trivial) (walkSwitch _ _ _) hend

theorem whileHolds (v : Value) {next : RunM (Progress .flow)} (hn : next.Respects b i) :
    (whileHolds v next).Respects b i :=
  bind fun _ => ite hn (leaveScope .normal)

theorem afterBody (flow : Flow) {next : RunM (Progress .flow)} (hn : next.Respects b i) :
    (afterBody flow next).Respects b i := by
  cases flow with
  | normal | continues => exact hn
  | breaks => exact leaveScope .normal
  | returns v => exact leaveScope (.returns v)

theorem forNext (l : ForLoop) : (forNext l).Respects b i := by
  unfold RunM.forNext
  split
  · exact visit _ none fun _ => ⟨trivial, trivial⟩
  · exact visitStmt _ _ fun _ => ⟨trivial, trivial⟩

theorem forAdvance (l : ForLoop) : (forAdvance l).Respects b i := by
  unfold RunM.forAdvance
  split
  · exact visit _ none fun _ => ⟨trivial, trivial⟩
  · exact forNext l

theorem notIterable (range : Expr) (v : Value) :
    (notIterable range v : RunM (Progress .flow)).Respects b i := by
  unfold RunM.notIterable
  split
  · exact fail _
  · exact bind fun _ => fail _

theorem eachNext (l : EachLoop) : (eachNext l).Respects b i := by
  unfold RunM.eachNext
  split
  · exact leaveScope .normal
  · refine bind fun found => ?_
    split
    · exact leaveScope .normal
    · refine ite (leaveScope .normal) (bind fun _ => bind fun _ => ?_)
      exact visitStmt _ _ fun _ => ⟨trivial, trivial⟩

theorem eachElement (spec : TypeSpec) (d : Declarator) (range : Expr) (body : Stmt)
    (inSwitch : Bool) (v : Value) : (eachElement spec d range body inSwitch v).Respects b i := by
  unfold RunM.eachElement
  split
  · exact notIterable range v
  · exact bind fun _ => eachNext _

theorem eachBegin (spec : TypeSpec) (d : Declarator) (range : Expr) (body : Stmt)
    (inSwitch : Bool) (v : Value) : (eachBegin spec d range body inSwitch v).Respects b i := by
  unfold RunM.eachBegin
  split
  · refine bind fun s => ite (bind fun method => ?_) (notIterable range v)
    exact andThen (.eachIterable spec d range body inSwitch) (fun _ => trivial) (call method [])
      fun v => eachElement spec d range body inSwitch v
  · exact eachElement spec d range body inSwitch v

theorem execute (s : Stmt) (inSwitch : Bool) : (execute s inSwitch).Respects b i := by
  cases s with
  | declaration _ decl => exact declaration decl
  | function _ f => exact bind fun _ => ends _
  | struct _ name fields methods => exact bind fun _ => ends _
  | typedef _ decl => exact bind fun _ => ends _
  | usingDirective _ path => exact bind fun _ => ends _
  | usingDeclaration => exact fail _
  | namespaceDef => exact fail _
  | namespaceAlias _ name target => exact bind fun _ => ends _
  | compound _ body => exact bind fun _ => runBlock inSwitch body
  | expression _ e =>
    cases e with
    | some e => exact visit e none fun _ => ⟨trivial, trivial⟩
    | none => exact ends _
  | label => exact ends _
  | ifThen | switch | whileLoop | forEach =>
    exact bind fun _ => visit _ none fun _ => ⟨trivial, trivial⟩
  | caseLabel => exact fail _
  | defaultLabel => exact fail _
  | doWhile _ body condition =>
    exact bind fun _ => visitStmt body inSwitch fun _ => ⟨trivial, trivial⟩
  | forLoop _ init condition step body =>
    refine bind fun _ => ?_
    cases init with
    | some s => exact visitStmt s inSwitch fun _ => ⟨trivial, trivial⟩
    | none => exact forNext _
  | breakJump => exact ends _
  | continueJump => exact ends _
  | returnJump _ e =>
    cases e with
    | some e => exact visit e none fun _ => ⟨trivial, trivial⟩
    | none => exact ends _
  | gotoJump => exact fail _

end Statements

section Program

theorem runItems (items : List Stmt) : (runItems items).Respects b i := by
  cases items with
  | nil =>
    refine bind fun s => bind fun main => ?_
    exact andThen .exitStatus (fun _ => trivial) (call main []) fun v => answer (.exitStatus v)
  | cons s rest => exact visitStmt s false fun _ => ⟨trivial, trivial⟩

/-- Whatever goes on from a pause. -/
theorem resumePause (p : Pause j) : (resumePause p).Respects b i := by
  cases p with
  | start p => exact bind fun c => bind fun _ => runItems p.items
  | expr e hint => exact evaluate e hint
  | stmt s inSwitch => exact execute s inSwitch
  | label value => exact visit value none fun _ => trivial
  | switch s opens =>
    cases opens with
    | false => exact walkSwitch _ _ _
    | true => exact bind fun _ => walkSwitch _ _ _
  | input => exact readCharacter

end Program

end Respects

end RunM

end Stepwise
