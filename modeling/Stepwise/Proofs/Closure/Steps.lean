import Stepwise.Machine.Statement
import Stepwise.Machine.Step
import Stepwise.Proofs.Closure.Declarations

/-! # Properties of steps

What a statement does when it is entered, how a pause goes on, and what frames do with results. A
frame that calls a function may read the console, and so may the end of a program, where `main` is
called.
-/

namespace Stepwise

/-- The statement defines or declares a struct. -/
def Stmt.definesStruct : Stmt → Bool
  | .struct .. => true
  | .declaration _ decl => decl.declarators.isEmpty
  | _ => false

namespace RunM

namespace Quiet

variable {T : (α : Type) → RunM α → (α → Prop) → Prop} (hT : Quiet T)

include hT

theorem leaveScope (flow : Flow) : T _ (leaveScope flow) Progress.Proceeds :=
  hT.bind hT.popScope fun _ _ => hT.pure trivial

theorem runBlock (inSwitch : Bool) (body : List Stmt) :
    T _ (runBlock inSwitch body) Progress.Proceeds := by
  cases body with
  | nil => exact hT.leaveScope .normal
  | cons s rest => exact hT.visitStmt s inSwitch _

theorem resumeBlock (rest : List Stmt) (inSwitch : Bool) (flow : Flow) :
    T _ (resumeBlock rest inSwitch flow) Progress.Proceeds :=
  Sequential.ite (hT.runBlock inSwitch rest) (hT.leaveScope flow)

theorem runBranch (thenBranch : Stmt) (elseBranch : Option Stmt) (inSwitch : Bool) (v : Value) :
    T _ (runBranch thenBranch elseBranch inSwitch v) Progress.Proceeds := by
  refine hT.bind (hT.condition v) fun holds _ => ?_
  split
  · exact hT.visitStmt _ inSwitch _
  · exact hT.visitStmt _ inSwitch _
  · exact hT.leaveScope .normal

section Switch

theorem labelMatches (discriminant label : Value) :
    T _ (labelMatches discriminant label) fun _ => True := by
  refine hT.bind (hT.convert _ _ _) fun _ _ => ?_
  exact hT.bind (hT.reads _ rfl _ _) fun _ _ => hT.pure trivial

theorem walkSwitch (discriminant : Value) (running : Bool) (body : List Stmt) :
    T _ (walkSwitch discriminant running body) Progress.Proceeds := by
  induction body with
  | nil => exact hT.pure trivial
  | cons s rest ih =>
    cases s with
    | caseLabel span value => exact hT.bind (hT.setCursor _) fun _ _ => hT.pure trivial
    | defaultLabel span => exact hT.bind (hT.setCursor _) fun _ _ => hT.pure trivial
    | _ => exact Sequential.ite (hT.visitStmt _ true _) ih

theorem runSwitch (s : SwitchBody) : T _ (runSwitch s) Progress.Proceeds :=
  hT.walkSwitch _ _ _

theorem passLabel (s : SwitchBody) (label : Value) :
    T _ (passLabel s label) Progress.Proceeds := by
  refine Sequential.ite ?_ ?_
  · exact hT.bind (R := fun _ => True) (hT.pure trivial) fun _ _ => hT.runSwitch _
  · exact hT.bind (hT.labelMatches _ label) fun _ _ => hT.runSwitch _

theorem resumeSwitch (s : SwitchBody) (flow : Flow) :
    T _ (resumeSwitch s flow) Progress.Proceeds := Sequential.ite (hT.runSwitch s) (hT.pure trivial)

theorem endSwitch (flow : Flow) : T _ (endSwitch flow) Progress.Proceeds := hT.leaveScope _

theorem enterSwitch (body : Stmt) (discriminant : Value) :
    T _ (enterSwitch body discriminant) Progress.Proceeds := by
  cases body with
  | compound span statements => exact hT.bind (hT.setCursor _) fun _ _ => hT.pure trivial
  | _ => exact hT.bind (hT.walkSwitch _ _ _) fun p hp => hT.andThen hp hT.endSwitch

theorem resumeSwitchPause (s : SwitchBody) (opens : Bool) :
    T _ (resumeSwitchPause s opens) Progress.Proceeds := by
  cases opens with
  | false => exact hT.runSwitch s
  | true => exact hT.bind (hT.pushScope _) fun _ _ => hT.runSwitch s

end Switch

section Loop

theorem whileHolds (v : Value) {next : RunM (Progress .flow)} (hn : T _ next Progress.Proceeds) :
    T _ (whileHolds v next) Progress.Proceeds :=
  hT.bind (hT.condition v) fun _ _ => Sequential.ite hn (hT.leaveScope .normal)

theorem afterBody (flow : Flow) {next : RunM (Progress .flow)} (hn : T _ next Progress.Proceeds) :
    T _ (afterBody flow next) Progress.Proceeds := by
  cases flow with
  | normal => exact hn
  | continues => exact hn
  | breaks => exact hT.leaveScope .normal
  | returns v => exact hT.leaveScope (.returns v)

theorem forNext (l : ForLoop) : T _ (forNext l) Progress.Proceeds := by
  unfold RunM.forNext
  split
  · exact hT.visit _ none _
  · exact hT.visitStmt _ _ _

theorem forAdvance (l : ForLoop) : T _ (forAdvance l) Progress.Proceeds := by
  unfold RunM.forAdvance
  split
  · exact hT.visit _ none _
  · exact hT.forNext l

theorem notIterable {α : Type} {Q : α → Prop} (range : Expr) (v : Value) :
    T _ (notIterable range v) Q := by
  unfold RunM.notIterable
  split
  · exact hT.fail _ rfl
  · exact hT.text_bind v fun _ => hT.fail _ rfl

theorem bindElement (spec : TypeSpec) (d : Declarator) (element : Value) :
    T _ (bindElement spec d element) fun _ => True := by
  unfold RunM.bindElement
  extract_lets rest
  have hrest (base : Ty) : T _ (rest base) fun _ => True := by
    refine hT.bind (hT.ask fun _ hU => hU.declarator base _ d) fun declared _ => ?_
    exact hT.bind (hT.nameOf declared _) fun name _ => hT.bindDeclared name declared element
  refine Sequential.ite ?_ ?_
  · exact hT.bind (R := fun _ => True) (hT.pure trivial) fun base _ => hrest base
  · exact hT.bind (hT.ask fun _ hU => hU.baseType spec) fun base _ => hrest base

theorem eachNext (l : EachLoop) : T _ (eachNext l) Progress.Proceeds := by
  unfold RunM.eachNext
  split
  · exact hT.leaveScope .normal
  · refine hT.inspect_bind (fun _ _ => rfl) fun found => ?_
    split
    · exact hT.leaveScope .normal
    · refine Sequential.ite (hT.leaveScope .normal) ?_
      refine hT.bind (hT.pushScope _) fun _ _ => ?_
      exact hT.bind (hT.bindElement _ _ _) fun _ _ => hT.visitStmt _ _ _

theorem eachElement (spec : TypeSpec) (d : Declarator) (range : Expr) (body : Stmt)
    (inSwitch : Bool) (v : Value) :
    T _ (eachElement spec d range body inSwitch v) Progress.Proceeds := by
  unfold RunM.eachElement
  split
  · exact hT.notIterable range v
  · exact hT.inspect_bind (fun _ _ => rfl) fun _ => hT.eachNext _

end Loop

/-- A statement that defines or declares a struct; it makes no objects. -/
theorem execute_definition (hd : ∀ d, T _ (defineStruct d) fun _ => True) {s : Stmt}
    (hs : s.definesStruct = true) (inSwitch : Bool) :
    T _ (execute s inSwitch) Progress.Proceeds := by
  cases s with
  | struct _ name fields methods =>
    exact hT.bind (hT.defineStructType hd name fields methods) fun _ _ => hT.pure trivial
  | declaration _ decl =>
    obtain ⟨spec, declarators⟩ := decl
    cases declarators with
    | nil => exact hT.bind (hT.forwardDeclare hd _) fun _ _ => hT.pure trivial
    | cons => cases hs
  | _ => cases hs

/-- A statement that defines no struct. -/
theorem execute (hm : ∀ m, T _ (make m) Progress.Proceeds) {s : Stmt}
    (hs : s.definesStruct = false) (inSwitch : Bool) :
    T _ (execute s inSwitch) Progress.Proceeds := by
  have hdone {x : RunM Unit} (hx : T _ x fun _ => True) :
      T _ (do x; return .done .normal) (@Progress.Proceeds .flow) :=
    hT.bind hx fun _ _ => hT.pure trivial
  have hopen {name : String} {x : RunM (Progress .flow)} (hx : T _ x Progress.Proceeds) :
      T _ (do RunM.pushScope name; x) Progress.Proceeds :=
    hT.bind (hT.pushScope name) fun _ _ => hx
  cases s with
  | declaration _ decl =>
    obtain ⟨spec, declarators⟩ := decl
    cases declarators with
    | nil => cases hs
    | cons => exact hT.declareAll hm _ _
  | function _ f => exact hdone (hT.defineFunction f .global)
  | struct => cases hs
  | typedef _ decl => exact hdone (hT.defineTypedefs decl)
  | usingDirective _ path => exact hdone (hT.onNamespaces _)
  | usingDeclaration => exact hT.fail _ rfl
  | namespaceDef => exact hT.fail _ rfl
  | namespaceAlias _ name target => exact hdone (hT.onNamespaces _)
  | compound _ body => exact hopen (hT.runBlock inSwitch body)
  | expression _ e =>
    cases e with
    | some e => exact hT.visit e none _
    | none => exact hT.pure trivial
  | label => exact hT.pure trivial
  | ifThen _ condition thenBranch elseBranch => exact hopen (hT.visit condition none _)
  | switch _ discriminant body => exact hopen (hT.visit discriminant none _)
  | caseLabel => exact hT.fail _ rfl
  | defaultLabel => exact hT.fail _ rfl
  | whileLoop _ condition body => exact hopen (hT.visit condition none _)
  | doWhile _ body condition => exact hopen (hT.visitStmt body inSwitch _)
  | forLoop _ init condition step body =>
    refine hopen ?_
    cases init with
    | some s => exact hT.visitStmt s inSwitch _
    | none => exact hT.forNext _
  | forEach _ spec d range body => exact hopen (hT.visit range none _)
  | breakJump => exact hT.pure trivial
  | continueJump => exact hT.pure trivial
  | returnJump _ e =>
    cases e with
    | some e => exact hT.visit e none _
    | none => exact hT.pure trivial
  | gotoJump => exact hT.fail _ rfl

end Quiet

end RunM

variable {j k : Completion}

/-- What the frame does may be to call a function. -/
def Frame.mayCall : Frame j k → Bool
  | .callee .. | .argument .. | .items _ | .eachRange .. => true
  | _ => false

/-- What the frame does may be to write to a cell. -/
def Frame.writes : Frame j k → Bool
  | .operate op _ => op.writes
  | .unary op => (RunM.unaryOperator op).1.writes
  | .single .. | .storeFirst .. => true
  | _ => false

/-- What the pause goes on with may define structs. -/
def Pause.definesStruct : Pause j → Bool
  | .start _ => true
  | .stmt s _ => s.definesStruct
  | _ => false

namespace RunM

namespace Quiet

variable {T : (α : Type) → RunM α → (α → Prop) → Prop} (hT : Quiet T)

include hT

theorem exitStatus (v : Value) : T _ (exitStatus v) fun _ => True :=
  Sequential.ite (hT.pure trivial) (hT.bind (hT.convert v _ _) fun _ _ => hT.pure trivial)

section Frames

variable (hm : ∀ m, T _ (make m) Progress.Proceeds)

include hm

/-- A frame of an expression goes on with the value of a part of it. -/
theorem resumeOperand {f : Frame .value .value} (hf : f.mayCall = false) (hw : f.writes = false)
    (v : Value) :
    T _ (resumeFrame f v) Progress.Proceeds := by
  cases f with
  | leave node previous => exact hT.bind (hT.setCursor _) fun _ _ => hT.pure trivial
  | rightOperand op right hint => exact hT.visit right hint _
  | operate op left => exact hT.applyTo (fun _ => trivial) hw left v
  | logical op right hint =>
    exact hT.decideLogical (fun _ => trivial) op right hint v (hT.visit right hint _)
  | truth => exact hT.bind (hT.condition v) fun _ _ => hT.pure trivial
  | assign op value => exact hT.inspect_bind (fun _ _ => rfl) fun _ => hT.visit value _ _
  | unary op => exact hT.applyUnary (fun _ => trivial) hw v
  | choose thenExpr elseExpr hint =>
    exact hT.bind (hT.condition v) fun _ _ => hT.visit _ hint _
  | callee => cases hf
  | argument => cases hf
  | member name throughPointer => exact hT.memberOf (fun _ => trivial) v name throughPointer
  | cast ty => exact hT.bind (hT.convert v ty true) fun _ _ => hT.pure trivial
  | size => exact hT.sizeValue (fun _ => trivial) v.ty
  | exitStatus => exact hT.bind (hT.exitStatus v) fun _ _ => hT.pure trivial
  | fill f => exact hT.resumeFilling hm f v
  | convert ty readonly => exact hm _
  | arrayFrom ty readonly => exact hT.makeArrayFrom hm ty readonly v
  | single | storeFirst => cases hw
  | openBound element readonly => exact hT.makeOpen hm element readonly v

/-- A frame of a statement goes on. -/
theorem resumeStatement {f : Frame j .flow} (hf : f.mayCall = false) (r : j.Result) :
    T _ (resumeFrame f r) Progress.Proceeds := by
  cases f with
  | leave node previous => exact hT.bind (hT.setCursor _) fun _ _ => hT.pure trivial
  | defaultArgument entry body name param rest => exact hT.takeDefault entry body name param rest r
  | bind binding spec rest =>
    exact hT.bind (hT.bindValue binding r) fun _ _ => hT.declareAll hm spec rest
  | discard => exact hT.pure trivial
  | block rest inSwitch => exact hT.resumeBlock rest inSwitch r
  | popScope => exact hT.leaveScope r
  | ifThen thenBranch elseBranch inSwitch => exact hT.runBranch thenBranch elseBranch inSwitch r
  | switch body => exact hT.enterSwitch body r
  | caseLabel s => exact hT.passLabel s r
  | switchStatement s => exact hT.resumeSwitch s r
  | endSwitch => exact hT.endSwitch r
  | whileCondition condition body inSwitch => exact hT.whileHolds r (hT.visitStmt body inSwitch _)
  | whileBody condition body inSwitch => exact hT.afterBody r (hT.visit condition none _)
  | doBody condition body inSwitch => exact hT.afterBody r (hT.visit condition none _)
  | doCondition condition body inSwitch => exact hT.whileHolds r (hT.visitStmt body inSwitch _)
  | forInit l => exact hT.forNext l
  | forCondition l => exact hT.whileHolds r (hT.visitStmt _ _ _)
  | forBody l => exact hT.afterBody r (hT.forAdvance l)
  | forStep l => exact hT.forNext l
  | eachRange => cases hf
  | eachIterable spec d range body inSwitch => exact hT.eachElement spec d range body inSwitch r
  | eachBody l => exact hT.bind hT.popScope fun _ _ => hT.afterBody r (hT.eachNext l)
  | returns => exact hT.pure trivial

theorem resumeFrame {f : Frame j k} (hf : f.mayCall = false) (hw : f.writes = false)
    (r : j.Result) : T _ (resumeFrame f r) Progress.Proceeds := by
  cases k with
  | flow => exact hT.resumeStatement hm hf r
  | value =>
    cases j with
    | value => exact hT.resumeOperand hm hf hw r
    | flow =>
      cases f with
      | endCall entry depth => exact hT.endCall entry depth r
      | items => cases hf

end Frames

/-- A part of a computation that may wait for input, and a frame that waits for it. -/
theorem andThen_any {p : Progress j} {frame : Frame j k} {f : j.Result → RunM (Progress k)}
    (hf : ∀ r, T _ (f r) fun _ => True) : T _ (p.andThen frame f) fun _ => True := by
  cases p with
  | done r => exact hf r
  | paused p path => exact hT.pure trivial

section Read

variable (hr : T _ readCharacter fun _ => True)

include hr

theorem nextArgument (f : Value) (values : List Value) (hint : Option StructTy)
    (args : List Expr) : T _ (nextArgument f values hint args) fun _ => True := by
  cases args with
  | nil => exact hT.call hr f _
  | cons e rest => exact hT.mono (hT.visit e hint _) fun _ _ => trivial

theorem callMain : T _ callMain fun _ => True := by
  refine hT.get_bind (fun _ _ => rfl) fun s => hT.bind (hT.named _ _) fun main _ => ?_
  refine hT.bind (hT.call hr main []) fun p _ => hT.andThen_any fun v => ?_
  exact hT.bind (hT.exitStatus v) fun _ _ => hT.pure trivial

theorem runItems (items : List Stmt) : T _ (runItems items) fun _ => True := by
  cases items with
  | nil => exact hT.callMain hr
  | cons s rest => exact hT.mono (hT.visitStmt s false _) fun _ _ => trivial

theorem eachBegin (spec : TypeSpec) (d : Declarator) (range : Expr) (body : Stmt)
    (inSwitch : Bool) (v : Value) :
    T _ (eachBegin spec d range body inSwitch v) fun _ => True := by
  have helement (v : Value) : T _ (RunM.eachElement spec d range body inSwitch v) fun _ => True :=
    hT.mono (hT.eachElement spec d range body inSwitch v) fun _ _ => trivial
  unfold RunM.eachBegin
  split
  · refine hT.get_bind (fun _ _ => rfl) fun s => Sequential.ite ?_ (hT.notIterable range v)
    refine hT.bind (hT.member v _) fun method _ => ?_
    exact hT.bind (hT.call hr method []) fun p _ => hT.andThen_any helement
  · exact helement v

theorem begin (hd : ∀ d, T _ (defineStruct d) fun _ => True) (p : Program) :
    T _ (begin p) fun _ => True := by
  refine hT.read_bind fun c => hT.bind (R := fun _ => True) ?_ fun _ _ => hT.runItems hr p.items
  refine hT.forIn fun name => ?_
  exact hT.bind (hT.loadLibrary hd name) fun _ _ => hT.pure rfl

/-- What may define structs makes no objects. -/
theorem resumePause_definition (hd : ∀ d, T _ (defineStruct d) fun _ => True) {p : Pause j}
    (hp : p.definesStruct = true) : T _ (RunM.resumePause p) fun _ => True := by
  cases p with
  | start p => exact hT.begin hr hd p
  | stmt s inSwitch => exact hT.mono (hT.execute_definition hd hp inSwitch) fun _ _ => trivial
  | _ => cases hp

variable (hm : ∀ m, T _ (make m) Progress.Proceeds)

include hm

theorem resumeFrame_quiet {f : Frame j k} (hw : f.writes = false) (r : j.Result) :
    T _ (RunM.resumeFrame f r) fun _ => True := by
  cases hf : f.mayCall with
  | false => exact hT.mono (hT.resumeFrame hm hf hw r) fun _ _ => trivial
  | true =>
    cases f with
    | callee args hint => exact hT.nextArgument hr r [] hint args
    | argument g values rest hint => exact hT.nextArgument hr g (r :: values) hint rest
    | items rest => exact hT.runItems hr rest
    | eachRange spec d range body inSwitch => exact hT.eachBegin hr spec d range body inSwitch r
    | _ => cases hf

theorem resumePause_other {p : Pause j} (hp : p.definesStruct = false) :
    T _ (RunM.resumePause p) fun _ => True := by
  cases p with
  | start p => cases hp
  | expr e hint => exact hT.mono (hT.evaluate hm e hint) fun _ _ => trivial
  | stmt s inSwitch => exact hT.mono (hT.execute hm hp inSwitch) fun _ _ => trivial
  | label value => exact hT.mono (hT.visit value none _) fun _ _ => trivial
  | switch s opens => exact hT.mono (hT.resumeSwitchPause s opens) fun _ _ => trivial
  | input => exact hr

/-- Whatever a run goes on with, if the property also holds of what defines a struct. -/
theorem resumePause (hd : ∀ d, T _ (defineStruct d) fun _ => True) (p : Pause j) :
    T _ (RunM.resumePause p) fun _ => True := by
  cases hp : p.definesStruct with
  | true => exact hT.resumePause_definition hr hd hp
  | false => exact hT.resumePause_other hr hm hp

end Read

end Quiet

namespace Closed

variable {T : (α : Type) → RunM α → (α → Prop) → Prop} (hT : Closed T)
  (hm : ∀ m, T _ (make m) Progress.Proceeds)

include hT hm

/-- A frame that writes to cells goes on. -/
theorem resumeWriting {f : Frame j k} (hw : f.writes = true) (r : j.Result) :
    T _ (RunM.resumeFrame f r) Progress.Proceeds := by
  cases f with
  | operate op left => exact hT.applyTo op left r
  | unary op => exact hT.applyUnary op r
  | single ty readonly => exact hT.makeSingle hm ty readonly r
  | storeFirst w readonly => exact hT.storeFirst w readonly r
  | _ => cases hw

theorem resumeFrame {f : Frame j k} (hf : f.mayCall = false) (r : j.Result) :
    T _ (RunM.resumeFrame f r) Progress.Proceeds := by
  cases hw : f.writes with
  | false => exact hT.toQuiet.resumeFrame hm hf hw r
  | true => exact hT.resumeWriting hm hw r

theorem resumeFrame_any (hr : T _ readCharacter fun _ => True) (f : Frame j k) (r : j.Result) :
    T _ (RunM.resumeFrame f r) fun _ => True := by
  cases hw : f.writes with
  | false => exact hT.resumeFrame_quiet hr hm hw r
  | true => exact hT.mono (hT.resumeWriting hm hw r) fun _ _ => trivial

end Closed

end RunM

end Stepwise
