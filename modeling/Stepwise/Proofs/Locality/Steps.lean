import Stepwise.Machine.Statement
import Stepwise.Machine.Step
import Stepwise.Proofs.Closure.Drives
import Stepwise.Proofs.Locality.Declarations

/-! # Steps in other surroundings

A step from a pause on a balanced path leads to a balanced path again, or to a result on
the footing below. It does the same in other surroundings, where the paths know of more
scopes, and so does every sequence of steps between which the host uses the console.
-/

namespace Stepwise

/-! ## Statements in other surroundings

A statement that opens a scope leaves it on every way out: at its end, by a jump and by a
return. Its parts are visited while the scope is open, so the scopes below it stay as they
are until then.
-/

section Statements

open RunM

namespace Surroundings

variable {E : Surroundings} {s : State} {b : Footing}

theorem local_holds (v : Value) : E.Local s (holds v) fun _ t => s.Keeps t :=
  local_operate (OperatorM.closed_conservative.condition v)

theorem local_labelMatches (discriminant label : Value) :
    E.Local s (labelMatches discriminant label) fun _ t => s.Keeps t := by
  refine .bind (local_operate (OperatorM.closed_conservative.convert _ _ _)) fun _ t ht => ?_
  refine .bind (local_operate (OperatorM.closed_conservative.apply _ _ _)) fun _ u hu => ?_
  exact .pure rfl (ht.keeps hu)

theorem mirrors_notIterable {α : Type} {lift : α → α} {Q : α → State → Prop} (range : Expr)
    (v : Value) : E.Mirrors lift s (notIterable range v) (notIterable range v) Q := by
  unfold notIterable
  split
  · exact .fail
  · exact .query_bind (local_text v) fun _ => .fail

theorem local_bindElement (ha : E.Admits s) (spec : TypeSpec) (d : Declarator) (element : Value) :
    E.Local s (bindElement spec d element) fun _ t => s.Gains t := by
  unfold bindElement
  extract_lets rest
  have hrest (base : Ty) : E.Local s (rest base) fun _ t => s.Gains t := by
    refine .query_bind (local_ask (ReadM.closed_unaware.declarator base _ d) ha) fun declared => ?_
    exact .query_bind (local_nameOf declared _) fun name =>
      local_bindDeclared ha name declared element
  refine .ite ?_ ?_
  · exact .query_bind (.pure rfl rfl) hrest
  · exact .query_bind (local_ask (ReadM.closed_unaware.baseType spec) ha) hrest

/-- A scope that is left leaves those of the footing. -/
theorem follows_leaveScope (hs : State.Above 1 b.start s) (flow : Flow) :
    E.Follows b s (leaveScope flow) :=
  .bind (local_popScope hs) fun _ _ ht => .pure rfl (Footing.allows_of_keeps ht)

section Scope

variable (ha : E.Admits b.start) (hs : State.Above 1 b.start s)

include ha hs

/-- An expression that is visited while the scope of a statement is open. -/
theorem follows_condition (e : Expr) {frame : Frame .value .flow}
    (hu : frame.under E.outer.length = frame) (hr : frame.Rests E ⟨s, false⟩ b) :
    E.Follows b s (visit e none (.one frame)) :=
  follows_visit e none (ha.above hs) (by rw [Frames.one, Frames.under_cons, hu]; rfl) (.one hr)

/-- A statement that is visited while the scope of another one is open. -/
theorem follows_part (st : Stmt) (inSwitch : Bool) {frame : Frame .flow .flow}
    (hu : frame.under E.outer.length = frame) (hr : frame.Rests E ⟨s, st.isDeclaration⟩ b) :
    E.Follows b s (visitStmt st inSwitch (.one frame)) :=
  follows_visitStmt st inSwitch (ha.above hs)
    (by rw [Frames.one, Frames.under_cons, hu]; rfl) (.one hr)

theorem follows_runBlock (inSwitch : Bool) (body : List Stmt) :
    E.Follows b s (runBlock inSwitch body) := by
  cases body with
  | nil => exact follows_leaveScope hs .normal
  | cons st rest => exact follows_part ha hs st inSwitch rfl ⟨ha, nofun, hs⟩

theorem follows_resumeBlock (rest : List Stmt) (inSwitch : Bool) (flow : Flow) :
    E.Follows b s (resumeBlock rest inSwitch flow) :=
  .ite (follows_runBlock ha hs inSwitch rest) (follows_leaveScope hs flow)

theorem follows_runBranch (thenBranch : Stmt) (elseBranch : Option Stmt) (inSwitch : Bool)
    (v : Value) : E.Follows b s (runBranch thenBranch elseBranch inSwitch v) := by
  refine .bind (local_holds v) fun holds t ht => ?_
  have ht : State.Above 1 b.start t := hs.keeps ht
  split
  · exact follows_part ha ht _ inSwitch rfl ⟨ha, nofun, ht⟩
  · exact follows_part ha ht _ inSwitch rfl ⟨ha, nofun, ht⟩
  · exact follows_leaveScope ht .normal

end Scope

section Switch

variable (ha : E.Admits b.start) (hb : b.declares = true)

include ha hb

theorem follows_walkSwitch (discriminant : Value) (running : Bool) (body : List Stmt)
    (hs : b.Allows s) : E.Follows b s (walkSwitch discriminant running body) := by
  induction body with
  | nil => exact .pure rfl hs
  | cons st rest ih =>
    cases st with
    | caseLabel span value =>
      refine .bind (local_setCursor _) fun _ t ht => .pure rfl ?_
      have ht : b.Allows t := hs.keeps ht
      refine ⟨⟨t, false⟩, ⟨fun _ => ha.allows ht, nofun, Footing.allows_start _⟩, ?_⟩
      exact .one ⟨ha, fun _ => hb, .of_allows ht⟩
    | defaultLabel span =>
      refine .bind (local_setCursor _) fun _ t ht => .pure rfl ?_
      exact ⟨b, ⟨fun _ => ha, fun _ => hb, hs.keeps ht⟩, .nil (.refl b)⟩
    | _ =>
      refine .ite (follows_visitStmt _ true (ha.allows hs) rfl (.one ?_)) ih
      exact ⟨ha, fun _ => hb, .of_declares hb hs⟩

theorem follows_runSwitch (body : SwitchBody) (hs : b.Allows s) :
    E.Follows b s (runSwitch body) := follows_walkSwitch ha hb _ _ _ hs

theorem follows_passLabel (body : SwitchBody) (label : Value) (hs : b.Allows s) :
    E.Follows b s (passLabel body label) := by
  refine .ite ?_ ?_
  · exact .query_bind (.pure rfl rfl) fun running => follows_runSwitch ha hb _ hs
  · exact .bind (local_labelMatches _ label) fun running t ht =>
      follows_runSwitch ha hb _ (hs.keeps ht)

theorem follows_resumeSwitch (body : SwitchBody) (flow : Flow) (hs : b.Allows s) :
    E.Follows b s (resumeSwitch body flow) :=
  .ite (follows_runSwitch ha hb body hs) (.pure rfl hs)

end Switch

theorem follows_enterSwitch (ha : E.Admits b.start) (body : Stmt) (discriminant : Value)
    (hs : State.Above 1 b.start s) :
    E.Follows b s (enterSwitch body discriminant) := by
  have hwalk (st : Stmt) : E.Follows b s (do
      (← walkSwitch discriminant false [st]).andThen .endSwitch endSwitch) := by
    refine .bind_lift (follows_walkSwitch (b := ⟨s, true⟩) (ha.above hs) rfl _ _ _
      (Footing.allows_start _)) fun p t hp => ?_
    refine mirrors_andThen hp ⟨ha, nofun, hs⟩ fun flow ht => ?_
    exact follows_leaveScope (Footing.above_of_allows hs ht) _
  cases body with
  | compound span statements =>
    refine .bind (local_setCursor _) fun _ t ht => .pure rfl ?_
    have ht : State.Above 1 b.start t := hs.keeps ht
    have hpush := (State.Keeps.refl t).push ⟨"CompoundStatement", false, []⟩
    have hpop : Frame.popScope.Rests E ⟨_, true⟩ ⟨t, true⟩ := ⟨ha.above ht, nofun, hpush⟩
    refine ⟨_, ⟨fun _ => (ha.above ht).above hpush, fun _ => rfl, ?_⟩, .cons hpop (.one ?_)⟩
    · exact Footing.allows_start _
    · exact ⟨ha, nofun, ht⟩
  | _ => exact hwalk _

section Loop

theorem follows_whileHolds (v : Value) {next : RunM (Progress .flow)}
    (hs : State.Above 1 b.start s)
    (hn : ∀ t, State.Above 1 b.start t → E.Follows b t next) :
    E.Follows b s (whileHolds v next) :=
  .bind (local_holds v) fun _ t ht =>
    .ite (hn t (hs.keeps ht)) (follows_leaveScope (hs.keeps ht) .normal)

theorem follows_afterBody (flow : Flow) {next : RunM (Progress .flow)}
    (hs : State.Above 1 b.start s) (hn : E.Follows b s next) :
    E.Follows b s (afterBody flow next) := by
  cases flow with
  | normal => exact hn
  | continues => exact hn
  | breaks => exact follows_leaveScope hs .normal
  | returns v => exact follows_leaveScope hs (.returns v)

section Rounds

variable (ha : E.Admits b.start) (hs : State.Above 1 b.start s)

include ha hs

theorem follows_whileNext (condition : Expr) (body : Stmt) (inSwitch : Bool) :
    E.Follows b s (whileNext condition body inSwitch) :=
  follows_condition ha hs condition rfl ⟨ha, nofun, hs⟩

theorem follows_doNext (condition : Expr) (body : Stmt) (inSwitch : Bool) :
    E.Follows b s (doNext condition body inSwitch) :=
  follows_part ha hs body inSwitch rfl ⟨ha, nofun, hs⟩

theorem follows_forRun (l : ForLoop) : E.Follows b s (forRun l) :=
  follows_part ha hs l.body l.inSwitch rfl ⟨ha, nofun, hs⟩

theorem follows_forNext (l : ForLoop) : E.Follows b s (forNext l) := by
  unfold forNext
  split
  · exact follows_condition ha hs _ rfl ⟨ha, nofun, hs⟩
  · exact follows_forRun ha hs l

theorem follows_forAdvance (l : ForLoop) : E.Follows b s (forAdvance l) := by
  unfold forAdvance
  split
  · exact follows_condition ha hs _ rfl ⟨ha, nofun, hs⟩
  · exact follows_forNext ha hs l

theorem follows_eachNext (l : EachLoop) : E.Follows b s (eachNext l) := by
  unfold eachNext
  split
  · exact follows_leaveScope hs .normal
  · refine .inspect_bind rfl ?_
    split
    · exact follows_leaveScope hs .normal
    · refine .ite (follows_leaveScope hs .normal) ?_
      refine .bind (local_pushScope _) fun _ t ht => ?_
      have ht : State.Above 2 b.start t := ht ▸ hs.push _
      refine .bind (local_bindElement (ha.above ht) _ _ _) fun _ u hu => ?_
      have hu : State.Above 2 b.start u := ht.gains hu
      exact follows_visitStmt _ _ (ha.above hu) rfl (.one ⟨ha, nofun, hu⟩)

theorem follows_eachElement (spec : TypeSpec) (d : Declarator) (range : Expr) (body : Stmt)
    (inSwitch : Bool) (v : Value) :
    E.Follows b s (eachElement spec d range body inSwitch v) := by
  unfold eachElement
  split
  · exact mirrors_notIterable range v
  · exact .inspect_bind rfl (follows_eachNext ha hs _)

theorem follows_eachBegin (spec : TypeSpec) (d : Declarator) (range : Expr) (body : Stmt)
    (inSwitch : Bool) (v : Value) :
    E.Follows b s (eachBegin spec d range body inSwitch v) := by
  unfold eachBegin
  split
  · refine .get_bind rfl (.ite ?_ (mirrors_notIterable range v))
    refine .query_bind (local_member v _) fun method => ?_
    have hcall : E.Follows ⟨s, false⟩ s (call method []) :=
      follows_call (Footing.allows_start _) method []
    refine .bind_lift hcall fun p t hp => ?_
    refine mirrors_andThen hp ⟨ha, nofun, hs⟩ fun v ht => ?_
    exact follows_eachElement ha (Footing.above_of_allows hs ht) spec d range body inSwitch v
  · exact follows_eachElement ha hs spec d range body inSwitch v

end Rounds

end Loop

/-- A statement that was entered, on a footing of its own. -/
theorem follows_execute_start (ha : E.Admits s) (st : Stmt) (inSwitch : Bool) :
    E.Follows ⟨s, st.isDeclaration⟩ s (RunM.execute st inSwitch) := by
  have hdone {d : Bool} {x : RunM Unit} (hx : E.Local s x fun _ t => s.Keeps t) :
      E.Follows (k := .flow) ⟨s, d⟩ s (do x; return .done .normal) :=
    .bind hx fun _ t ht => .pure rfl (Footing.allows_of_keeps ht)
  have hopen {name : String} {x : RunM (Progress .flow)}
      (hx : ∀ t, State.Above 1 s t → E.Follows ⟨s, false⟩ t x) :
      E.Follows ⟨s, false⟩ s (do pushScope name; x) :=
    .bind (local_pushScope name) fun _ t ht => ht ▸ hx _ ((State.Keeps.refl s).push _)
  cases st with
  | declaration _ decl => exact follows_declaration ha rfl decl (Footing.allows_start _)
  | function _ f => exact hdone (local_defineFunction ha f .global)
  | struct _ name fields methods => exact hdone (local_defineStructType ha name fields methods)
  | typedef _ decl => exact hdone (local_defineTypedefs ha decl)
  | usingDirective _ path => exact hdone (local_onNamespaces _)
  | usingDeclaration => exact .fail
  | namespaceDef => exact .fail
  | namespaceAlias _ name target => exact hdone (local_onNamespaces _)
  | compound _ body => exact hopen fun t ht => follows_runBlock ha ht inSwitch body
  | expression _ e =>
    cases e with
    | some e => exact follows_visit e none ha rfl (.one ⟨ha, nofun, .refl _⟩)
    | none => exact .pure rfl (Footing.allows_start _)
  | label => exact .pure rfl (Footing.allows_start _)
  | ifThen _ condition thenBranch elseBranch =>
    exact hopen fun t ht => follows_condition ha ht condition rfl ⟨ha, nofun, ht⟩
  | switch _ discriminant body =>
    exact hopen fun t ht => follows_condition ha ht discriminant rfl ⟨ha, nofun, ht⟩
  | caseLabel => exact .fail
  | defaultLabel => exact .fail
  | whileLoop _ condition body =>
    exact hopen fun t ht => follows_whileNext ha ht condition body inSwitch
  | doWhile _ body condition =>
    exact hopen fun t ht => follows_doNext ha ht condition body inSwitch
  | forLoop _ init condition step body =>
    refine hopen fun t ht => ?_
    cases init with
    | some st => exact follows_part ha ht st inSwitch rfl ⟨ha, nofun, ht⟩
    | none => exact follows_forNext ha ht _
  | forEach _ spec d range body =>
    exact hopen fun t ht => follows_condition ha ht range rfl ⟨ha, nofun, ht⟩
  | breakJump => exact .pure rfl (Footing.allows_start _)
  | continueJump => exact .pure rfl (Footing.allows_start _)
  | returnJump _ e =>
    cases e with
    | some e => exact follows_visit e none ha rfl (.one ⟨ha, nofun, .refl _⟩)
    | none => exact .pure rfl (Footing.allows_start _)
  | gotoJump => exact .fail

theorem follows_execute (ha : E.Admits b.start) (st : Stmt)
    (hb : st.isDeclaration = true → b.declares = true) (hs : b.Allows s) (inSwitch : Bool) :
    E.Follows b s (RunM.execute st inSwitch) :=
  (follows_execute_start (ha.allows hs) st inSwitch).mono fun _ _ hp => hp.covered ⟨hb, hs⟩

end Surroundings

end Statements

/-! ## Steps and runs -/

open RunM

namespace Surroundings

variable {E : Surroundings} {s : State} {b top : Footing} {j k : Completion}

section Program

theorem local_exitStatus (v : Value) : E.Local s (exitStatus v) fun _ t => s.Keeps t := by
  refine .ite (.pure rfl (.refl s)) ?_
  exact .bind (local_operate (OperatorM.closed_conservative.convert v _ _)) fun _ _ ht =>
    .pure rfl ht

variable (ha : E.Admits b.start)

include ha

theorem follows_callMain (hs : b.Allows s) : E.Follows b s callMain := by
  refine .get_bind (by rw [value?_state (ha.allows hs)]) ?_
  refine .query_bind (local_named _ _) fun main => ?_
  refine .bind_lift (follows_call hs main []) fun p t hp => ?_
  refine mirrors_andThen hp ⟨ha, nofun, .refl b⟩ fun v ht => ?_
  exact .bind (local_exitStatus v) fun _ u hu => .pure rfl (ht.keeps hu)

variable (hb : b.declares = true)

include hb

theorem follows_runItems (hs : b.Allows s) (items : List Stmt) :
    E.Follows b s (runItems items) := by
  cases items with
  | nil => exact follows_callMain ha hs
  | cons st rest =>
    exact follows_visitStmt st false (ha.allows hs) rfl
      (.one ⟨ha, fun _ => hb, .of_declares hb hs⟩)

theorem follows_begin (hs : b.Allows s) (p : Program) : E.Follows b s (begin p) := by
  refine .read_bind (fun _ => rfl) fun c => ?_
  refine .bind (.forIn (I := s.Keeps) (.refl s) fun name _ t ht => ?_) fun _ t ht => ?_
  · exact .bind (local_loadLibrary name) fun _ u hu => .pure rfl ⟨rfl, ht.keeps hu⟩
  · exact follows_runItems ha hb (hs.keeps ht) p.items

end Program

theorem follows_resumePause {p : Pause j} (hp : p.Stands E b s) :
    E.Follows b s (resumePause p) := by
  obtain ⟨ha, hb, hs⟩ := hp
  cases p with
  | start p => exact follows_begin (ha rfl) (hb rfl) hs p
  | expr e hint => exact follows_evaluate (ha rfl) hs e hint
  | stmt st inSwitch => exact follows_execute (ha rfl) st hb hs inSwitch
  | label value =>
    exact follows_visit value none ((ha rfl).allows hs) rfl (.nil (.of_allows hs))
  | switch body opens =>
    cases opens with
    | false => exact follows_runSwitch (ha rfl) (hb rfl) body hs
    | true =>
      exact .bind (local_pushScope _) fun _ t ht =>
        ht ▸ follows_runSwitch (ha rfl) (hb rfl) body hs
  | input => exact follows_readCharacter hs

/-- A frame of an expression goes on with the value of a part of it. -/
theorem follows_resumeOperand {f : Frame .value .value} (hu : f.under E.outer.length = f)
    (ha : E.Admits b.start) (hs : b.Allows s) (v : Value) : E.Follows b s (resumeFrame f v) := by
  have hflat : E.Admits b.start ∧ (false = true → b.declares = true) ∧ b.Covers ⟨s, false⟩ :=
    ⟨ha, nofun, .of_allows hs⟩
  cases f with
  | leave node previous =>
    exact .bind (local_setCursor _) fun _ t ht => .pure rfl (hs.keeps ht)
  | rightOperand op right hint => exact follows_operand ha hs right hint rfl hflat
  | operate op left => exact follows_applyTo hs op left v
  | logical op right hint => exact follows_decideLogical ha hs op right hint v
  | truth => exact .bind (local_holds v) fun _ t ht => .pure rfl (hs.keeps ht)
  | assign op value => exact .inspect_bind rfl (follows_operand ha hs value _ rfl hflat)
  | unary op => exact follows_applyUnary hs op v
  | choose thenExpr elseExpr hint =>
    refine .bind (local_holds v) fun _ t ht => ?_
    have ht : b.Allows t := hs.keeps ht
    exact follows_visit _ hint (ha.allows ht) rfl (.nil (.of_allows ht))
  | callee args hint => exact follows_nextArgument ha hs v [] hint args
  | argument g values rest hint => exact follows_nextArgument ha hs g (v :: values) hint rest
  | member name throughPointer => exact follows_memberOf hs v name throughPointer
  | cast ty =>
    exact .bind (local_operate (OperatorM.closed_conservative.convert v ty true)) fun _ t ht =>
      .pure rfl (hs.keeps ht)
  | size => exact follows_sizeValue ha hs v.ty
  | exitStatus => exact .bind (local_exitStatus v) fun _ t ht => .pure rfl (hs.keeps ht)
  | fill f => exact follows_resumeFilling ha f v hs
  | convert ty readonly => exact follows_make ha _ hs
  | arrayFrom ty readonly => exact follows_makeArrayFrom ha ty readonly v hs
  | single ty readonly => exact follows_makeSingle ha ty readonly v hs
  | storeFirst w readonly => exact follows_storeFirst w readonly v hs
  | openBound element readonly => exact follows_makeOpen ha element readonly v hs

/-- A frame of a statement without a scope goes on. -/
theorem follows_resumeFlat {f : Frame j .flow} (h0 : f.opened = 0) (ha : E.Admits b.start)
    (hb : f.declares = true → b.declares = true) (hs : b.Allows s) (r : j.Result) :
    E.Follows b s (resumeFrame f r) := by
  cases f with
  | leave node previous =>
    exact .bind (local_setCursor _) fun _ t ht => .pure rfl (hs.keeps ht)
  | defaultArgument entry body name param rest =>
    exact follows_takeDefault entry body ha (hb rfl) hs name param rest r
  | bind binding spec rest =>
    exact .bind (local_bind (ha.allows hs) binding r) fun _ t ht =>
      follows_declareAll ha (hb rfl) spec rest (hs.gains (hb rfl) ht)
  | discard => exact .pure rfl hs
  | caseLabel body => exact follows_passLabel ha (hb rfl) body r hs
  | switchStatement body => exact follows_resumeSwitch ha (hb rfl) body r hs
  | returns => exact .pure rfl hs
  | _ => cases h0

/-- A frame of a statement with a scope goes on, as long as the scope is there. -/
theorem follows_resumeScoped {f : Frame j .flow} {n : Nat} (h1 : f.opened = n + 1)
    (ha : E.Admits b.start) (hs : State.Above (n + 1) b.start s) (r : j.Result) :
    E.Follows b s (resumeFrame f r) := by
  cases f with
  | block rest inSwitch => cases h1; exact follows_resumeBlock ha hs rest inSwitch r
  | popScope => cases h1; exact follows_leaveScope hs r
  | ifThen thenBranch elseBranch inSwitch =>
    cases h1; exact follows_runBranch ha hs thenBranch elseBranch inSwitch r
  | switch body => cases h1; exact follows_enterSwitch ha body r hs
  | endSwitch => cases h1; exact follows_leaveScope hs _
  | whileCondition condition body inSwitch =>
    cases h1
    exact follows_whileHolds r hs fun t ht => follows_part ha ht body inSwitch rfl ⟨ha, nofun, ht⟩
  | whileBody condition body inSwitch =>
    cases h1; exact follows_afterBody r hs (follows_whileNext ha hs condition body inSwitch)
  | doBody condition body inSwitch =>
    cases h1; exact follows_afterBody r hs (follows_condition ha hs condition rfl ⟨ha, nofun, hs⟩)
  | doCondition condition body inSwitch =>
    cases h1; exact follows_whileHolds r hs fun t ht => follows_doNext ha ht condition body inSwitch
  | forInit l => cases h1; exact follows_forNext ha hs l
  | forCondition l => cases h1; exact follows_whileHolds r hs fun t ht => follows_forRun ha ht l
  | forBody l => cases h1; exact follows_afterBody r hs (follows_forAdvance ha hs l)
  | forStep l => cases h1; exact follows_forNext ha hs l
  | eachRange spec d range body inSwitch =>
    cases h1; exact follows_eachBegin ha hs spec d range body inSwitch r
  | eachIterable spec d range body inSwitch =>
    cases h1; exact follows_eachElement ha hs spec d range body inSwitch r
  | eachBody l =>
    cases h1
    refine .bind (local_popScope hs) fun _ t ht => ?_
    exact follows_afterBody r ht (follows_eachNext ha ht l)
  | _ => cases h1

/-- A frame goes on as the footing below it allows. -/
theorem mirrors_resumeFrame {f : Frame j k} (hf : f.Rests E top b) (ht : top.Allows s)
    (r : j.Result) :
    E.Mirrors E.progress s (resumeFrame f r) (resumeFrame (f.under E.outer.length) r)
      (Progress.At E b) := by
  cases f with
  | endCall entry depth =>
    obtain ⟨-, rfl, n, h⟩ := hf
    exact mirrors_endCall entry r (Footing.above_of_allows h ht)
  | leave node previous =>
    exact .bind (local_setCursor _) fun _ t hk => .pure rfl ((hf.2.2.of_covered ht).keeps hk)
  | items rest => exact follows_runItems hf.1 (hf.2.1 rfl) (hf.2.2.of_covered ht) rest
  | rightOperand | operate | logical | truth | assign | unary | choose | callee | argument
  | member | cast | size | exitStatus | fill | convert | arrayFrom | single | storeFirst
  | openBound => exact follows_resumeOperand rfl hf.1 (hf.2.2.of_covered ht) r
  | defaultArgument | bind | discard | caseLabel | switchStatement | returns =>
    exact follows_resumeFlat rfl hf.1 hf.2.1 (hf.2.2.of_covered ht) r
  | block | popScope | ifThen | switch | endSwitch | whileCondition | whileBody | doBody
  | doCondition | forInit | forCondition | forBody | forStep | eachRange | eachIterable
  | eachBody => exact follows_resumeScoped rfl hf.1 (Footing.above_of_allows hf.2.2 ht) r

/-- A fault leaves the calls that it passes, at depths that moved with the callers. -/
theorem mirrors_unwind {α : Type} {lift : α → α} {Q : α → State → Prop} {path : Frames j k}
    (hp : path.Leads E top b) (fault : Fault) :
    E.Mirrors lift s (unwind path fault) (unwind (path.under E.outer.length) fault) Q := by
  induction hp generalizing s fault with
  | nil => exact .throw
  | @cons _ _ _ _ _ _ f fs hf _ ih =>
    cases f with
    | endCall entry depth =>
      obtain ⟨-, rfl, -⟩ := hf
      exact .bind (mirrors_leaveScopes (Nat.succ_pos _)) fun _ _ _ => ih fault
    | leave node previous => exact ih _
    | _ => exact ih fault

/-- Only the node of a fault changes on its way out. -/
theorem rethrows_unwind {α : Type} (path : Frames j k) (fault : Fault) :
    (unwind path fault : RunM α).Rethrows fault := by
  induction path generalizing fault with
  | nil => exact fun _ s => ⟨fault, s, rfl, rfl⟩
  | cons f fs ih =>
    cases f with
    | endCall entry depth => exact fun c s => ih fault c _
    | leave node previous => exact ih (fault.orAt (some node))
    | _ => exact ih fault

theorem mirrors_within {path : Frames j k} {x y : RunM (Progress j)}
    {f g : j.Result → RunM (Progress k)} (hp : path.Leads E top b)
    (hx : E.Mirrors E.progress s x y (Progress.At E top))
    (hf : ∀ r t, top.Allows t → E.Mirrors E.progress t (f r) (g r) (Progress.At E b)) :
    E.Mirrors E.progress s (within path x f) (within (path.under E.outer.length) y g)
      (Progress.At E b) := by
  refine .outcome_bind hx (fun p t ht => ?_) (fun fault t => mirrors_unwind hp fault)
    fun fault => rethrows_unwind path fault
  cases p with
  | done r => exact hf r t ht
  | paused p inner =>
    obtain ⟨c, hc, hinner⟩ := ht
    refine .pure ?_ ⟨c, hc, hinner.append hp⟩
    simp only [progress, Progress.under, Frames.under_append]

theorem mirrors_resumeFrames {path : Frames j k} (hp : path.Leads E top b) (ht : top.Allows s)
    (r : j.Result) :
    E.Mirrors E.progress s (resumeFrames path r) (resumeFrames (path.under E.outer.length) r)
      (Progress.At E b) := by
  induction hp generalizing s with
  | nil h => exact .pure rfl (h.of_covered ht)
  | cons hf hfs ih =>
    exact mirrors_within hfs (mirrors_resumeFrame hf ht r) fun r t ht => ih ht r

/-- A step from a balanced path does the same in other surroundings, and what it leads to is
balanced. -/
theorem mirrors_step {p : Pause j} {path : Frames j k} (hp : (Progress.paused p path).At E b s) :
    E.Mirrors E.progress s (step p path) (step p (path.under E.outer.length))
      (Progress.At E b) := by
  obtain ⟨top, hs, hpath⟩ := hp
  exact mirrors_within hpath (follows_resumePause hs) fun r t ht => mirrors_resumeFrames hpath ht r

end Surroundings

end Stepwise

/-! ## Driven computations in other surroundings

A part of a run that keeps to a footing does so however it is driven, and does the same in
other surroundings.
-/

namespace Stepwise

open RunM

variable {E : Surroundings} {s : State} {b : Footing} {k : Completion}

/-- The footing of a pause does not depend on the console. -/
theorem Progress.At.onConsole {p : Progress k} (h : p.At E b s) (f : Console → Console) :
    p.At E b (s.onConsole f) := by
  cases p with
  | done r => exact Footing.Allows.keeps h (.of_eq rfl rfl)
  | paused p path =>
    obtain ⟨top, hp, hpath⟩ := h
    refine ⟨top, ⟨hp.admits, hp.declares, hp.allows.keeps (.of_eq ?_ ?_)⟩, hpath⟩
    · unfold Pause.entered
      split <;> rfl
    · unfold Pause.entered
      split <;> rfl

namespace Surroundings

/-- However it is driven, a part of a run keeps to its footing. -/
theorem mirrors_drive (fs : List (Console → Console)) {p : Progress k} (hp : p.At E b s) :
    E.Mirrors E.progress s (drive fs p) (drive fs (E.progress p)) (Progress.At E b) := by
  induction fs generalizing s p with
  | nil => exact .pure rfl hp
  | cons f fs ih =>
    cases p with
    | done r => exact .pure rfl hp
    | paused p path =>
      refine .bind (.modify (Q := fun _ t => t = s.onConsole f) rfl rfl) fun _ t ht => ?_
      rw [ht]
      exact .bind_lift (mirrors_step (hp.onConsole f)) fun p t hp => ih hp

theorem follows_driven {x : RunM (Progress k)} (hx : E.Follows b s x)
    (fs : List (Console → Console)) : E.Follows b s (x >>= drive fs) :=
  .bind_lift hx fun _ _ hp => mirrors_drive fs hp

end Surroundings

end Stepwise
