import Stepwise.Proofs.Confinement.Computations
import Stepwise.Proofs.Session.Evolution

/-! # Runs pass hidden blocks by

Statements, frames and steps go on from values in reach, so whatever waits afterwards is in reach
again. Blocks that are hidden from a run therefore stay hidden, and their cells stay as they are,
however long the host drives it.
-/

namespace Stepwise

namespace RunM

variable {H : Set BlockId} {s : State} {j k : Completion}

section Statements

theorem confined_leaveScope (hs : s.Hides H) {flow : Flow} (hf : flow.Within (s.reach H)) :
    (leaveScope flow).Confined H s :=
  .bind (passesBy_popScope hs) fun _ _ hp _ => .ends hp.hides (hf.mono hp.reach)

theorem confined_runBlock (hs : s.Hides H) (inSwitch : Bool) (body : List Stmt) :
    (runBlock inSwitch body).Confined H s := by
  cases body with
  | nil => exact confined_leaveScope hs trivial
  | cons st rest => exact .visitStmt hs st inSwitch ⟨trivial, trivial⟩

theorem confined_runBranch (hs : s.Hides H) (thenBranch : Stmt) (elseBranch : Option Stmt)
    (inSwitch : Bool) (v : Value) : (runBranch thenBranch elseBranch inSwitch v).Confined H s := by
  refine .bind (passesBy_holds hs v) fun holds t hp _ => ?_
  split
  · exact .visitStmt hp.hides _ inSwitch ⟨trivial, trivial⟩
  · exact .visitStmt hp.hides _ inSwitch ⟨trivial, trivial⟩
  · exact confined_leaveScope hp.hides trivial

theorem confined_walkSwitch (hs : s.Hides H) {discriminant : Value}
    (hd : discriminant.Within (s.reach H)) (running : Bool) (body : List Stmt) :
    (walkSwitch discriminant running body).Confined H s := by
  have hpaused {x : RunM Unit} (hx : x.PassesBy H s fun _ _ => True) {j : Completion} {p : Pause j}
      {path : Frames j .flow} (hp : ∀ R, discriminant.Within R → p.Within R ∧ path.Within R) :
      (do x; return .paused p path : RunM (Progress .flow)).Confined H s :=
    .bind hx fun _ _ hpasses _ => .pure hpasses.hides (hp _ (hd.mono hpasses.reach))
  induction body with
  | nil => exact .normal hs
  | cons st rest ih =>
    cases st with
    | caseLabel span value =>
      exact hpaused (passesBy_setCursor hs _) fun _ hd => ⟨trivial, hd, trivial⟩
    | defaultLabel span => exact hpaused (passesBy_setCursor hs _) fun _ hd => ⟨hd, trivial⟩
    | _ => exact .ite (.visitStmt hs _ true ⟨hd, trivial⟩) ih

theorem passesBy_labelMatches (hs : s.Hides H) {discriminant label : Value}
    (hd : discriminant.Within (s.reach H)) (hl : label.Within (s.reach H)) :
    (labelMatches discriminant label).PassesBy H s fun _ _ => True := by
  refine .bind (passesBy_convert hs hd.toLies _ _) fun v t hp hv => ?_
  refine .bind (passesBy_apply hp.hides hv fun w hw => ?_) fun _ u hu _ => .pure hu.hides trivial
  cases hw
  exact hl.mono hp.reach

theorem confined_passLabel (hs : s.Hides H) {b : SwitchBody} (hb : b.discriminant.Within (s.reach H))
    {label : Value} (hl : label.Within (s.reach H)) : (passLabel b label).Confined H s := by
  unfold passLabel
  extract_lets rest
  have hrest (running : Bool) {t : State} (hp : s.PassesBy H t) : (rest running).Confined H t :=
    confined_walkSwitch hp.hides (hb.mono hp.reach) _ _
  refine .ite (hrest _ (.refl hs)) ?_
  exact .bind (passesBy_labelMatches hs hb hl) fun running _ hp _ => hrest running hp

theorem confined_endSwitch (hs : s.Hides H) {flow : Flow} (hf : flow.Within (s.reach H)) :
    (endSwitch flow).Confined H s := by
  refine confined_leaveScope hs ?_
  cases flow with
  | returns v => exact hf
  | _ => trivial

theorem confined_enterSwitch (hs : s.Hides H) (body : Stmt) {discriminant : Value}
    (hd : discriminant.Within (s.reach H)) : (enterSwitch body discriminant).Confined H s := by
  have hone (st : Stmt) : (do (← walkSwitch discriminant false [st]).andThen .endSwitch endSwitch :
      RunM (Progress .flow)).Confined H s := by
    refine .bind (confined_walkSwitch hs hd false [st]) fun p t hp hpw => ?_
    have hframe : (Frame.endSwitch).Within (t.reach H) := trivial
    exact .andThen hp.hides hpw hframe fun _ hf => confined_endSwitch hp.hides hf
  cases body with
  | compound span statements =>
    exact .bind (passesBy_setCursor hs _) fun _ _ hp _ =>
      .pure hp.hides ⟨hd.mono hp.reach, trivial, trivial, trivial⟩
  | _ => exact hone _

theorem confined_whileHolds (hs : s.Hides H) (v : Value) {next : RunM (Progress .flow)}
    (hn : ∀ t, s.PassesBy H t → next.Confined H t) : (whileHolds v next).Confined H s :=
  .bind (passesBy_holds hs v) fun _ t hp _ =>
    .ite (hn t hp) (confined_leaveScope hp.hides trivial)

theorem confined_afterBody (hs : s.Hides H) {flow : Flow} (hf : flow.Within (s.reach H))
    {next : RunM (Progress .flow)} (hn : next.Confined H s) : (afterBody flow next).Confined H s := by
  cases flow with
  | normal | continues => exact hn
  | breaks => exact confined_leaveScope hs trivial
  | returns v => exact confined_leaveScope hs hf

theorem confined_forNext (hs : s.Hides H) (l : ForLoop) : (forNext l).Confined H s := by
  unfold forNext
  split
  · exact .visit hs _ none ⟨trivial, trivial⟩
  · exact .visitStmt hs _ _ ⟨trivial, trivial⟩

theorem confined_forAdvance (hs : s.Hides H) (l : ForLoop) : (forAdvance l).Confined H s := by
  unfold forAdvance
  split
  · exact .visit hs _ none ⟨trivial, trivial⟩
  · exact confined_forNext hs l

theorem passesBy_bindElement (hs : s.Hides H) (spec : TypeSpec) (d : Declarator) {element : Value}
    (he : element.Within (s.reach H)) : (bindElement spec d element).PassesBy H s fun _ _ => True := by
  have hrest (base : Ty) : (do
      let declared ← ask (ReadM.declarator base spec.isConst d)
      let name ← nameOf declared "loop variable"
      if declared.reference then bindReference name declared element
      else
        defineVariable name
          ((← operate (OperatorM.copy element declared.type)).withReadonly declared.readonly)
      : RunM Unit).PassesBy H s fun _ _ => True :=
    .ask_bind fun d => .nameOf_bind fun name => passesBy_bindDeclared hs name d he
  exact .ite (hrest _) (.ask_bind hrest)

theorem confined_eachNext (hs : s.Hides H) {l : EachLoop}
    (hl : ∀ p ∈ l.places, p.block ∈ s.reach H) : (eachNext l).Confined H s := by
  have hend : (leaveScope .normal).Confined H s := confined_leaveScope hs trivial
  unfold eachNext
  split
  · exact hend
  · rename_i p rest hplaces
    rw [hplaces] at hl
    obtain ⟨hfirst, hrest⟩ := List.forall_mem_cons.mp hl
    refine .inspect_bind ?_
    split
    · exact hend
    · rename_i element helement
      have he := hs.load? hfirst helement
      refine .ite hend (.bind (passesBy_pushScope hs _) fun _ t hp _ => ?_)
      refine .bind (passesBy_bindElement hp.hides _ _ (he.mono hp.reach)) fun _ u hu _ => ?_
      have hreach := (hp.trans hu).reach
      have hframe : (Frame.eachBody { l with places := rest }).Within (u.reach H) :=
        fun p hm => hreach (hrest p hm)
      exact .visitStmt hu.hides _ _ (.one hframe)

theorem confined_notIterable (range : Expr) (v : Value) :
    (notIterable range v : RunM (Progress .flow)).Confined H s := by
  unfold notIterable
  split
  · exact .fail _
  · exact .fail_text _ _

theorem confined_eachElement (hs : s.Hides H) (spec : TypeSpec) (d : Declarator) (range : Expr)
    (body : Stmt) (inSwitch : Bool) {v : Value} (hv : v.Lies (s.reach H)) :
    (eachElement spec d range body inSwitch v).Confined H s := by
  unfold eachElement
  split
  · exact confined_notIterable range v
  · refine .inspect_bind (confined_eachNext hs fun p hp => ?_)
    obtain ⟨i, -, rfl⟩ := List.mem_map.mp hp
    exact hv.array? ‹_›

theorem confined_eachBegin (hs : s.Hides H) (spec : TypeSpec) (d : Declarator) (range : Expr)
    (body : Stmt) (inSwitch : Bool) {v : Value} (hv : v.Within (s.reach H)) :
    (eachBegin spec d range body inSwitch v).Confined H s := by
  unfold eachBegin
  split
  · refine .get_bind (.ite ?_ (confined_notIterable range v))
    refine .bind (delivers_member hs hv _) fun method t hp hm => ?_
    refine .bind (confined_call hp.hides hm.toLies (List.forall_mem_nil _)) fun p u hu hpw => ?_
    have hframe : (Frame.eachIterable spec d range body inSwitch).Within (u.reach H) := trivial
    exact .andThen hu.hides hpw hframe fun w hw =>
      confined_eachElement hu.hides spec d range body inSwitch (Value.Within.toLies hw)
  · exact confined_eachElement hs spec d range body inSwitch hv.toLies

theorem confined_execute (hs : s.Hides H) (st : Stmt) (inSwitch : Bool) :
    (execute st inSwitch).Confined H s := by
  have hdone {x : RunM Unit} (hx : x.PassesBy H s fun _ _ => True) :
      (do x; return .done .normal : RunM (Progress .flow)).Confined H s :=
    .bind hx fun _ _ hp _ => .normal hp.hides
  cases st with
  | declaration _ decl => exact confined_declaration hs decl
  | function _ f => exact hdone (passesBy_defineFunction hs f _)
  | struct _ name fields methods => exact hdone (passesBy_defineStructType hs name fields methods)
  | typedef _ decl => exact hdone (.beside hs (beside_defineTypedefs decl))
  | usingDirective _ path =>
    refine hdone (passesBy_onNamespaces hs fun n P hn n' h => ?_)
    unfold Namespaces.use at h
    dsimp only at h
    split at h
    · cases h
    · split at h <;> cases h <;> exact hn
  | usingDeclaration => exact .fail _
  | namespaceDef => exact .fail _
  | namespaceAlias _ name target =>
    refine hdone (passesBy_onNamespaces hs fun n P hn n' h => ?_)
    unfold Namespaces.addAlias at h
    dsimp only at h
    split at h <;> cases h
    exact hn
  | compound _ body =>
    exact .bind (passesBy_pushScope hs _) fun _ _ hp _ => confined_runBlock hp.hides inSwitch body
  | expression _ e =>
    cases e with
    | some e => exact .visit hs e none ⟨trivial, trivial⟩
    | none => exact .normal hs
  | label => exact .normal hs
  | ifThen | switch | whileLoop | forEach =>
    exact .bind (passesBy_pushScope hs _) fun _ _ hp _ => .visit hp.hides _ none ⟨trivial, trivial⟩
  | caseLabel => exact .fail _
  | defaultLabel => exact .fail _
  | doWhile _ body condition =>
    exact .bind (passesBy_pushScope hs _) fun _ _ hp _ =>
      .visitStmt hp.hides body inSwitch ⟨trivial, trivial⟩
  | forLoop _ init condition step body =>
    refine .bind (passesBy_pushScope hs _) fun _ t hp _ => ?_
    cases init with
    | some s => exact .visitStmt hp.hides s inSwitch ⟨trivial, trivial⟩
    | none => exact confined_forNext hp.hides _
  | breakJump => exact .ends hs trivial
  | continueJump => exact .ends hs trivial
  | returnJump _ e =>
    cases e with
    | some e => exact .visit hs e none ⟨trivial, trivial⟩
    | none => exact .ends hs trivial
  | gotoJump => exact .fail _

end Statements

section Program

theorem confined_runItems (hs : s.Hides H) (items : List Stmt) : (runItems items).Confined H s := by
  cases items with
  | nil =>
    refine .get_bind (.bind (delivers_named hs (fun _ hv => within_value? hs hv) _) fun main t hp hm => ?_)
    refine .bind (confined_call hp.hides hm.toLies (List.forall_mem_nil _)) fun p u hu hpw => ?_
    have hframe : (Frame.exitStatus).Within (u.reach H) := trivial
    exact .andThen hu.hides hpw hframe fun v hv =>
      .answer (delivers_exitStatus hu.hides (Value.Within.toLies hv))
  | cons st rest => exact .visitStmt hs st false ⟨trivial, trivial⟩

theorem passesBy_loadLibrary (hs : s.Hides H) (name : String) :
    (loadLibrary name).PassesBy H s fun _ _ => True := by
  refine .read_bind fun c => ?_
  split
  · exact .fail _
  · rename_i library _
    refine .get_bind (.ite (.pure hs trivial) ?_)
    refine .bind (passesBy_modify (.beside hs ⟨rfl, rfl, rfl⟩)) fun _ t hp _ => ?_
    cases library
    refine .bind (.beside hp.hides (.modify fun _ => ⟨rfl, rfl, rfl⟩)) fun _ u hu _ => ?_
    refine .bind (passesBy_forM hu.hides fun f _ w hw => ?_) fun _ w hw _ =>
      .beside hw.hides (.modify fun _ => ⟨rfl, rfl, rfl⟩)
    refine .beside_bind hw.hides (beside_register _) fun _ x hx _ => ?_
    refine .bind (passesBy_defineFunctionName hx.hides _ _) fun _ y hy _ => .get_bind ?_
    split
    · exact .fail _
    · refine passesBy_modify (.onNamespaces hy.hides (hy.names.namespaces.bind ?_ _))
      exact hy.names.scopes.get? List.mem_cons_self ‹_›

theorem confined_begin (hs : s.Hides H) (p : Program) : (begin p).Confined H s := by
  refine .read_bind fun c => .bind (passesBy_forIn hs fun name _ t ht => ?_) fun _ t hp _ =>
    confined_runItems hp.hides p.items
  exact .bind (passesBy_loadLibrary ht.hides name) fun _ _ hu _ => .pure hu.hides rfl

/-- Whatever goes on from a pause. -/
theorem confined_resumePause (hs : s.Hides H) {p : Pause j} (hp : p.Within (s.reach H)) :
    (resumePause p).Confined H s := by
  cases p with
  | start p => exact confined_begin hs p
  | expr e hint => exact confined_evaluate hs e hint
  | stmt st inSwitch => exact confined_execute hs st inSwitch
  | label value => exact .visit hs value none trivial
  | switch b opens =>
    have hd : b.discriminant.Within (s.reach H) := hp
    cases opens with
    | false => exact confined_walkSwitch hs hd _ _
    | true =>
      exact .bind (passesBy_pushScope hs _) fun _ _ hp _ =>
        confined_walkSwitch hp.hides (hd.mono hp.reach) _ _
  | input => exact confined_readCharacter hs

/-- What a frame goes on with, given a result. -/
theorem confined_resumeFrame (hs : s.Hides H) {f : Frame j k} (hf : f.Within (s.reach H))
    {r : j.Result} (hr : j.Within (s.reach H) r) : (resumeFrame f r).Confined H s := by
  cases f with
  | leave node previous =>
    exact .bind (passesBy_setCursor hs _) fun _ t hp _ => .done hp.hides (by
      cases j with
      | value => exact Value.Within.mono hr hp.reach
      | flow => exact Flow.Within.mono hr hp.reach)
  | rightOperand op right hint => exact .visit hs right hint ⟨hr, trivial⟩
  | operate op l => exact confined_applyTo hs op hf hr
  | logical op right hint => exact confined_decideLogical hs op right hint r
  | truth => exact .bind (passesBy_holds hs r) fun _ _ hp _ => .done hp.hides (Value.within_bool _)
  | assign op value => exact .inspect_bind (.visit hs value _ ⟨hr, trivial⟩)
  | unary op => exact confined_applyUnary hs op hr
  | choose thenExpr elseExpr hint =>
    exact .bind (passesBy_holds hs r) fun _ _ hp _ => .visit hp.hides _ hint trivial
  | callee args hint => exact confined_nextArgument hs hr (List.forall_mem_nil _) hint args
  | argument f values rest hint =>
    exact confined_nextArgument hs hf.1 (List.forall_mem_cons.mpr ⟨hr, hf.2⟩) hint rest
  | member name throughPointer => exact confined_memberOf hs hr name throughPointer
  | cast ty => exact .answer (passesBy_convert hs (Value.Within.toLies hr) _ _)
  | size => exact confined_sizeValue hs _
  | defaultArgument entry body name param rest =>
    exact confined_takeDefault entry body hs name param rest (Value.Within.toLies hr)
  | endCall entry depth => exact confined_endCall hs entry depth hr
  | exitStatus => exact .answer (delivers_exitStatus hs (Value.Within.toLies hr))
  | fill f => exact confined_resumeFilling hs hf (Value.Within.toLies hr)
  | convert ty readonly => exact confined_make hs (Value.Within.toLies hr)
  | arrayFrom ty readonly => exact confined_makeArrayFrom hs (Value.Within.toLies hr) ty readonly
  | single ty readonly => exact confined_makeSingle hs (Value.Within.toLies hr) ty readonly
  | storeFirst v readonly => exact confined_storeFirst hs hf.1 readonly hf.2 hr
  | openBound element readonly => exact confined_makeOpen hs (Value.Within.toLies hr) element readonly
  | bind binding spec rest =>
    exact .bind (passesBy_bind hs binding hr) fun _ _ hp _ => confined_declareAll hp.hides spec rest
  | discard => exact .normal hs
  | block rest inSwitch =>
    exact .ite (confined_runBlock hs inSwitch rest) (confined_leaveScope hs hr)
  | popScope => exact confined_leaveScope hs hr
  | ifThen thenBranch elseBranch inSwitch => exact confined_runBranch hs thenBranch elseBranch inSwitch r
  | switch body => exact confined_enterSwitch hs body hr
  | caseLabel b => exact confined_passLabel hs hf hr
  | switchStatement b => exact .ite (confined_walkSwitch hs hf _ _) (.ends hs hr)
  | endSwitch => exact confined_endSwitch hs hr
  | whileCondition condition body inSwitch | doCondition condition body inSwitch =>
    exact confined_whileHolds hs r fun _ hp => .visitStmt hp.hides body inSwitch ⟨trivial, trivial⟩
  | whileBody condition body inSwitch | doBody condition body inSwitch =>
    exact confined_afterBody hs hr (.visit hs condition none ⟨trivial, trivial⟩)
  | forInit l | forStep l => exact confined_forNext hs l
  | forCondition l =>
    exact confined_whileHolds hs r fun _ hp => .visitStmt hp.hides _ _ ⟨trivial, trivial⟩
  | forBody l => exact confined_afterBody hs hr (confined_forAdvance hs l)
  | eachRange spec d range body inSwitch => exact confined_eachBegin hs spec d range body inSwitch hr
  | eachIterable spec d range body inSwitch =>
    exact confined_eachElement hs spec d range body inSwitch (Value.Within.toLies hr)
  | eachBody l =>
    refine .bind (passesBy_popScope hs) fun _ t hp _ => ?_
    exact confined_afterBody hp.hides (Flow.Within.mono hr hp.reach)
      (confined_eachNext hp.hides fun p hm => hp.reach (hf p hm))
  | returns => exact .ends hs hr
  | items rest => exact confined_runItems hs rest

/-- Results are handed out through frames. -/
theorem confined_within {path : Frames j k} (hpath : path.Within (s.reach H))
    {x : RunM (Progress j)} (hx : x.Confined H s) :
    (within path x (resumeFrames path)).Confined H s := by
  induction path generalizing s with
  | nil => rwa [within_nil]
  | cons frame rest ih =>
    intro c q t h
    rcases within_eq_ok h with ⟨r, u, hu, hr⟩ | ⟨i, p, inner, hp, rfl⟩
    · obtain ⟨hpasses, hresult⟩ := hx c _ u hu
      have hrest := hpath.mono hpasses.reach
      have hframe := confined_resumeFrame hpasses.hides hrest.1 hresult
      exact (ih hrest.2 hframe c q t hr).imp_left hpasses.trans
    · obtain ⟨hpasses, hpaused⟩ := hx c _ t hp
      exact ⟨hpasses, hpaused.1, hpaused.2.append (hpath.mono hpasses.reach)⟩

theorem confined_step (hs : s.Hides H) {p : Pause j} (hp : p.Within (s.reach H)) {path : Frames j k}
    (hpath : path.Within (s.reach H)) : (step p path).Confined H s :=
  confined_within hpath (confined_resumePause hs hp)

/-- However it is driven, a suspended computation passes hidden blocks by. -/
theorem confined_drive (hs : s.Hides H) (fs : List (Console → Console)) {p : Progress k}
    (hp : p.Within (s.reach H)) : (drive fs p).Confined H s := by
  induction fs generalizing s p with
  | nil => exact .pure hs hp
  | cons f fs ih =>
    cases p with
    | done r => exact .pure hs hp
    | paused q path =>
      have hconsole : s.PassesBy H (s.onConsole f) := .beside hs ⟨rfl, rfl, rfl⟩
      refine .bind (passesBy_modify hconsole) fun _ t ht _ => ?_
      have hstep := confined_step ht.hides (hp.1.mono ht.reach) (hp.2.mono ht.reach)
      exact .bind hstep fun p u hu hpw => ih hu.hides hpw

/-- What completes has passed hidden blocks by. -/
theorem Confined.completes {x : RunM (Progress k)} (hx : x.Confined H s) {c : Config}
    {r : k.Result} {t : State} (h : x.Completes c s r t) :
    s.PassesBy H t ∧ k.Within (t.reach H) r := by
  obtain ⟨fs, hd⟩ := h
  exact (PassesBy.bind hx fun p u hu hp => confined_drive hu.hides fs hp) c _ t hd

end Program

end RunM

namespace Run

variable {H : Set BlockId}

/-- Blocks are hidden from the run: neither its state nor what it waits with leads to them. -/
structure Hides (H : Set BlockId) (r : Run) : Prop where
  state : r.state.Hides H
  rest : match r.rest with
    | .suspended p path => p.Within (r.state.reach H) ∧ path.Within (r.state.reach H)
    | .ended _ => True

def isFaulted (r : Run) : Bool :=
  match r.rest with
  | .ended (.error _) => true
  | _ => false

/-- Nothing leads out of the heap in a run that has not begun. -/
theorem hides_ofProgram (config : Config) (p : Program) (console : Console) (files : FileSystem) :
    (ofProgram config p console files).Hides ∅ := by
  have hcells (b : BlockId) : (⟨#[]⟩ : Heap).cells b = #[] := rfl
  have hempty {P : Value → Prop} (b : BlockId) (v : Value) (hv : v ∈ (⟨#[]⟩ : Heap).cells b) : P v :=
    absurd hv (hcells b ▸ Array.not_mem_empty v)
  refine ⟨⟨⟨⟨fun b hb => hb.elim, fun b _ => hempty b⟩, hempty, ⟨fun b => ⟨b, ?_⟩⟩⟩, ⟨?_, ?_⟩⟩,
    trivial, trivial⟩
  · rintro s ⟨cell, hcell, -⟩
    exact absurd hcell (hcells b ▸ Array.not_mem_empty cell)
  · exact List.forall_mem_singleton.mpr (List.forall_mem_nil _)
  · exact List.forall_mem_nil _

/-- A step passes by what is hidden from the run, unless it ends with a fault. -/
theorem passesBy_step {r : Run} (hr : r.Hides H) : r.step.2.isFaulted = true ∨
    r.state.PassesBy H r.step.2.state ∧ r.step.2.Hides H := by
  obtain ⟨config, s, rest⟩ := r
  obtain ⟨hs, hrest⟩ := hr
  cases rest with
  | ended result => exact .inr ⟨.refl hs, hs, trivial⟩
  | suspended p path =>
    cases h : RunM.step p path config s with
    | error fault t =>
      rw [step_fault h]
      exact .inl rfl
    | ok progress t =>
      obtain ⟨hp, hwithin⟩ := RunM.confined_step hs hrest.1 hrest.2 config progress t h
      cases progress with
      | done v =>
        rw [step_done h]
        exact .inr ⟨hp, hp.hides, trivial⟩
      | paused q inner =>
        rw [step_paused h]
        exact .inr ⟨hp, hp.hides, hwithin⟩

/-- A fault ends a run for good. -/
theorem isFaulted_play (moves : List HostMove) {r : Run} (hr : r.isFaulted = true) :
    (r.play moves).isFaulted = true := by
  induction moves generalizing r with
  | nil => exact hr
  | cons move moves ih =>
    refine ih ?_
    obtain ⟨config, s, rest⟩ := r
    cases rest with
    | suspended => cases hr
    | ended result => cases move <;> exact hr

/-- Whatever the host does, blocks that are hidden from a run stay hidden, and their cells stay as
they are, unless it ends with a fault. -/
theorem passesBy_play (moves : List HostMove) {r : Run} (hr : r.Hides H) :
    (r.play moves).isFaulted = true ∨
      r.state.PassesBy H (r.play moves).state ∧ (r.play moves).Hides H := by
  induction moves generalizing r with
  | nil => exact .inr ⟨.refl hr.state, hr⟩
  | cons move moves ih =>
    have hmove : (move.perform r).isFaulted = true ∨
        r.state.PassesBy H (move.perform r).state ∧ (move.perform r).Hides H := by
      have hconsole (f : Console → Console) : r.state.PassesBy H (r.onConsole f).state ∧
          (r.onConsole f).Hides H := by
        have hp : r.state.PassesBy H (r.onConsole f).state := .beside hr.state ⟨rfl, rfl, rfl⟩
        exact ⟨hp, hp.hides, hr.rest⟩
      cases move with
      | step => exact passesBy_step hr
      | feed text => exact .inr (hconsole _)
      | close => exact .inr (hconsole _)
    rcases hmove with hfault | ⟨hp, hr'⟩
    · exact .inl (isFaulted_play moves hfault)
    · exact (ih hr').imp_right fun ⟨hp', hplay⟩ => ⟨hp.trans hp', hplay⟩

end Run

end Stepwise
