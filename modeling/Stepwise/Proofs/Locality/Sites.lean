import Stepwise.Proofs.Locality.ScopeDiscipline

/-! # Objects where they are created

Initializers are evaluated where an object is created, among the names that are in view there.
All that happens on the way is the same whatever local scopes there are, with the exception
of looking up names right at the place of creation: a function that an initializer calls sees
no local names of its caller.
-/

namespace Stepwise

open RunM

variable {E : Surroundings} {s t : State} {b : Footing} {i j k l : Completion}

/-- The frame belongs to an expression or to an object. -/
def Frame.isInline : Frame j k → Bool
  | .leave .. | .rightOperand .. | .operate .. | .logical .. | .truth | .assign .. | .unary _ => true
  | .choose .. | .callee .. | .argument .. | .member .. | .cast _ | .size => true
  | .fill _ | .convert .. | .arrayFrom .. | .single .. | .storeFirst .. | .openBound .. => true
  | _ => false

/-- The names that the expression itself looks up stand for the same among the local names. -/
def Expr.MeansSame (locals : List (Scope Place)) (s : State) : Expr → Prop
  | .identifier _ name => (s.onCaller locals).lookup name = s.lookup name
  | .cast _ spec target _ | .sizeofType _ spec target => ∀ c,
    ReadM.typeNamed spec target (c, s.onCaller locals) = ReadM.typeNamed spec target (c, s)
  | _ => True

/-- The path goes through expressions and objects only, and through no call. -/
inductive Frames.Inline : {j k : Completion} → Frames j k → Prop
  | nil {k : Completion} : Inline (nil : Frames k k)
  | cons {j k l : Completion} {f : Frame j k} {fs : Frames k l} (hf : f.isInline = true)
    (hfs : fs.Inline) : Inline (cons f fs)

/-- The path goes through a call. -/
def Frames.inCall : {j k : Completion} → Frames j k → Bool
  | _, _, nil => false
  | _, _, cons (.endCall ..) _ => true
  | _, _, cons _ rest => rest.inCall

def Pause.MeansSame (locals : List (Scope Place)) (s : State) : Pause j → Prop
  | .expr e _ => e.MeansSame locals s
  | _ => True

namespace Frames.Inline

theorem inCall {fs : Frames j k} (hf : fs.Inline) : fs.inCall = false := by
  induction hf with
  | nil => rfl
  | @cons j k l f fs hf _ ih =>
    cases f with
    | endCall entry depth => cases hf
    | _ => exact ih

theorem one {f : Frame j k} (hf : f.isInline = true) : (Frames.one f).Inline := .cons hf .nil

theorem append {fs : Frames i j} {gs : Frames j k} (hf : fs.Inline) (hg : gs.Inline) :
    (fs ++ gs).Inline := by
  induction hf with
  | nil => exact hg
  | cons hf _ ih => exact .cons hf (ih hg)

/-- No frame of the path knows how deep it is. -/
theorem under {fs : Frames j k} (hf : fs.Inline) (n : Nat) : fs.under n = fs := by
  induction hf with
  | nil => rfl
  | @cons j k l f fs hf _ ih =>
    rw [under_cons, ih]
    cases f with
    | endCall entry depth => cases hf
    | _ => rfl

/-- A fault passes out without leaving any scope. -/
theorem unwind {α : Type} {fs : Frames j k} (hf : fs.Inline) (fault : Fault) :
    ∃ fault', (unwind fs fault : RunM α) = throw fault' := by
  induction hf generalizing fault with
  | nil => exact ⟨fault, rfl⟩
  | @cons j k l f fs hf _ ih =>
    cases f with
    | endCall entry depth => cases hf
    | leave node previous => exact ih (fault.orAt (some node))
    | _ => exact ih fault

end Frames.Inline

/-- A computation that has ended, is suspended where an object is created, or in a call that was
made there. -/
inductive Progress.Inline (E : Surroundings) : {k : Completion} → Progress k → State → Prop
  | done {k : Completion} {s : State} (r : k.Result) : Inline E (done r) s
  | site {k : Completion} {s : State} (e : Expr) (hint : Option StructTy) {path : Frames .value k}
    (hp : path.Inline) : Inline E (paused (.expr e hint) path) s
  | call {i j k : Completion} {s : State} {b : Footing} {p : Pause i} {inner : Frames i j}
    {path : Frames j k} (hi : (paused p inner).At E b s) (hp : path.Inline) :
    Inline E (paused p (inner ++ path)) s

namespace Progress

theorem At.inline {p : Progress k} (h : p.At E b s) : p.Inline E s := by
  cases p with
  | done r => exact .done r
  | paused p path =>
    have hc : (paused p (path ++ Frames.nil)).Inline E s := .call h .nil
    rwa [Frames.append_nil] at hc

theorem Inline.onConsole {p : Progress k} (h : p.Inline E s) (f : Console → Console) :
    p.Inline E (s.onConsole f) := by
  cases h with
  | done r => exact .done r
  | site e hint hp => exact .site e hint hp
  | call hi hp => exact .call (hi.onConsole f) hp

theorem Inline.append {p : Pause i} {inner : Frames i j} {path : Frames j k}
    (h : (paused p inner).Inline E s) (hp : path.Inline) : (paused p (inner ++ path)).Inline E s := by
  cases h with
  | site e hint hi => exact .site e hint (hi.append hp)
  | call hi hpath =>
    rw [Frames.append_assoc]
    exact .call hi (hpath.append hp)

end Progress

namespace Surroundings

/-- The part of a run does the same in the surroundings, and leaves the place of creation in
calls only. -/
abbrev Inlines (E : Surroundings) (s : State) (x : RunM (Progress k)) : Prop :=
  E.Mirrors E.progress s x x (Progress.Inline E)

theorem inlines_done {r : k.Result} : E.Inlines s (pure (.done r)) := .pure rfl (.done r)

theorem Inlines.of_follows {x : RunM (Progress k)} (h : E.Follows b s x) : E.Inlines s x :=
  h.mono fun _ _ hp => hp.inline

/-- What is suspended goes on in frames of the place of creation. -/
theorem inlines_paused {p : Pause i} {inner : Frames i j} {path : Frames j k}
    (h : (Progress.paused p inner).Inline E s) (hp : path.Inline) :
    E.Mirrors E.progress s (pure (.paused p (inner ++ path)))
      (pure (.paused p (inner.under E.outer.length ++ path))) (Progress.Inline E) := by
  refine .pure ?_ (h.append hp)
  simp only [progress, Progress.under, Frames.under_append, hp.under]

theorem inlines_andThen {p : Progress j} {frame : Frame j k} {f : j.Result → RunM (Progress k)}
    (hp : p.Inline E s) (hr : frame.isInline = true) (hf : ∀ r, E.Inlines s (f r)) :
    E.Mirrors E.progress s (p.andThen frame f) ((E.progress p).andThen frame f)
      (Progress.Inline E) := by
  cases p with
  | done r => exact hf r
  | paused p path => exact inlines_paused hp (.one hr)

theorem inlines_visit (e : Expr) (hint : Option StructTy) {next : Frames .value k}
    (hn : next.Inline) : E.Inlines s (visit e hint next) := by
  refine .get_bind rfl (.bind (local_setCursor _) fun _ t _ => .pure ?_ ?_)
  · simp only [progress, Progress.under, Frames.under_cons, hn.under]
    rfl
  · exact .site e hint (.cons rfl hn)

theorem inlines_operand (e : Expr) (hint : Option StructTy) {frame : Frame .value k}
    (hf : frame.isInline = true) : E.Inlines s (visit e hint (.one frame)) :=
  inlines_visit e hint (.one hf)

section Make

theorem inlines_finish (f : Filling) (made : Array Value) : E.Inlines s (finish f made) :=
  .bind (local_alloc made) fun _ _ _ => inlines_done

section Fill

variable {make : Making → RunM (Progress .value)} (hm : ∀ m t, E.Inlines t (make m))

include hm

theorem inlines_fillDefaults (f : Filling) (count : Nat) (made : Array Value) :
    E.Inlines s (fillDefaults make f count made) := by
  induction count generalizing s made with
  | zero => exact inlines_finish f made
  | succ n ih =>
    refine .bind_lift (hm _ s) fun p t hp => ?_
    cases p with
    | paused p path => exact inlines_paused hp (.one rfl)
    | done v => exact .ite (inlines_finish f _) (ih _)

theorem inlines_fillNext (f : Filling) (next : List Making) (made : Array Value) :
    E.Inlines s (fillNext make f next made) := by
  induction next generalizing s made with
  | nil => exact inlines_fillDefaults hm f f.defaults made
  | cons m rest ih =>
    refine .bind_lift (hm m s) fun p t hp => ?_
    cases p with
    | paused p path => exact inlines_paused hp (.one rfl)
    | done v => exact ih _

theorem inlines_fillArray (ty element : Ty) (size : Nat) (items : List Initializer)
    (readonly : Bool) (hint : Option StructTy) (outermost : Bool) :
    E.Inlines s (fillArray make ty element size items readonly hint outermost) := by
  unfold fillArray
  refine .check .fail ?_
  dsimp only
  split
  · exact inlines_operand _ hint rfl
  · exact inlines_fillNext hm _ _ _

end Fill

theorem inlines_makeWithin (depth : Nat) (m : Making) : E.Inlines s (makeWithin depth m) := by
  induction depth generalizing s m with
  | zero => exact .fail
  | succ depth ih =>
    have hm (m : Making) (t : State) : E.Inlines t (makeWithin depth m) := ih m
    have hfill (f : Filling) (next : List Making) (made : Array Value) :
        E.Inlines s (fillNext (makeWithin depth) f next made) := inlines_fillNext hm f next made
    cases m with
    | default ty readonly =>
      cases ty with
      | arith k => exact inlines_done
      | array element size => exact hfill _ _ _
      | pointer _ _ | functionPointer _ => exact inlines_done
      | struct name fields => exact .inspect_bind rfl (ih _)
      | void => exact inlines_done
      | function _ | marker => exact .fail
    | initial ty init readonly hint =>
      cases init with
      | expr e =>
        simp only [makeWithin]
        refine .ite (inlines_operand e hint rfl) ?_
        exact .inspect_bind rfl (inlines_operand e _ rfl)
      | list span items =>
        simp only [makeWithin]
        split
        · exact inlines_fillArray hm _ _ _ _ _ _ _
        · exact .inspect_bind rfl (ih _)
        · exact ih _
        · exact ih _
        · exact .fail
        · exact .fail
    | row ty items readonly hint =>
      cases ty with
      | array element size => exact inlines_fillArray hm _ _ _ _ _ _ _
      | _ => exact .fail
    | struct d items readonly hint =>
      simp only [makeWithin]
      exact .check .fail (hfill _ _ _)
    | copy ty v readonly =>
      exact .bind (local_operate (OperatorM.closed_conservative.copy v ty)) fun _ _ _ => inlines_done
    | arrayOf ty v readonly =>
      cases ty with
      | array element size =>
        refine .query_bind (local_elementsFrom v) fun source => .check .fail ?_
        exact hfill _ _ _
      | _ => exact .fail
    | nested => exact .fail

theorem inlines_make (m : Making) : E.Inlines s (make m) :=
  .inspect_bind rfl (inlines_makeWithin _ m)

theorem inlines_makeArrayFrom (ty : Ty) (readonly : Bool) (v : Value) :
    E.Inlines s (makeArrayFrom ty readonly v) :=
  .ite (.query_bind (local_text v) fun _ => .fail_bind) (inlines_make _)

theorem inlines_makeOpen (element : Ty) (readonly : Bool) (v : Value) :
    E.Inlines s (makeOpen element readonly v) :=
  .query_bind (local_elementsFrom v) fun _ => inlines_make _

theorem inlines_storeFirst (v : Value) (readonly : Bool) (array : Value) :
    E.Inlines s (storeFirst v readonly array) :=
  .bind (local_storeIntoFirst v readonly array.ty array) fun _ _ _ => inlines_done

theorem inlines_makeSingle (ty : Ty) (readonly : Bool) (v : Value) :
    E.Inlines s (makeSingle ty readonly v) := by
  cases ty with
  | array element size =>
    refine .ite ?_ (.ite ?_ (.query_bind (local_text v) fun _ => .fail))
    · exact inlines_fillNext (fun m _ => inlines_make m) _ _ _
    · refine .bind_lift (inlines_make _) fun p t hp => ?_
      exact inlines_andThen hp rfl fun r => inlines_storeFirst v readonly r
  | _ => exact .fail

end Make

theorem config_of_not_wraps (hw : E.wraps = false) (c : Config) : E.config c = c := by
  rw [config, hw, Numerics.wrapping_false]

/-- A question with the same answer in the surroundings. -/
theorem local_ask_of_eq {α : Type} {x : ReadM α} (hx : ∀ c, x (E.config c, E.state s) = x (c, s)) :
    E.Local s (ask x) fun _ t => t = s := by
  intro c
  simp only [ask, hx c]
  cases x (c, s) with
  | ok a => exact ⟨rfl, rfl⟩
  | error f => exact .inr rfl

section Frames

theorem inlines_sizeValue (ty : Ty) : E.Inlines s (sizeValue ty) := by
  refine .query_bind (local_ask_of_eq fun c => ?_) fun _ => inlines_done
  have hlimits : (E.config c).limits = c.limits := rfl
  have hread (f : Config × State → ReadM Nat) (p : Config × State) :
      (read >>= f : ReadM Nat) p = f p p := rfl
  rw [ReadM.byteSize, hread, hread, hlimits]
  cases ty.size? c.limits <;> rfl

theorem inlines_decideLogical (op : LogicalOp) (right : Expr) (hint : Option StructTy)
    (l : Value) : E.Inlines s (decideLogical op right hint l) := by
  refine .bind (local_operate (OperatorM.closed_conservative.condition l)) fun holds t _ => ?_
  cases op <;> cases holds
  · exact inlines_done
  · exact inlines_operand right hint rfl
  · exact inlines_operand right hint rfl
  · exact inlines_done

theorem inlines_nextArgument (f : Value) (values : List Value) (hint : Option StructTy)
    (args : List Expr) : E.Inlines s (nextArgument f values hint args) := by
  cases args with
  | nil => exact .of_follows (follows_call (Footing.allows_start ⟨s, false⟩) f _)
  | cons e rest => exact inlines_operand e hint rfl

/-- A frame of an expression or an object goes on. -/
theorem inlines_resumeFrame {f : Frame j k} (hf : f.isInline = true) (r : j.Result) :
    E.Inlines s (resumeFrame f r) := by
  have hs : (Footing.mk s false).Allows s := Footing.allows_start ⟨s, false⟩
  have hholds (v : Value) : E.Local s (holds v) fun _ _ => True :=
    (local_operate (OperatorM.closed_conservative.condition v)).mono fun _ _ _ => trivial
  cases f with
  | leave node previous => exact .bind (local_setCursor _) fun _ _ _ => inlines_done
  | rightOperand op right hint => exact inlines_operand right hint rfl
  | operate op l => exact .of_follows (follows_applyTo hs op l r)
  | logical op right hint => exact inlines_decideLogical op right hint r
  | truth => exact .bind (hholds r) fun _ _ _ => inlines_done
  | assign op value => exact .inspect_bind rfl (inlines_operand value _ rfl)
  | unary op => exact .of_follows (follows_applyUnary hs op r)
  | choose thenExpr elseExpr hint =>
    exact .bind (hholds r) fun _ _ _ => inlines_visit _ hint .nil
  | callee args hint => exact inlines_nextArgument r [] hint args
  | argument f values rest hint => exact inlines_nextArgument f (r :: values) hint rest
  | member name throughPointer => exact .of_follows (follows_memberOf hs r name throughPointer)
  | cast ty =>
    exact .bind (local_operate (OperatorM.closed_conservative.convert r ty true)) fun _ _ _ => inlines_done
  | size => exact inlines_sizeValue r.ty
  | fill f => exact inlines_fillNext (fun m _ => inlines_make m) _ _ _
  | convert ty readonly => exact inlines_make _
  | arrayFrom ty readonly => exact inlines_makeArrayFrom ty readonly r
  | single ty readonly => exact inlines_makeSingle ty readonly r
  | storeFirst v readonly => exact inlines_storeFirst v readonly r
  | openBound element readonly => exact inlines_makeOpen element readonly r
  | _ => cases hf

/-- An expression is evaluated where its own names stand for the same. -/
theorem inlines_evaluate (hw : E.wraps = false) {e : Expr} (he : e.MeansSame E.outer s)
    (hint : Option StructTy) : E.Inlines s (evaluate e hint) := by
  have hask {spec : TypeSpec} {target : Declarator}
      (h : ∀ c, ReadM.typeNamed spec target (c, E.state s) = ReadM.typeNamed spec target (c, s)) :
      E.Local s (ask (ReadM.typeNamed spec target)) fun _ t => t = s :=
    local_ask_of_eq fun c => by rw [config_of_not_wraps hw, h c]
  cases e with
  | literal _ l => exact .bind (local_literal l) fun _ _ _ => inlines_done
  | identifier _ name =>
    have hname : (E.state s).value? name = s.value? name := congrArg (·.bind s.load?) he
    exact .get_bind (by rw [hname]) (.query_bind (local_named _ name) fun _ => inlines_done)
  | qualified _ path =>
    exact .inspect_bind rfl (.query_bind (local_named _ _) fun _ => inlines_done)
  | cast _ spec target operand =>
    exact .query_bind (hask he) fun ty => inlines_operand operand hint rfl
  | sizeofType _ spec target => exact .query_bind (hask he) fun ty => inlines_sizeValue ty
  | list _ items =>
    cases hint with
    | some d => exact inlines_make _
    | none => exact .fail
  | _ => exact inlines_operand _ hint rfl

theorem inlines_within {path : Frames j k} {x y : RunM (Progress j)}
    {f : j.Result → RunM (Progress k)} (hx : E.Mirrors E.progress s x y (Progress.Inline E))
    (hp : path.Inline) (hf : ∀ r t, E.Inlines t (f r)) :
    E.Mirrors E.progress s (within path x f) (within path y f) (Progress.Inline E) := by
  refine .outcome_bind hx (fun p t ht => ?_) (fun fault t => ?_)
    fun fault => rethrows_unwind path fault
  · cases p with
    | done r => exact hf r t
    | paused p inner => exact inlines_paused ht hp
  · obtain ⟨fault', hfault⟩ := hp.unwind (α := Progress k) fault
    dsimp only
    rw [hfault]
    exact .throw

theorem inlines_resumeFrames {path : Frames j k} (hp : path.Inline) (r : j.Result) :
    E.Inlines s (resumeFrames path r) := by
  induction hp generalizing s with
  | nil => exact inlines_done
  | cons hf hfs ih => exact inlines_within (inlines_resumeFrame hf r) hfs fun r t => ih r

/-- A step where an object is created does the same, if the names that it looks up there stand for
the same. -/
theorem inlines_step (hw : E.wraps = false) {p : Pause j} {path : Frames j k}
    (hp : (Progress.paused p path).Inline E s)
    (hs : path.inCall = false → p.MeansSame E.outer s) :
    E.Mirrors E.progress s (step p path) (step p (path.under E.outer.length))
      (Progress.Inline E) := by
  cases hp with
  | site e hint hpath =>
    rw [hpath.under]
    have he := inlines_evaluate hw (hs hpath.inCall) hint
    exact inlines_within he hpath fun r t => inlines_resumeFrames hpath r
  | call hi hpath =>
    rw [Frames.under_append, hpath.under, step_append, step_append]
    have hstep := (mirrors_step hi).mono fun _ _ h => h.inline
    exact inlines_within hstep hpath fun r t => inlines_resumeFrames hpath r

end Frames

end Surroundings

end Stepwise

/-! ## Default initializers and local names

A default initializer is kept as an expression, and evaluated wherever an object is created. The
object is the same in all places, as if it were created where there are no local names, as long
as no local name takes the place of one that the initializers mention.
-/

namespace Stepwise

open RunM

variable {E : Surroundings} {s : State} {k : Completion}

/-- A name that is not among the local ones means the same outside all scopes. -/
theorem Expr.meansSame_of_unbound {locals : List (Scope Place)} (hs : s.scopes.inner = [])
    {name : String} (h : ∀ scope ∈ Scopes.frameScopes locals, scope.get? name = none)
    (span : Span) : (Expr.identifier span name).MeansSame locals s := by
  have hlocal : (Scopes.frameScopes locals).findSome? (fun scope => scope.get? name) = none :=
    List.findSome?_eq_none_iff.mpr h
  have hscopes : (s.onCaller locals).scopes.lookup name = s.scopes.lookup name := by
    simp only [State.onCaller, State.withInner, Scopes.lookup, Scopes.visible, hs, List.nil_append,
      List.findSome?_append, hlocal, Scopes.frameScopes]
    rfl
  simp only [MeansSame, State.lookup, hscopes]
  rfl

/-- While the computation is driven, the names that are looked up where it began, and in no call,
stand for the same among the local names. -/
def Progress.Unshadowed (locals : List (Scope Place)) (c : Config) :
    List (Console → Console) → Progress k → State → Prop
  | [], _, _ => True
  | _ :: _, .done _, _ => True
  | f :: fs, .paused p path, s =>
    (path.inCall = false → p.MeansSame locals (s.onConsole f)) ∧
      ∀ q t, step p path c (s.onConsole f) = .ok q t → q.Unshadowed locals c fs t

namespace Surroundings

theorem inline_drive (hw : E.wraps = false) {c : Config} (fs : List (Console → Console))
    {p : Progress k} (hp : p.Inline E s) (hu : p.Unshadowed E.outer c fs s) :
    drive fs (E.progress p) c (E.state s) = resultOn E.outer (drive fs p c s) := by
  induction fs generalizing s p with
  | nil => rfl
  | cons f fs ih =>
    cases p with
    | done r => rfl
    | paused p path =>
      obtain ⟨hsame, hnext⟩ := hu
      have hstep := inlines_step hw (hp.onConsole f) hsame c
      rw [config_of_not_wraps hw] at hstep
      change (step p (path.under E.outer.length) >>= drive fs) c (E.state (s.onConsole f)) =
        resultOn E.outer ((step p path >>= drive fs) c (s.onConsole f))
      cases h : step p path c (s.onConsole f) with
      | ok q t =>
        rw [h] at hstep
        rw [bind_ok hstep.2, bind_ok h]
        exact ih hstep.1 (hnext q t h)
      | error fault t =>
        rw [h] at hstep
        have hfault := hstep.resolve_left fun hf => Bool.false_ne_true (hw.symm.trans hf.1)
        rw [bind_error hfault, bind_error h]
        rfl

end Surroundings

namespace RunM

/-- However far it is driven, the computation finds among the local names what it finds without
them. -/
def Unshadowed (x : RunM (Progress k)) (locals : List (Scope Place)) (c : Config) (s : State)
    (fs : List (Console → Console)) : Prop :=
  ∀ p t, x c (s.withInner []) = .ok p t → p.Unshadowed locals c fs t

/-- An object that is made among local names is the one that is made without them. -/
theorem drive_make {m : Making} {c : Config} {fs : List (Console → Console)}
    {locals : List (Scope Place)} (hu : (make m).Unshadowed locals c s fs) :
    (make m >>= drive fs) c (s.withInner locals) =
      resultOn locals ((make m >>= drive fs) c (s.withInner [])) := by
  let E : Surroundings := ⟨locals, false⟩
  have hm := Surroundings.inlines_make (E := E) (s := s.withInner []) m c
  cases h : make m c (s.withInner []) with
  | ok p t =>
    rw [h] at hm
    have hlocal : make m c (s.withInner locals) = .ok (E.progress p) (E.state t) := hm.2
    rw [bind_ok hlocal, bind_ok h]
    exact Surroundings.inline_drive (E := E) rfl fs hm.1 (hu p t h)
  | error fault t =>
    rw [h] at hm
    have hlocal : make m c (s.withInner locals) = .error fault (E.state t) :=
      hm.resolve_left fun hf => Bool.false_ne_true hf.1
    rw [bind_error hlocal, bind_error h]
    rfl

/-- Objects do not depend on where they are created. Driven in the same way, the making of an object,
with the default initializers of its members, comes to the same value, the same cells and the
same faults in all places where the local names do not take the place of names that are looked
up for the initializers; and this is what it comes to where there are no local names. Functions
that the initializers call may look up whatever they want. -/
theorem make_unshadowed (c : Config) (s : State) (m : Making) (fs : List (Console → Console)) :
    (∀ locals, (make m).Unshadowed locals c s fs →
      (make m >>= drive fs) c (s.withInner locals) =
        resultOn locals ((make m >>= drive fs) c (s.withInner []))) ∧
    ∀ locals locals', (make m).Unshadowed locals c s fs → (make m).Unshadowed locals' c s fs →
      (make m >>= drive fs).sight c (s.withInner locals) =
        (make m >>= drive fs).sight c (s.withInner locals') := by
  refine ⟨fun locals hu => drive_make hu, fun locals locals' hu hu' => ?_⟩
  have hsight {locals : List (Scope Place)} (hu : (make m).Unshadowed locals c s fs) :
      (make m >>= drive fs).sight c (s.withInner locals) =
        (make m >>= drive fs).sight c (s.withInner []) := by
    unfold sight
    rw [drive_make hu]
    cases (make m >>= drive fs) c (s.withInner []) with
    | ok p t => cases p <;> rfl
    | error f t => rfl
  rw [hsight hu, hsight hu']

end RunM

/-- `struct S { int a = x; };` -/
def structOfX : StructTy :=
  ⟨"S", [⟨"a", .arith .int, false, some (.expr (.identifier default "x"))⟩]⟩

/-- There is a global `int x = 1;`, and two cells for local variables. -/
def stateOfStruct : State where
  heap := ⟨#[#[.int .int 1], #[.int .int 5], #[.int .int 7]]⟩
  scopes := { global := { name := "global", frame := true, entries := [("x", .slot 0)] } }
  structs := [("S", structOfX)]

/-- The local scope of a function with one variable. -/
def localsOf (name : String) (block : BlockId) : List (Scope Place) :=
  [⟨"function f", true, [(name, .slot block)]⟩]

/-- `S s;` -/
def makingOfStruct : Making := .default structOfX.type false

/-- The first member of the struct that is made among local names. -/
def firstMember (locals : List (Scope Place)) : Option Int :=
  (settled (make makingOfStruct >>= drive [id]) {} (stateOfStruct.withInner locals)).bind
    fun (v, t) => v.structStore?.bind fun b => (t.heap.cells b)[0]?.bind Value.int?

/-- A local `x` takes the place of the global one in the initializer. -/
theorem RunM.make_shadowed :
    firstMember [] = some 1 ∧ firstMember (localsOf "x" 1) = some 5 := by
  decide +kernel

theorem RunM.make_unshadowed_of_struct :
    (make makingOfStruct >>= drive [id]).sight {} (stateOfStruct.withInner (localsOf "y" 1)) =
      (make makingOfStruct >>= drive [id]).sight {} (stateOfStruct.withInner (localsOf "z" 2)) := by
  have hu (name : String) (block : BlockId) (hn : name ≠ "x") :
      (make makingOfStruct).Unshadowed (localsOf name block) {} stateOfStruct [id] := by
    rintro p t ⟨⟩
    refine ⟨fun _ => Expr.meansSame_of_unbound rfl (fun scope hm => ?_) default,
      fun _ _ _ => trivial⟩
    rw [List.mem_singleton.mp hm]
    simp [Scope.get?, List.lookup_cons, beq_false_of_ne hn.symm]
  exact (make_unshadowed {} stateOfStruct makingOfStruct [id]).2 _ _ (hu "y" 1 (by decide))
    (hu "z" 2 (by decide))

end Stepwise
