import Stepwise.Proofs.Closure.Drives
import Stepwise.Proofs.Operator.Operands

/-! # The label that a switch begins at

A switch passes the labels of its body in order. The first one that is the default label, or
has the value of the discriminant in its own type, turns execution on; what was passed over
on the way is not executed, and what follows is executed until a statement jumps.
-/

namespace Stepwise

/-- A case or default label of a switch. -/
def Stmt.labelsSwitch : Stmt → Bool
  | .caseLabel .. | .defaultLabel _ => true
  | _ => false

/-- How a switch ends whose body ends in this way: a jump out of the body ends with it. -/
def Flow.leavesSwitch : Flow → Flow
  | .breaks => .normal
  | flow => flow

namespace RunM

variable {c : Config} {s t u : State} {j k : ArithKind} {x y : Int} {d l : Value}

section Comparing

theorem truthy_equal (z y : Int) :
    (Value.bool (Number.test .eq (some (compare z y)))).truthy = decide (z = y) := by
  by_cases h : z = y
  · simp [Number.test, h, Value.bool, Value.int, Value.fresh, Value.truthy, Data.truthy]
  · simp [Number.test, h, Value.bool, Value.int, Value.fresh, Value.truthy, Data.truthy]

theorem operate_convert (hd : d.IsInt j x) {min max : Int}
    (hr : (c.numerics.limits.get k).range = .integral min max) :
    match c.numerics.compared? j k x with
    | some z => ∃ v : Value, v.IsInt k z ∧ operate (OperatorM.convert d (.arith k) false) c s = .ok v s
    | none => operate (OperatorM.convert d (.arith k) false) c s =
        .error ⟨.operator (.overflow k (toString x)), s.cursor⟩ s := by
  have hconvert := OperatorM.convert_int ⟨c.numerics, s.tables, s.cursor⟩ s.heap hd hr false
  cases hz : c.numerics.compared? j k x with
  | some z =>
    simp only [hz] at hconvert
    obtain ⟨v, hv, hconvert⟩ := hconvert
    exact ⟨v, hv, operate_ok hconvert⟩
  | none =>
    simp only [hz] at hconvert
    exact operate_error hconvert

theorem operate_equal {v : Value} {z : Int} (hv : v.IsInt k z) (hl : l.IsInt k y) :
    operate (Operator.apply (.binary .eq) v (some l)) c s =
      .ok (.bool (Number.test .eq (some (compare z y)))) s := by
  refine operate_ok ?_
  simp only [Operator.apply, Operator.ofType?, Operator.ofNumber?, hv.ty, OperatorM.arithBinary, hl.ty,
    Ty.isPointer, Ty.arith?, Value.number?, hv.data, hl.data, Data.number?]
  rfl

/-- Labels are compared as integers, and a label whose kind has no number for the discriminant is
the only fault. -/
theorem labelMatches_of_int (hd : d.IsInt j x) (hl : l.IsInt k y) {min max : Int}
    (hr : (c.numerics.limits.get k).range = .integral min max) :
    labelMatches d l c s =
      match c.numerics.compared? j k x with
      | some z => .ok (decide (z = y)) s
      | none => .error ⟨.operator (.overflow k (toString x)), s.cursor⟩ s := by
  have hconvert := operate_convert (c := c) (s := s) hd hr
  rw [← hl.ty] at hconvert
  split
  · rename_i z hz
    simp only [hz] at hconvert
    obtain ⟨v, hv, hconvert⟩ := hconvert
    rw [labelMatches, bind_ok hconvert, bind_ok (operate_equal hv hl), ← truthy_equal]
    rfl
  · rename_i hz
    simp only [hz] at hconvert
    rw [labelMatches, bind_error hconvert]

end Comparing

/-- The label at the head of a body is entered, and has a value. -/
def Labels (c : Config) (label : Stmt) (value : Expr) (s : State) (l : Value) (t : State) : Prop :=
  ∃ f : Console → Console, (visit value none .nil).Completes c
    ({ s with cursor := some label.node }.onConsole f) l t

/-- The labels are passed, and none of them turns execution on for the discriminant `d`. Nothing
else is executed. -/
inductive Passes (c : Config) (d : Value) : List Stmt → State → State → Prop
  | nil (s : State) : Passes c d [] s s
  | label {span : Span} {value : Expr} {rest : List Stmt} {s t u v : State} {l : Value}
    (hv : Labels c (.caseLabel span value) value s l t) (hm : labelMatches d l c t = .ok false u)
    (hrest : Passes c d rest u v) : Passes c d (.caseLabel span value :: rest) s v
  | statement {st : Stmt} {rest : List Stmt} {s t : State} (hst : st.labelsSwitch = false)
    (hrest : Passes c d rest s t) : Passes c d (st :: rest) s t

/-- The label turns execution on for the discriminant `d`. -/
inductive Begins (c : Config) (d : Value) : Stmt → State → State → Prop
  | label {span : Span} {value : Expr} {s t u : State} {l : Value}
    (hv : Labels c (.caseLabel span value) value s l t) (hm : labelMatches d l c t = .ok true u) :
    Begins c d (.caseLabel span value) s u
  | default (span : Span) (s : State) (f : Console → Console) :
    Begins c d (.defaultLabel span) s
      ({ s with cursor := some (Stmt.defaultLabel span).node }.onConsole f)

/-- The statements are executed up to the first one that jumps; labels between them are evaluated
and make no difference. -/
inductive Falls (c : Config) : List Stmt → State → Flow → State → Prop
  | nil (s : State) : Falls c [] s .normal s
  | label {span : Span} {value : Expr} {rest : List Stmt} {s t u : State} {l : Value} {flow : Flow}
    (hv : Labels c (.caseLabel span value) value s l t) (hrest : Falls c rest t flow u) :
    Falls c (.caseLabel span value :: rest) s flow u
  | default {span : Span} {rest : List Stmt} {s t : State} {flow : Flow} (f : Console → Console)
    (hrest : Falls c rest ({ s with cursor := some (Stmt.defaultLabel span).node }.onConsole f)
      flow t) : Falls c (.defaultLabel span :: rest) s flow t
  | statement {st : Stmt} {rest : List Stmt} {s t u : State} {flow : Flow}
    (hst : st.labelsSwitch = false) (hn : (visitStmt st true .nil).Completes c s .normal t)
    (hrest : Falls c rest t flow u) : Falls c (st :: rest) s flow u
  | jump {st : Stmt} {rest : List Stmt} {s t : State} {flow : Flow}
    (hst : st.labelsSwitch = false) (hf : flow.isNormal = false)
    (hj : (visitStmt st true .nil).Completes c s flow t) : Falls c (st :: rest) s flow t

/-- A body is executed from what follows the first label that turns execution on; if there is none,
nothing of it is executed. -/
def Selects (c : Config) (d : Value) (body : List Stmt) (s : State) (flow : Flow) (t : State) :
    Prop :=
  (∃ before label rest u v, body = before ++ label :: rest ∧ Passes c d before s u ∧
    Begins c d label u v ∧ Falls c rest v flow t) ∨
  Passes c d body s t ∧ flow = .normal

section Walking

variable {flow : Flow} {rest body : List Stmt}

theorem completes_label_iff {span : Span} {value : Expr} {running : Bool} :
    (walkSwitch d running (.caseLabel span value :: rest)).Completes c s flow t ↔
      ∃ l u, Labels c (.caseLabel span value) value s l u ∧
        (passLabel ⟨rest, d, running⟩ l).Completes c u flow t := by
  refine (completes_one_iff .nil (s := { s with cursor := some (Stmt.caseLabel span value).node })
    (q := .label value)).trans ?_
  simp only [completes_pause_iff]
  rfl

theorem completes_default_iff {span : Span} {running : Bool} :
    (walkSwitch d running (.defaultLabel span :: rest)).Completes c s flow t ↔
      ∃ f, (walkSwitch d true rest).Completes c
        ({ s with cursor := some (Stmt.defaultLabel span).node }.onConsole f) flow t :=
  completes_pause_iff (s := { s with cursor := some (Stmt.defaultLabel span).node })
    (q := .switch ⟨rest, d, true⟩ false)

theorem walkSwitch_statement {st : Stmt} (hst : st.labelsSwitch = false) (running : Bool) :
    walkSwitch d running (st :: rest) =
      if running then visitStmt st true (.one (.switchStatement ⟨rest, d, running⟩))
      else walkSwitch d running rest := by
  cases st <;> first | rfl | cases hst

/-- Once execution is on, the rest of the body is executed. -/
theorem completes_running_iff :
    (walkSwitch d true body).Completes c s flow t ↔ Falls c body s flow t := by
  induction body generalizing s with
  | nil =>
    refine completes_done_iff.trans ⟨?_, ?_⟩
    · rintro ⟨rfl, rfl⟩
      exact .nil s
    · rintro ⟨⟩
      exact ⟨rfl, rfl⟩
  | cons st rest ih =>
    by_cases hst : st.labelsSwitch = true
    · cases st with
      | caseLabel span value =>
        rw [completes_label_iff]
        constructor
        · rintro ⟨l, u, hv, hrest⟩
          exact .label hv (ih.mp hrest)
        · rintro (_ | ⟨hv, hrest⟩ | _ | ⟨hst', -, -⟩ | ⟨hst', -, -⟩)
          · exact ⟨_, _, hv, ih.mpr hrest⟩
          · cases hst'
          · cases hst'
      | defaultLabel span =>
        rw [completes_default_iff]
        constructor
        · rintro ⟨f, hrest⟩
          exact .default f (ih.mp hrest)
        · rintro (_ | _ | ⟨f, hrest⟩ | ⟨hst', -, -⟩ | ⟨hst', -, -⟩)
          · exact ⟨f, ih.mpr hrest⟩
          · cases hst'
          · cases hst'
      | _ => cases hst
    · rw [Bool.not_eq_true] at hst
      rw [walkSwitch_statement hst, if_pos rfl, completes_visitStmt_iff]
      constructor
      · rintro ⟨flow', u, hx, hrest⟩
        cases flow' with
        | normal => exact .statement hst hx (ih.mp hrest)
        | breaks | continues | returns =>
          obtain ⟨rfl, rfl⟩ := completes_done_iff.mp hrest
          exact .jump hst rfl hx
      · rintro (_ | _ | _ | ⟨-, hn, hrest⟩ | ⟨-, hf, hj⟩)
        · cases hst
        · cases hst
        · exact ⟨.normal, _, hn, ih.mpr hrest⟩
        · refine ⟨flow, t, hj, ?_⟩
          change (resumeSwitch ⟨rest, d, true⟩ flow).Completes c t flow t
          rw [resumeSwitch, hf]
          exact completes_done_iff.mpr ⟨rfl, rfl⟩

/-- A label that is compared either turns execution on or is passed. -/
theorem completes_passLabel_iff :
    (passLabel ⟨rest, d, false⟩ l).Completes c s flow t ↔
      ∃ b u, labelMatches d l c s = .ok b u ∧ (walkSwitch d b rest).Completes c u flow t := by
  constructor
  · intro h
    exact completes_bind h
  · rintro ⟨b, u, hm, h⟩
    exact (completes_congr (bind_ok hm)).mpr h

theorem selects_of_completes (h : (walkSwitch d false body).Completes c s flow t) :
    Selects c d body s flow t := by
  induction body generalizing s with
  | nil =>
    obtain ⟨rfl, rfl⟩ := completes_done_iff.mp h
    exact .inr ⟨.nil s, rfl⟩
  | cons st rest ih =>
    cases hst : st.labelsSwitch with
    | false =>
      rw [walkSwitch_statement hst] at h
      rcases ih h with ⟨before, label, after, u, v, rfl, hb, hl, hf⟩ | ⟨hp, hn⟩
      · exact .inl ⟨st :: before, label, after, u, v, rfl, .statement hst hb, hl, hf⟩
      · exact .inr ⟨.statement hst hp, hn⟩
    | true =>
      cases st with
      | caseLabel span value =>
        obtain ⟨l, u, hv, hpass⟩ := completes_label_iff.mp h
        obtain ⟨b, u', hm, hwalk⟩ := completes_passLabel_iff.mp hpass
        cases b with
        | true =>
          exact .inl ⟨[], _, rest, s, u', rfl, .nil s, .label hv hm, completes_running_iff.mp hwalk⟩
        | false =>
          rcases ih hwalk with ⟨before, label, after, w, v, rfl, hb, hl, hf⟩ | ⟨hp, hn⟩
          · exact .inl ⟨_ :: before, label, after, w, v, rfl, .label hv hm hb, hl, hf⟩
          · exact .inr ⟨.label hv hm hp, hn⟩
      | defaultLabel span =>
        obtain ⟨f, hwalk⟩ := completes_default_iff.mp h
        exact .inl ⟨[], _, rest, s, _, rfl, .nil s, .default span s f, completes_running_iff.mp hwalk⟩
      | _ => cases hst

/-- What is passed makes no difference to what follows. -/
theorem completes_of_passes (h : Passes c d body s u)
    (hrest : (walkSwitch d false rest).Completes c u flow t) :
    (walkSwitch d false (body ++ rest)).Completes c s flow t := by
  induction h with
  | nil s => exact hrest
  | label hv hm _ ih =>
    exact completes_label_iff.mpr ⟨_, _, hv, completes_passLabel_iff.mpr ⟨_, _, hm, ih hrest⟩⟩
  | statement hst _ ih =>
    rw [List.cons_append, walkSwitch_statement hst]
    exact ih hrest

theorem completes_of_begins {label : Stmt} (h : Begins c d label s u)
    (hrest : Falls c rest u flow t) :
    (walkSwitch d false (label :: rest)).Completes c s flow t := by
  have hrunning := completes_running_iff (d := d) |>.mpr hrest
  cases h with
  | label hv hm =>
    exact completes_label_iff.mpr ⟨_, _, hv, completes_passLabel_iff.mpr ⟨_, _, hm, hrunning⟩⟩
  | default span s f => exact completes_default_iff.mpr ⟨f, hrunning⟩

theorem completes_walk_iff :
    (walkSwitch d false body).Completes c s flow t ↔ Selects c d body s flow t := by
  refine ⟨selects_of_completes, ?_⟩
  rintro (⟨before, label, rest, u, v, rfl, hp, hb, hf⟩ | ⟨hp, rfl⟩)
  · exact completes_of_passes hp (completes_of_begins hb hf)
  · rw [← List.append_nil body]
    exact completes_of_passes hp (completes_done_iff.mpr ⟨rfl, rfl⟩)

end Walking

section Switches

variable {span block : Span} {disc : Expr} {statements : List Stmt}
  {flow flow' : Flow}

/-- The state in which the first statement of the block of a switch is reached, after the console
was used. -/
def opened (block : Span) (statements : List Stmt) (s : State) (f : Console → Console) : State :=
  { ({ s with cursor := some (Stmt.compound block statements).node }.onConsole f) with
    scopes := s.scopes.push "CompoundStatement" }

theorem leaveScope_completes_iff :
    (leaveScope flow).Completes c s flow' t ↔ flow = flow' ∧ { s with scopes := s.scopes.pop } = t :=
  completes_done_iff (s := { s with scopes := s.scopes.pop })

theorem completes_enterSwitch_iff :
    (enterSwitch (.compound block statements) d).Completes c s flow t ↔
      ∃ f inner u, (walkSwitch d false statements).Completes c (opened block statements s f) inner u ∧
        flow = inner.leavesSwitch ∧ t = { u with scopes := u.scopes.pop.pop } := by
  have hblock : (enterSwitch (.compound block statements) d).Completes c s flow t ↔
      ∃ inner u, (return .paused (.switch ⟨statements, d, false⟩ true) (.one .popScope) :
        RunM (Progress .flow)).Completes c
          { s with cursor := some (Stmt.compound block statements).node } inner u ∧
        (endSwitch inner).Completes c u flow t :=
    completes_one_iff (.one .popScope)
  have hwalk {s u : State} {inner : Flow} :
      (return .paused (.switch ⟨statements, d, false⟩ true) (.one .popScope) :
        RunM (Progress .flow)).Completes c s inner u ↔
      ∃ flow v, (∃ f, (resumeSwitchPause ⟨statements, d, false⟩ true).Completes c (s.onConsole f)
        flow v) ∧ (leaveScope flow).Completes c v inner u := by
    refine (completes_one_iff .nil).trans ?_
    simp only [completes_pause_iff]
    rfl
  rw [hblock]
  simp only [hwalk, endSwitch, leaveScope_completes_iff]
  constructor
  · rintro ⟨_, _, ⟨inner, u, ⟨f, h⟩, rfl, rfl⟩, rfl, rfl⟩
    exact ⟨f, inner, u, h, rfl, rfl⟩
  · rintro ⟨f, inner, u, h, rfl, rfl⟩
    exact ⟨_, _, ⟨inner, u, ⟨f, h⟩, rfl, rfl⟩, rfl, rfl⟩

/-- A switch evaluates its discriminant, passes the labels of its body up to the first one that is
the default label or matches, and executes what follows until a statement jumps. A label matches
if it is the number that the discriminant is in the type of the label; there is a fault only if that
type has no number for it. -/
theorem switch_selects (c : Config) (span block : Span) (disc : Expr) (statements : List Stmt)
    (inSwitch : Bool) :
    (∀ s flow t,
      (execute (.switch span disc (.compound block statements)) inSwitch).Completes c s flow t ↔
        ∃ d u f inner v, (visit disc none .nil).Completes c
            { s with scopes := s.scopes.push "SelectionStatement_switch" } d u ∧
          Selects c d statements (opened block statements u f) inner v ∧
          flow = inner.leavesSwitch ∧ t = { v with scopes := v.scopes.pop.pop }) ∧
    ∀ d l j k x y min max s, d.IsInt j x → l.IsInt k y →
      (c.numerics.limits.get k).range = .integral min max →
      labelMatches d l c s =
        match c.numerics.compared? j k x with
        | some z => .ok (decide (z = y)) s
        | none => .error ⟨.operator (.overflow k (toString x)), s.cursor⟩ s := by
  refine ⟨fun s flow t => ?_, fun d l j k x y min max s hd hl hr => labelMatches_of_int hd hl hr⟩
  have hvisit : (execute (.switch span disc (.compound block statements)) inSwitch).Completes c s
      flow t ↔ ∃ d u, (visit disc none .nil).Completes c
          { s with scopes := s.scopes.push "SelectionStatement_switch" } d u ∧
        (enterSwitch (.compound block statements) d).Completes c u flow t :=
    completes_visit_iff (s := { s with scopes := s.scopes.push "SelectionStatement_switch" })
  simp only [hvisit, completes_enterSwitch_iff, completes_walk_iff]
  constructor
  · rintro ⟨d, u, hd, f, inner, v, hs, hflow, ht⟩
    exact ⟨d, u, f, inner, v, hd, hs, hflow, ht⟩
  · rintro ⟨d, u, f, inner, v, hd, hs, hflow, ht⟩
    exact ⟨d, u, hd, f, inner, v, hs, hflow, ht⟩

/-- `case 1:` -/
def labelOne : Stmt := .caseLabel default (.literal default (.int 1 10 false false))

theorem switch_selects_default :
    let body := [.defaultLabel default, .breakJump default, labelOne]
    (∃ d s f inner t, Selects {} d body (opened default body s f) inner t ∧
      Flow.normal = inner.leavesSwitch) ∧
    labelMatches (.int .int 200) (.int .char 97) {} {} =
      .error ⟨.operator (.overflow .char "200"), none⟩ {} := by
  intro body
  let one : Expr := .literal default (.int 1 10 false false)
  obtain ⟨hselects, hmatches⟩ := switch_selects {} default default one body false
  refine ⟨?_, hmatches _ _ .int .char 200 97 0 0x7f {} ⟨rfl, rfl⟩ ⟨rfl, rfl⟩ rfl⟩
  have hends : ∃ t, (execute (.switch default one (.compound default body)) false).Completes {} {}
      .normal t := ⟨_, [id, id, id, id], rfl⟩
  obtain ⟨t, hends⟩ := hends
  obtain ⟨d, s, f, inner, t, -, hs, hflow, -⟩ := (hselects {} .normal t).mp hends
  exact ⟨d, s, f, inner, t, hs, hflow⟩

end Switches

end RunM

/-- `int main() { switch (x) { body } return 0; }` -/
def Program.ofSwitch (x : Nat) (body : List Stmt) : Program where
  includes := []
  items := [.function default (.mk ⟨[], ["int"], default⟩
    (.mk default [] false (.named "main") [.params [] false])
    (.compound default
      [.switch default (.literal default (.int x 10 false false)) (.compound default body),
        .returnJump default (some (.literal default (.int 0 10 false false)))]))]

/-- A default label hides the matching labels that follow it, and a number that is none of the type
of a label is a fault before the default label is reached. -/
theorem switch_misses_label :
    let label (l : Literal) : Stmt := .caseLabel default (.literal default l)
    let returns (x : Nat) : Stmt :=
      .returnJump default (some (.literal default (.int x 10 false false)))
    let run (x : Nat) (body : List Stmt) : Run :=
      (Run.ofProgram {} (.ofSwitch x body) {} {}).steps 20
    let hidden := run 1 [.defaultLabel default, returns 1, label (.int 1 10 false false), returns 2]
    let refused := run 200 [label (.char 97 .narrow), returns 1, .defaultLabel default, returns 2]
    hidden.exitStatus? = some 1 ∧ refused.isFinished = true ∧ refused.exitStatus? = none := by
  decide +kernel

end Stepwise
