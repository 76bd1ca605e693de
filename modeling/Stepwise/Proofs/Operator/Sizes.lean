import Stepwise.Proofs.Closure.Drives
import Stepwise.Proofs.Operator.Atomicity
import Stepwise.Proofs.Session.Evolution

/-! # Sizes of expressions

The size of an expression is that of the type of its value, for which the expression is evaluated.
An expression without assignments, increments, calls and lists in braces leaves everything as it
is, however it is driven and however it ends. It moves the cursor, and its strings are new blocks
of the heap.
-/

namespace Stepwise

variable {j k l : Completion} {c : Config} {s t u : State}

/-- The expression holds no assignment, increment, decrement, call or list in braces. -/
def Expr.onlyReads : Expr → Bool
  | literal .. | identifier .. | qualified .. | sizeofType .. => true
  | binary _ _ left right | logical _ _ left right | comma _ left right | index _ left right =>
    left.onlyReads && right.onlyReads
  | unary _ op operand => !(RunM.unaryOperator op).1.writes && operand.onlyReads
  | conditional _ condition thenExpr elseExpr =>
    condition.onlyReads && thenExpr.onlyReads && elseExpr.onlyReads
  | member _ object _ _ => object.onlyReads
  | cast _ _ _ operand | sizeofExpr _ operand => operand.onlyReads
  | assign .. | call .. | list .. => false

/-- What the frame goes on with only reads. -/
def Frame.onlyReads : Frame j k → Bool
  | leave .. | truth | member .. | cast _ | size => true
  | rightOperand op right _ => !op.writes && right.onlyReads
  | operate op _ => !op.writes
  | logical _ right _ => right.onlyReads
  | unary op => !(RunM.unaryOperator op).1.writes
  | choose thenExpr elseExpr _ => thenExpr.onlyReads && elseExpr.onlyReads
  | _ => false

def Frames.OnlyRead : {j k : Completion} → Frames j k → Prop
  | _, _, nil => True
  | _, _, cons f rest => f.onlyReads = true ∧ rest.OnlyRead

def Pause.onlyReads : Pause j → Bool
  | expr e _ => e.onlyReads
  | _ => false

/-- What is left of the computation only reads. -/
def Progress.OnlyReads : Progress k → Prop
  | done _ => True
  | paused p path => p.onlyReads = true ∧ path.OnlyRead

theorem Frames.OnlyRead.append {fs : Frames j k} {gs : Frames k l} (hf : fs.OnlyRead)
    (hg : gs.OnlyRead) : (fs ++ gs).OnlyRead := by
  induction fs with
  | nil => exact hg
  | cons f rest ih =>
    obtain ⟨hf, hrest⟩ := hf
    exact ⟨hf, ih hrest hg⟩

/-- Everything in the first state is as it was, but for the cursor; the heap may have new blocks. -/
structure State.Unwritten (s t : State) : Prop where
  heap : s.heap.SameBut (fun _ _ => False) t.heap
  rest : t = { s with heap := t.heap, cursor := t.cursor }

namespace State.Unwritten

theorem refl (s : State) : s.Unwritten s := ⟨.refl s.heap, rfl⟩

theorem trans (hs : s.Unwritten t) (ht : t.Unwritten u) : s.Unwritten u := by
  obtain ⟨hheap, hrest⟩ := ht
  refine ⟨hs.heap.trans hheap, ?_⟩
  rw [hrest, hs.rest]

/-- The host may go on with the console of both states. -/
theorem onConsole (hs : s.Unwritten t) (fs : List (Console → Console)) :
    (fs.foldl State.onConsole s).Unwritten (fs.foldl State.onConsole t) := by
  induction fs generalizing s t with
  | nil => exact hs
  | cons f fs ih =>
    refine ih ⟨hs.heap, ?_⟩
    unfold State.onConsole
    rw [hs.rest]

end State.Unwritten

namespace RunM

section Reading

variable {T : (α : Type) → RunM α → (α → Prop) → Prop} (hT : Reading T)

include hT

/-- An expression that was entered. -/
theorem Reading.evaluate {e : Expr} (he : e.onlyReads = true) (hint : Option StructTy) :
    T _ (RunM.evaluate e hint) Progress.OnlyReads := by
  have hvisit {e : Expr} {f : Frame .value .value} (he : e.onlyReads = true)
      (hf : f.onlyReads = true) : T _ (RunM.visit e hint (.one f)) Progress.OnlyReads :=
    hT.visit_of e hint _ fun _ => ⟨he, rfl, hf, trivial⟩
  cases e with
  | literal _ l => exact hT.bind (hT.literal l) fun _ _ => hT.pure trivial
  | identifier _ name =>
    refine hT.get_bind (fun _ _ => rfl) fun s => ?_
    exact hT.bind (hT.named _ name) fun _ _ => hT.pure trivial
  | qualified _ path =>
    refine hT.inspect_bind (fun _ _ => rfl) fun found => ?_
    exact hT.bind (hT.named _ _) fun _ _ => hT.pure trivial
  | binary _ op left right =>
    obtain ⟨hl, hr⟩ := Bool.and_eq_true_iff.mp he
    exact hvisit hl hr
  | logical _ op left right =>
    obtain ⟨hl, hr⟩ := Bool.and_eq_true_iff.mp he
    exact hvisit hl hr
  | comma _ left right =>
    obtain ⟨hl, hr⟩ := Bool.and_eq_true_iff.mp he
    exact hvisit hl hr
  | index _ base i =>
    obtain ⟨hl, hr⟩ := Bool.and_eq_true_iff.mp he
    exact hvisit hl hr
  | unary _ op operand =>
    obtain ⟨hop, ho⟩ := Bool.and_eq_true_iff.mp he
    exact hvisit ho hop
  | conditional _ condition thenExpr elseExpr =>
    simp only [Expr.onlyReads, Bool.and_eq_true, and_assoc] at he
    obtain ⟨hc, ht, he⟩ := he
    exact hvisit hc (Bool.and_eq_true_iff.mpr ⟨ht, he⟩)
  | member _ object name throughPointer => exact hvisit (e := object) he rfl
  | cast _ spec target operand =>
    refine hT.bind (hT.ask fun _ hU => hU.typeNamed spec target) fun ty _ => ?_
    exact hvisit (e := operand) he rfl
  | sizeofType _ spec target =>
    refine hT.bind (hT.ask fun _ hU => hU.typeNamed spec target) fun ty _ => ?_
    exact hT.sizeValue (fun _ => trivial) ty
  | sizeofExpr _ operand => exact hvisit (e := operand) he rfl
  | assign | call | list => cases he

theorem Reading.resumeFrame {f : Frame j k} (hf : f.onlyReads = true) (r : j.Result) :
    T _ (RunM.resumeFrame f r) Progress.OnlyReads := by
  cases f with
  | leave node previous => exact hT.bind (hT.setCursor _) fun _ _ => hT.pure trivial
  | rightOperand op right hint =>
    obtain ⟨hop, hr⟩ := Bool.and_eq_true_iff.mp hf
    exact hT.visit_of right hint _ fun _ => ⟨hr, rfl, hop, trivial⟩
  | operate op left =>
    exact hT.applyTo (fun _ => trivial) (Bool.not_eq_true' _ |>.mp hf) left r
  | logical op right hint =>
    refine hT.decideLogical (fun _ => trivial) op right hint r ?_
    exact hT.visit_of right hint _ fun _ => ⟨hf, rfl, rfl, trivial⟩
  | truth => exact hT.bind (hT.condition r) fun _ _ => hT.pure trivial
  | unary op => exact hT.applyUnary (fun _ => trivial) (Bool.not_eq_true' _ |>.mp hf) r
  | choose thenExpr elseExpr hint =>
    obtain ⟨ht, he⟩ := Bool.and_eq_true_iff.mp hf
    refine hT.bind (hT.condition r) fun holds _ => ?_
    refine hT.visit_of _ hint _ fun _ => ⟨?_, rfl, trivial⟩
    cases holds
    · exact he
    · exact ht
  | member name throughPointer => exact hT.memberOf (fun _ => trivial) r name throughPointer
  | cast ty => exact hT.bind (hT.convert r ty true) fun _ _ => hT.pure trivial
  | size => exact hT.sizeValue (fun _ => trivial) r.ty
  | _ => cases hf

end Reading

theorem reading_unwritten (c : Config) (s : State) :
    Reading fun _ x Q => x.Maintains s.Unwritten (fun _ => True) c Q := by
  refine reading_maintains (fun _ _ => trivial) (fun {t} node ht => ?_) fun {t} cells ht => ?_
  · refine ht.trans ⟨.refl t.heap, ?_⟩
    rfl
  · refine ht.trans ⟨.alloc t.heap cells, ?_⟩
    rfl

variable {α : Type}

theorem unwritten_unwind {Q : α → Prop} (s : State) {path : Frames j k} (hp : path.OnlyRead)
    (fault : Fault) :
    (unwind path fault : RunM α).Maintains s.Unwritten (fun _ => True) c Q := by
  induction path generalizing fault with
  | nil => exact .raise trivial
  | cons f rest ih =>
    obtain ⟨hf, hrest⟩ := hp
    cases f with
    | endCall entry depth => cases hf
    | leave node previous => exact ih hrest _
    | _ => exact ih hrest _

theorem unwritten_within (s : State) {path : Frames j k} {x : RunM (Progress j)}
    {next : j.Result → RunM (Progress k)} (hp : path.OnlyRead)
    (hx : x.Maintains s.Unwritten (fun _ => True) c Progress.OnlyReads)
    (hn : ∀ r, (next r).Maintains s.Unwritten (fun _ => True) c Progress.OnlyReads) :
    (within path x next).Maintains s.Unwritten (fun _ => True) c Progress.OnlyReads := by
  intro t ht
  cases h : x c t with
  | error fault u =>
    obtain ⟨hu, -⟩ := hx.of_error ht h
    rw [within_error h]
    exact unwritten_unwind s hp fault u hu
  | ok p u =>
    obtain ⟨hu, hreads⟩ := hx.of_ok ht h
    cases p with
    | done r =>
      rw [within_done h]
      exact hn r u hu
    | paused p inner =>
      rw [within_paused h]
      exact ⟨hu, hreads.1, hreads.2.append hp⟩

theorem unwritten_resumeFrames (s : State) {path : Frames j k} (hp : path.OnlyRead) (r : j.Result) :
    (resumeFrames path r).Maintains s.Unwritten (fun _ => True) c Progress.OnlyReads := by
  induction path with
  | nil => exact .pure trivial
  | cons f rest ih =>
    obtain ⟨hf, hrest⟩ := hp
    exact unwritten_within s hrest ((reading_unwritten c s).resumeFrame hf r) (ih hrest)

/-- A step of a computation that only reads. -/
theorem unwritten_step (s : State) {p : Pause j} {path : Frames j k} (hp : p.onlyReads = true)
    (hpath : path.OnlyRead) :
    (step p path).Maintains s.Unwritten (fun _ => True) c Progress.OnlyReads := by
  refine unwritten_within s hpath ?_ (unwritten_resumeFrames s hpath)
  cases p with
  | expr e hint => exact (reading_unwritten c s).evaluate hp hint
  | _ => cases hp

/-- However often the host goes on with a computation that only reads, it finds everything as it was,
but for what it has done to the console itself. -/
theorem unwritten_drive (fs : List (Console → Console)) {p : Progress k} (hp : p.OnlyReads)
    (c : Config) (s : State) :
    ∃ gs, gs <+: fs ∧ (gs.foldl State.onConsole s).Unwritten ((drive fs p).after c s) := by
  induction fs generalizing p s with
  | nil => exact ⟨[], List.prefix_rfl, .refl s⟩
  | cons f fs ih =>
    cases p with
    | done r => exact ⟨[], List.nil_prefix, .refl s⟩
    | paused q path =>
      have hstep := unwritten_step (c := c) (s.onConsole f) hp.1 hp.2
      change ∃ gs, _ ∧ State.Unwritten _ ((step q path >>= drive fs).after c (s.onConsole f))
      cases h : step q path c (s.onConsole f) with
      | error fault t =>
        obtain ⟨ht, -⟩ := hstep.of_error (.refl _) h
        refine ⟨[f], (List.prefix_cons_inj f).mpr List.nil_prefix, ?_⟩
        rw [after_error (bind_error h)]
        exact ht
      | ok p t =>
        obtain ⟨ht, hreads⟩ := hstep.of_ok (.refl _) h
        obtain ⟨gs, hgs, hu⟩ := ih hreads t
        refine ⟨f :: gs, (List.prefix_cons_inj f).mpr hgs, ?_⟩
        rw [after, bind_ok h]
        exact (ht.onConsole gs).trans hu

theorem unwritten_evaluate (fs : List (Console → Console)) {e : Expr} (he : e.onlyReads = true)
    (hint : Option StructTy) (c : Config) (s : State) :
    ∃ gs, gs <+: fs ∧
      (gs.foldl State.onConsole s).Unwritten ((evaluate e hint >>= drive fs).after c s) := by
  have heval := (reading_unwritten c s).evaluate he hint
  cases h : evaluate e hint c s with
  | error fault t =>
    obtain ⟨ht, -⟩ := heval.of_error (.refl s) h
    refine ⟨[], List.nil_prefix, ?_⟩
    rwa [after_error (bind_error h)]
  | ok p t =>
    obtain ⟨ht, hreads⟩ := heval.of_ok (.refl s) h
    obtain ⟨gs, hgs, hu⟩ := unwritten_drive fs hreads c t
    refine ⟨gs, hgs, ?_⟩
    rw [after, bind_ok h]
    exact (ht.onConsole gs).trans hu

/-- The size of a type is a number of `int`, whether or not `int` holds it. -/
theorem sizeValue_eq (ty : Ty) : sizeValue ty c s = match ty.size? c.limits with
    | some n => .ok (.done (.int .int n)) s
    | none => .error ⟨.declaration .tooLarge, s.cursor⟩ s := by
  have hsize : ReadM.byteSize ty (c, s) =
      (match ty.size? c.limits with
      | some n => return n
      | none => ReadM.fail (.declaration .tooLarge) : ReadM Nat) (c, s) := rfl
  cases hn : ty.size? c.limits with
  | none =>
    rw [hn] at hsize
    have hask : ask (ReadM.byteSize ty) c s = .error ⟨.declaration .tooLarge, s.cursor⟩ s := by
      rw [ask, hsize]
      rfl
    exact bind_error hask
  | some n =>
    rw [hn] at hsize
    have hask : ask (ReadM.byteSize ty) c s = .ok n s := by
      rw [ask, hsize]
      rfl
    exact bind_ok hask

/-- A type is asked for its size, and nothing is evaluated. -/
theorem sizeofType_after (span : Span) (spec : TypeSpec) (target : Declarator)
    (hint : Option StructTy) (c : Config) (s : State) :
    (evaluate (.sizeofType span spec target) hint).after c s = s := by
  change (ask (ReadM.typeNamed spec target) >>= sizeValue).after c s = s
  cases h : ReadM.typeNamed spec target (c, s) with
  | error fault =>
    have hask : ask (ReadM.typeNamed spec target) c s = .error fault s := by rw [ask, h]
    exact after_error (bind_error hask)
  | ok ty =>
    rw [after, bind_ok (ask_ok h), sizeValue_eq]
    cases ty.size? c.limits <;> rfl

theorem completes_sizeValue_iff {ty : Ty} {v : Value} :
    (sizeValue ty).Completes c s v t ↔ ∃ n, ty.size? c.limits = some n ∧ v = .int .int n ∧ t = s := by
  have hsize := sizeValue_eq (c := c) (s := s) ty
  cases hn : ty.size? c.limits with
  | none =>
    rw [hn] at hsize
    exact iff_of_false (not_completes_of_error hsize) nofun
  | some n =>
    rw [hn] at hsize
    have hdone : (sizeValue ty).Completes c s v t ↔
        (return .done (.int .int n) : RunM (Progress .value)).Completes c s v t :=
      completes_congr hsize
    rw [hdone, completes_done_iff]
    constructor
    · rintro ⟨rfl, rfl⟩
      exact ⟨n, rfl, rfl, rfl⟩
    · rintro ⟨_, ⟨⟩, rfl, rfl⟩
      exact ⟨rfl, rfl⟩

/-- `sizeof` evaluates its operand, with all that this does, and takes the size of the type of the
value. An operand that only reads leaves everything as it is, however far its evaluation gets, and a
type has its size without an evaluation. -/
theorem sizeof_evaluates (c : Config) (s : State) (hint : Option StructTy) (span : Span) :
    (∀ e v t, (evaluate (.sizeofExpr span e) hint).Completes c s v t ↔
      ∃ w n, (visit e hint .nil).Completes c s w t ∧ w.ty.size? c.limits = some n ∧
        v = .int .int n) ∧
    (∀ e, e.onlyReads = true → ∀ fs, ∃ gs, gs <+: fs ∧ (gs.foldl State.onConsole s).Unwritten
      ((evaluate (.sizeofExpr span e) hint >>= drive fs).after c s)) ∧
    ∀ spec target, (evaluate (.sizeofType span spec target) hint).after c s = s := by
  refine ⟨fun e v t => ?_, fun e he fs => ?_, fun spec target => ?_⟩
  · change (visit e hint (.one .size)).Completes c s v t ↔ _
    rw [completes_visit_iff]
    constructor
    · rintro ⟨w, u, hw, hv⟩
      obtain ⟨n, hn, rfl, rfl⟩ := completes_sizeValue_iff.mp hv
      exact ⟨w, n, hw, hn, rfl⟩
    · rintro ⟨w, n, hw, hn, rfl⟩
      exact ⟨w, t, hw, completes_sizeValue_iff.mpr ⟨n, hn, rfl, rfl⟩⟩
  · exact unwritten_evaluate fs (e := .sizeofExpr span e) he hint c s
  · exact sizeofType_after span spec target hint c s

/-- The size of the string `"ab"`. -/
theorem sizeof_evaluates_string :
    let text : Expr := .literal default (.string "ab" .narrow)
    (∃ t, (evaluate (.sizeofExpr default text) none).Completes {} {} (.int .int 3) t) ∧
      text.onlyReads = true ∧ ∀ fs, ∃ gs, gs <+: fs ∧ (gs.foldl State.onConsole {}).Unwritten
        ((evaluate (.sizeofExpr default text) none >>= drive fs).after {} {}) := by
  intro text
  obtain ⟨hsize, hreads, -⟩ := sizeof_evaluates {} {} none default
  have hvalue : ∃ w t, (visit text none .nil).Completes {} {} w t ∧
      w.ty = .array (.arith .char) 3 := ⟨_, _, ⟨[id], rfl⟩, rfl⟩
  obtain ⟨w, t, hw, hty⟩ := hvalue
  refine ⟨⟨t, (hsize text _ t).mpr ⟨w, 3, hw, ?_, rfl⟩⟩, rfl, hreads text rfl⟩
  rw [hty]
  decide +kernel

end RunM

/-- `int main() { int x = 1; sizeof e; return x; }` -/
def Program.ofSize (e : Expr) : Program where
  includes := []
  items := [.function default (.mk ⟨[], ["int"], default⟩
    (.mk default [] false (.named "main") [.params [] false])
    (.compound default
      [.declaration default ⟨⟨[], ["int"], default⟩, [⟨.mk default [] false (.named "x") [],
        some (.expr (.literal default (.int 1 10 false false)))⟩]⟩,
        .expression default (some (.sizeofExpr default e)),
        .returnJump default (some (.identifier default "x"))]))]

/-- The operand of `sizeof` is evaluated: `sizeof(x++)` increments `x`. -/
theorem sizeof_increments :
    let increment : Expr := .unary default .postInc (.identifier default "x")
    ((Run.ofProgram {} (.ofSize increment) {} {}).steps 20).exitStatus? = some 2 ∧
      ((Run.ofProgram {} (.ofSize (.identifier default "x")) {} {}).steps 20).exitStatus? = some 1 := by
  decide +kernel

end Stepwise
