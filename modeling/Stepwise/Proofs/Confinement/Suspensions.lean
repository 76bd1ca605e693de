import Stepwise.Machine.Step
import Stepwise.Proofs.Closure.Calls
import Stepwise.Proofs.Confinement.States

/-! # Suspended computations pass hidden blocks by

Frames wait with values: left operands, arguments, parts of objects that are being made, what the
labels of a switch are compared with, and the elements that a loop has yet to go over. A suspended
computation passes blocks by if none of these lead to them.
-/

namespace Stepwise

variable {j k l : Completion} {R S : Set BlockId}

/-- The values that an object is made from lead only to blocks of the set. -/
def Making.Within (R : Set BlockId) : Making → Prop
  | .copy _ v _ | .arrayOf _ v _ => v.Lies R
  | _ => True

/-- The parts that are made, and the values that the others are made from, lead only to blocks of the
set. -/
structure Filling.Within (R : Set BlockId) (f : Filling) : Prop where
  made : ∀ v ∈ f.made, v.Lies R
  next : ∀ m ∈ f.next, m.Within R

/-- The values that the frame waits with lead only to blocks of the set. -/
def Frame.Within (R : Set BlockId) : Frame j k → Prop
  | .operate _ l => l.Within R
  | .argument f values _ _ => f.Within R ∧ ∀ v ∈ values, v.Within R
  | .fill f => f.Within R
  -- Only numbers are stored into the first scalar of an array.
  | .storeFirst v _ => v.Lies R ∧ v.ty.isIntegral = true
  | .caseLabel s | .switchStatement s => s.discriminant.Within R
  | .eachBody l => ∀ p ∈ l.places, p.block ∈ R
  | _ => True

def Frames.Within (R : Set BlockId) : {j k : Completion} → Frames j k → Prop
  | _, _, .nil => True
  | _, _, .cons f rest => f.Within R ∧ rest.Within R

def Pause.Within (R : Set BlockId) : Pause j → Prop
  | .switch s _ => s.discriminant.Within R
  | _ => True

/-- The value that is returned leads only to blocks of the set. -/
def Flow.Within (R : Set BlockId) : Flow → Prop
  | .returns (some v) => v.Within R
  | _ => True

def Completion.Within (R : Set BlockId) : (k : Completion) → k.Result → Prop
  | .value, v => Value.Within R v
  | .flow, f => Flow.Within R f

/-- The result of the computation, or the values that it waits with, lead only to blocks of the
set. -/
def Progress.Within (R : Set BlockId) : Progress k → Prop
  | .done r => k.Within R r
  | .paused p path => p.Within R ∧ path.Within R

theorem Making.Within.mono {m : Making} (hm : m.Within R) (hs : R ⊆ S) : m.Within S := by
  cases m with
  | copy | arrayOf => exact Value.Lies.mono hm hs
  | _ => trivial

theorem Filling.Within.mono {f : Filling} (hf : f.Within R) (hs : R ⊆ S) : f.Within S :=
  ⟨fun v hv => (hf.made v hv).mono hs, fun m hm => (hf.next m hm).mono hs⟩

theorem Frame.Within.mono {f : Frame j k} (hf : f.Within R) (hs : R ⊆ S) : f.Within S := by
  cases f with
  | operate | caseLabel | switchStatement => exact Value.Within.mono hf hs
  | argument => exact ⟨hf.1.mono hs, fun v hv => (hf.2 v hv).mono hs⟩
  | fill => exact Filling.Within.mono hf hs
  | storeFirst => exact ⟨hf.1.mono hs, hf.2⟩
  | eachBody => exact fun p hp => hs (hf p hp)
  | _ => trivial

theorem Pause.Within.mono {p : Pause j} (hp : p.Within R) (hs : R ⊆ S) : p.Within S := by
  cases p with
  | switch => exact Value.Within.mono hp hs
  | _ => trivial

theorem Flow.Within.mono {f : Flow} (hf : f.Within R) (hs : R ⊆ S) : f.Within S := by
  cases f with
  | returns v =>
    cases v with
    | some v => exact Value.Within.mono hf hs
    | none => trivial
  | _ => trivial

namespace Frames.Within

theorem mono {fs : Frames j k} (hf : fs.Within R) (hs : R ⊆ S) : fs.Within S := by
  induction fs with
  | nil => trivial
  | cons f rest ih => exact ⟨hf.1.mono hs, ih hf.2⟩

theorem append {fs : Frames j k} {gs : Frames k l} (hf : fs.Within R) (hg : gs.Within R) :
    (fs ++ gs).Within R := by
  induction fs with
  | nil => exact hg
  | cons f rest ih => exact ⟨hf.1, ih hf.2 hg⟩

theorem one {f : Frame j k} (hf : f.Within R) : (Frames.one f).Within R := ⟨hf, trivial⟩

end Frames.Within

namespace RunM

variable {H : Set BlockId} {s : State} {α : Type}

/-- The computation passes hidden blocks by, and its value does not lead there. -/
abbrev Delivers (H : Set BlockId) (s : State) (x : RunM Value) : Prop :=
  x.PassesBy H s fun R v => v.Within R

/-- The computation passes hidden blocks by, and neither its result nor what it waits with lead
there. -/
abbrev Confined (H : Set BlockId) (s : State) (x : RunM (Progress k)) : Prop :=
  x.PassesBy H s fun R p => p.Within R

section Progress

variable (hs : s.Hides H)

include hs

theorem PassesBy.done {r : k.Result} (hr : k.Within (s.reach H) r) :
    (return .done r : RunM (Progress k)).Confined H s := .pure hs hr

theorem PassesBy.ends {flow : Flow} (hf : flow.Within (s.reach H)) :
    (return .done flow : RunM (Progress .flow)).Confined H s := .pure hs hf

theorem PassesBy.normal : (return .done .normal : RunM (Progress .flow)).Confined H s :=
  .pure hs trivial

theorem PassesBy.paused {p : Pause j} (hp : p.Within (s.reach H)) {path : Frames j k}
    (hpath : path.Within (s.reach H)) : (return .paused p path : RunM (Progress k)).Confined H s :=
  .pure hs ⟨hp, hpath⟩

theorem PassesBy.visit (e : Expr) (hint : Option StructTy) {next : Frames .value k}
    (hn : next.Within (s.reach H)) : (visit e hint next).Confined H s :=
  .get_bind (.bind (passesBy_setCursor hs _) fun _ _ hp _ =>
    .pure hp.hides ⟨trivial, trivial, hn.mono hp.reach⟩)

theorem PassesBy.visitStmt (st : Stmt) (inSwitch : Bool) {next : Frames .flow k}
    (hn : next.Within (s.reach H)) : (visitStmt st inSwitch next).Confined H s :=
  .get_bind (.bind (passesBy_setCursor hs _) fun _ _ hp _ =>
    .pure hp.hides ⟨trivial, trivial, hn.mono hp.reach⟩)

/-- A part of a computation, and a frame that waits for it. -/
theorem PassesBy.andThen {p : Progress j} (hp : p.Within (s.reach H)) {frame : Frame j k}
    (hframe : frame.Within (s.reach H)) {f : j.Result → RunM (Progress k)}
    (hf : ∀ r, j.Within (s.reach H) r → (f r).Confined H s) :
    (p.andThen frame f).Confined H s := by
  cases p with
  | done r => exact hf r hp
  | paused p path => exact .paused hs hp.1 (hp.2.append (.one hframe))

omit hs in
theorem PassesBy.answer {x : RunM Value} (hx : x.Delivers H s) :
    (do return .done (← x) : RunM (Progress .value)).Confined H s :=
  .bind hx fun _ _ hp hv => .done hp.hides hv

end Progress

section Values

variable (hs : s.Hides H)

include hs

theorem delivers_named {found : Option Value} (hf : ∀ v, found = some v → v.Within (s.reach H))
    (name : String) : (named found name).Delivers H s := by
  cases found with
  | some v => exact .pure hs (hf v rfl)
  | none => exact .fail _

theorem within_value? {name : String} {v : Value} (hv : s.value? name = some v) :
    v.Within (s.reach H) := by
  obtain ⟨p, hp, hv⟩ := Option.bind_eq_some_iff.mp hv
  exact hs.load? (hs.lookup hp) hv

theorem passesBy_stringCells (limits : LimitsTable) (kind : ArithKind) (text : List Char) :
    (stringCells limits kind text).PassesBy H s fun R cells => ∀ cell ∈ cells, cell.Lies R := by
  have hcell (i : Int) (R : Set BlockId) : ((Value.int kind i).withReadonly true).Lies R :=
    (Value.within_int kind i).toLies.withReadonly true
  induction text with
  | nil => exact .pure hs fun cell hm => List.mem_singleton.mp hm ▸ hcell 0 _
  | cons c cs ih =>
    unfold stringCells
    refine .check fun _ => .bind ih fun cells t hp hcells => .pure hp.hides ?_
    exact List.forall_mem_cons.mpr ⟨hcell _ _, hcells⟩

theorem delivers_literal (l : Literal) : (literal l).Delivers H s := by
  refine .read_bind fun c => ?_
  cases l with
  | int value radix unsigned long =>
    dsimp only
    split
    · exact .pure hs (Value.within_int _ _)
    · exact .fail _
  | float value single => exact .pure hs (Value.within_number rfl)
  | char code width => exact .pure hs (Value.within_int _ _)
  | string text width =>
    refine .bind (passesBy_stringCells hs _ _ _) fun cells t hp hcells => ?_
    refine .bind (passesBy_alloc hp.hides fun cell hm => hcells cell (List.mem_toArray.mp hm))
      fun b u hp' hb => .pure hp'.hides ?_
    refine Value.within_fresh (Data.simple_pointer rfl) fun s hm => ?_
    exact List.mem_singleton.mp hm ▸ hb
  | bool b => exact .pure hs (Value.within_bool b)
  | null => exact .pure hs (Value.within_null _)

theorem delivers_member {object : Value} (ho : object.Within (s.reach H)) (name : String) :
    (member object name).Delivers H s := by
  refine .inspect_bind ?_
  split
  · exact .fail _
  · split
    · exact .fail _
    · rename_i hstore
      refine .inspect_bind ?_
      split
      · rename_i hv
        exact .pure hs ((hs.heap.load? (ho.toLies.structStore? hstore) hv).withReadonly _)
      · exact .fail _
    · refine .get_bind ?_
      split
      · rename_i hstore
        refine .pure hs (Value.within_fresh (fun _ h => nomatch h) fun b hb => ?_)
        rcases List.mem_cons.mp hb with rfl | hb
        · exact ho.toLies.structStore? hstore
        · obtain ⟨p, hp, rfl⟩ := Option.map_eq_some_iff.mp (Option.mem_toList.mp hb)
          exact ho.place p hp
      · exact .fail _

theorem delivers_exitStatus {v : Value} (hv : v.Lies (s.reach H)) : (exitStatus v).Delivers H s :=
  .ite (.pure hs (Value.within_int _ _)) (.bind (passesBy_convert hs hv _ _) fun _ _ hp _ =>
    .pure hp.hides (Value.within_int _ _))

end Values

section Files

theorem beside_openFile (name mode : String) : (openFile name mode).Beside fun _ => True := by
  have hT := sequential_beside
  unfold openFile
  extract_lets openAs
  have hopen (create : Bool) : (openAs create).Beside fun _ => True :=
    .modifyGet fun _ => ⟨rfl, rfl, rfl⟩
  split
  · exact hopen false
  · refine hT.bind (hT.discard (hopen true)) fun _ _ => ?_
    exact hT.bind (.modify fun _ => ⟨rfl, rfl, rfl⟩) fun _ _ => hT.pure trivial
  · exact hopen true
  · exact hT.fail _ rfl

/-- A file struct is made, and a cell for it. -/
theorem delivers_filePointer (hs : s.Hides H) (name mode : String) :
    (filePointer name mode).Delivers H s := by
  refine .beside_bind hs (beside_openFile name mode) fun opened t ht _ => .get_bind ?_
  split
  · exact .fail _
  · rename_i d _
    refine .ite (.pure ht.hides (Value.within_null _)) ?_
    refine .beside_bind ht.hides (.modifyGet fun _ => ⟨rfl, rfl, rfl⟩) fun handle u hu _ => ?_
    refine .bind (passesBy_alloc hu.hides fun cell hm => ?_) fun store w hp hstore => ?_
    · obtain rfl := Array.mem_singleton.mp hm
      exact (Value.within_int .int _).toLies
    · refine .bind (passesBy_newSlot hp.hides ⟨.inr ⟨d.name, d.members, rfl⟩, fun b hb => ?_⟩)
        fun p x hp' hplace => .pure hp'.hides ?_
      · exact List.mem_singleton.mp hb ▸ hstore
      · refine Value.within_fresh (Data.simple_pointer rfl) fun b hb => ?_
        exact List.mem_singleton.mp hb ▸ hplace

end Files

end RunM

end Stepwise
