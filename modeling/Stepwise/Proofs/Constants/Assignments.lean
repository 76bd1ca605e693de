import Stepwise.Proofs.Constants.Declarations
import Stepwise.Proofs.Constants.Objects
import Stepwise.Proofs.Constants.Writes
import Stepwise.Proofs.Operator.Results

/-! # Assignments through constant paths

What `*` and `[]` lead to from a pointer to constant cells, or from an array of them, cannot
be written, and moving the pointer does not change that. So an expression that leads to a constant
object cannot be assigned to, however the host drives the run, and its value can be stepped neither
forward nor back.
-/

namespace Stepwise

section Paths

namespace OperatorM

variable {h : Heap}

namespace Gives

/-- An element of a block whose cells are constant is constant. -/
theorem element {store : BlockId} (hs : h.ConstantBlock store) (i : Int) :
    Gives h (element store i) Value.Unwritable := by
  unfold OperatorM.element
  extract_lets rest
  have hrest (found : Option Value) (hf : ∀ v, found = some v → v.readonly = true) :
      Gives h (rest found) Value.Unwritable := by
    cases found with
    | some v => exact pure (.inl (hf v rfl))
    | none => exact fun _ _ _ hx => nomatch hx
  split
  · refine bind (load? _) fun found hfound => hrest found fun v hv => ?_
    obtain ⟨cell, hc, rfl⟩ := Option.map_eq_some_iff.mp (hfound ▸ hv)
    exact hs.2 cell (Array.mem_of_getElem? hc)
  · exact hrest none nofun

variable {l : Value} (hl : h.ConstantTargets l)

include hl

theorem deref (r : Option Value) : Gives h (deref l r) Value.Unwritable := by
  unfold OperatorM.deref
  refine ite (stop _) ?_
  dsimp only
  split
  · rename_i p hd
    refine bind (load? p) fun found hfound => ?_
    obtain ⟨v, hv, hr⟩ := (hl.target p hd).1
    rw [hfound, hv]
    exact pure (.inl hr)
  · exact element (hl.elements _ _ ‹_›) _
  · split
    · exact pure (.inr ⟨_, rfl⟩)
    · exact fail _
  · exact fail _
  · exact fail _
  · exact fail _
  · exact fail _

/-- A pointer that was moved points into the same array. -/
theorem offset (n : Value) (sign : Int) : Gives h (offset l n sign) h.ConstantTargets := by
  unfold OperatorM.offset
  extract_lets rest
  have hrest (delta : Int) : Gives h (rest delta) h.ConstantTargets := by
    dsimp only [rest]
    split
    · rename_i store i hd
      refine bind (position _) fun _ _ => pure ⟨?_, nofun⟩
      rintro b j ⟨⟩
      exact hl.elements _ i hd
    · rename_i store i hd
      refine bind (position _) fun _ _ => bind (position _) fun _ _ => pure ⟨?_, nofun⟩
      rintro b j ⟨⟩
      exact (hl.target _ hd).2 rfl
    · exact ite (pure ⟨hl.elements, hl.target⟩) (fail _)
    · exact fail _
  split
  · exact ite (bind (position _) fun delta _ => hrest delta) (stop _)
  · exact stop _

theorem index (r : Option Value) : Gives h (index l r) Value.Unwritable :=
  bind (operand _ l r) fun n _ => bind (offset hl n 1) fun _ hmoved => deref hmoved none

/-- What `*` and `[]` lead to cannot be written. -/
theorem apply {op : Operator} (hop : op = .deref ∨ op = .index) (r : Option Value) :
    Gives h (op.apply l r) Value.Unwritable := by
  rcases hop with rfl | rfl
  · unfold Operator.apply
    cases l.ty with
    | pointer | array | functionPointer => exact deref hl r
    | _ => exact fail _
  · unfold Operator.apply
    cases l.ty with
    | pointer | array | functionPointer => exact index hl r
    | _ => exact fail _

end Gives

end OperatorM

end Paths

open RunM

variable {c : Config} {s t : State}

namespace RunM

/-- Driving keeps constant cells. -/
theorem Completes.keepsConstants {k : Completion} {x : RunM (Progress k)} {r : k.Result}
    (hx : x.Meets .keepsConstants fun _ => True) (h : x.Completes c s r t) :
    s.heap.KeepsConstants t.heap := by
  have hK := lawful_keepsConstants
  have hT := closed_meets hK
  have hr := meets_readCharacter (K := .keepsConstants) fun s => Heap.KeepsConstants.refl s.heap
  have hm := meets_make hK fun _ => trivial
  have hstep {j : Completion} (q : Pause j) (path : Frames j k) :
      (step q path).Meets .keepsConstants fun _ => True :=
    meets_step hK hr hm
      (hT.resumePause hr hm (fun _ _ s _ => ⟨.refl s.heap, trivial⟩) q) path
  obtain ⟨fs, hd⟩ := h
  exact ((Meets.bind hK hx fun p _ => meets_drive hK (fun s _ => .refl s.heap) hstep fs p).of_ok
    trivial hd).1

theorem keepsConstants_evaluate {e : Expr} {hint : Option StructTy} {v : Value}
    (h : (evaluate e hint).Completes c s v t) : s.heap.KeepsConstants t.heap := by
  have hT := closed_meets lawful_keepsConstants
  have hm := meets_make lawful_keepsConstants fun _ => trivial
  exact Completes.keepsConstants (hT.mono (hT.evaluate hm e hint) fun _ _ => trivial) h

theorem named_eq_ok {found : Option Value} {x : String} {v : Value}
    (h : named found x c s = .ok v t) : found = some v ∧ t = s := by
  cases found with
  | none => cases h
  | some w =>
    cases h
    exact ⟨rfl, rfl⟩

/-- Whatever values the expression has from the state on, they are as `post` says. -/
def Reaches (c : Config) (s : State) (e : Expr) (post : Heap → Value → Prop) : Prop :=
  ∀ s' hint v t, s.Steady s' → (evaluate e hint).Completes c s' v t → post t.heap v

/-- The expression leads to a constant object. -/
inductive ConstantPath (c : Config) (s : State) : Expr → Prop
  | name {span : Span} {x : String} {p : Place} (hx : s.lookup x = some p)
    (hp : s.heap.Constant p) : ConstantPath c s (.identifier span x)
  | qualified {span : Span} {path : List String} {p : Place}
    (hx : s.namespaces.lookup path = some p) (hp : s.heap.Constant p) :
    ConstantPath c s (.qualified span path)
  | member {span : Span} {object : Expr} {x : String} (h : ConstantPath c s object) :
    ConstantPath c s (.member span object x false)
  /-- A member of what a pointer to a constant object points to. -/
  | arrow {span : Span} {e : Expr} {x : String} (h : Reaches c s e Heap.ConstantTargets) :
    ConstantPath c s (.member span e x true)
  | deref {span : Span} {e : Expr} (h : Reaches c s e Heap.ConstantTargets) :
    ConstantPath c s (.unary span .deref e)
  /-- An element of a constant array, or of what a pointer to constant objects points to. -/
  | element {span : Span} {base index : Expr} (h : Reaches c s base Heap.ConstantTargets) :
    ConstantPath c s (.index span base index)

theorem evaluate_name {span : Span} {x : String} {hint : Option StructTy} {v : Value}
    (h : (evaluate (.identifier span x) hint).Completes c s v t) :
    s.value? x = some v ∧ t = s := by
  obtain ⟨_, _, hs, h⟩ := completes_bind h
  cases hs
  obtain ⟨w, u, hw, h⟩ := completes_bind h
  obtain ⟨rfl, rfl⟩ := completes_done h
  exact named_eq_ok hw

theorem evaluate_qualified {span : Span} {path : List String} {hint : Option StructTy} {v : Value}
    (h : (evaluate (.qualified span path) hint).Completes c s v t) :
    (s.namespaces.lookup path).bind s.load? = some v ∧ t = s := by
  obtain ⟨_, _, hs, h⟩ := completes_bind h
  cases hs
  obtain ⟨w, u, hw, h⟩ := completes_bind h
  obtain ⟨rfl, rfl⟩ := completes_done h
  exact named_eq_ok hw

/-- The results of the computation are as `post` says. -/
def Gives {α : Type} (x : RunM α) (post : α → Prop) : Prop := ∀ c s a t, x c s = .ok a t → post a

namespace Gives

variable {α β : Type} {post : α → Prop}

theorem bind {x : RunM β} {f : β → RunM α} (hf : ∀ b, (f b).Gives post) :
    (x >>= f).Gives post := by
  intro c s a t h
  obtain ⟨b, u, -, hb⟩ := bind_eq_ok h
  exact hf b c u a t hb

theorem pure {a : α} (ha : post a) : (pure a : RunM α).Gives post := by
  rintro c s a t ⟨⟩
  exact ha

theorem fail (cause : FaultCause) : (fail cause : RunM α).Gives post := fun _ _ _ _ h => nomatch h

/-- A member of a constant object is constant, and methods are functions. -/
theorem member {object : Value} (ho : object.readonly = true) (x : String) :
    (member object x).Gives Value.Unwritable := by
  refine bind fun found => ?_
  split
  · exact fail _
  · split
    · exact fail _
    · refine bind fun cell => ?_
      split
      · exact pure (.inl (by simp [Value.withReadonly, ho]))
      · exact fail _
    · refine bind fun s => ?_
      split
      · exact pure (.inr ⟨_, rfl⟩)
      · exact fail _

end Gives

theorem member_unwritable {object v : Value} {x : String} (ho : object.Unwritable)
    (h : member object x c s = .ok v t) : v.Unwritable := by
  rcases ho with ho | ⟨sig, hty⟩
  · exact Gives.member ho x c s v t h
  · obtain ⟨found, u, hfound, h⟩ := bind_eq_ok h
    cases hfound
    dsimp only at h
    rw [hty] at h
    cases h

end RunM

namespace State.Steady

theorem lookup (h : s.Steady t) (x : String) : t.lookup x = s.lookup x := by
  rw [h]
  rfl

theorem namespaces (h : s.Steady t) : t.namespaces = s.namespaces := by
  rw [h]

theorem heap (h : s.Steady t) : t.heap = s.heap := by
  rw [h]

end State.Steady

namespace RunM

variable {e : Expr}

/-- The value of what a constant path leads to cannot be written. -/
theorem ConstantPath.reaches (he : ConstantPath c s e) : Reaches c s e fun _ v => v.Unwritable := by
  induction he with
  | name hx hp =>
    intro s' hint v t hs h
    obtain ⟨w, hw, hr⟩ := hp
    obtain ⟨hv, -⟩ := evaluate_name h
    rw [State.value?, hs.lookup, hx, Option.bind_some, State.load?, hs.heap, hw] at hv
    cases hv
    exact .inl hr
  | qualified hx hp =>
    intro s' hint v t hs h
    obtain ⟨w, hw, hr⟩ := hp
    obtain ⟨hv, -⟩ := evaluate_qualified h
    rw [hs.namespaces, hx, Option.bind_some, State.load?, hs.heap, hw] at hv
    cases hv
    exact .inl hr
  | member _ ih =>
    intro s' hint v t hs h
    obtain ⟨s₁, object, u, u₁, hs₁, ho, -, h⟩ := completes_visit h
    obtain ⟨_, _, hpure, h⟩ := completes_bind h
    cases hpure
    obtain ⟨w, u₂, hw, h⟩ := completes_bind h
    obtain ⟨rfl, rfl⟩ := completes_done h
    exact member_unwritable (ih s₁ hint object u (hs.trans hs₁) ho) hw
  | arrow hp =>
    intro s' hint v t hs h
    obtain ⟨s₁, p, u, u₁, hs₁, ho, hu, h⟩ := completes_visit h
    have hp := hp s₁ hint p u (hs.trans hs₁) ho
    rw [← hu.heap] at hp
    obtain ⟨object, u₂, hd, hmember⟩ := completes_bind h
    obtain ⟨w, u₃, hw, h⟩ := completes_bind hmember
    obtain ⟨rfl, rfl⟩ := completes_done h
    have hobject := (operate_gives (OperatorM.Gives.apply hp (.inl rfl) none) hd).2
    exact member_unwritable hobject hw
  | deref hp =>
    intro s' hint v t hs h
    obtain ⟨s₁, p, u, u₁, hs₁, ho, hu, h⟩ := completes_visit h
    have hp := hp s₁ hint p u (hs.trans hs₁) ho
    rw [← hu.heap] at hp
    obtain ⟨w, u₂, hw, h⟩ := completes_bind h
    obtain ⟨rfl, rfl⟩ := completes_done h
    exact (operate_gives (OperatorM.Gives.apply hp (.inl rfl) none) hw).2
  | element hp =>
    intro s' hint v t hs h
    obtain ⟨s₁, p, u, u₁, hs₁, ho, hu, h⟩ := completes_visit h
    have hp := hp s₁ hint p u (hs.trans hs₁) ho
    obtain ⟨s₂, i, w, w₁, hs₂, hi, hw, h⟩ := completes_visit h
    -- The index may change cells, but not what is constant.
    rw [← hu.heap, ← hs₂.heap] at hp
    have hp := (keepsConstants_evaluate hi).constantTargets hp
    rw [← hw.heap] at hp
    obtain ⟨v', w₂, hv, h⟩ := completes_bind h
    obtain ⟨rfl, rfl⟩ := completes_done h
    exact (operate_gives (OperatorM.Gives.apply hp (.inr rfl) (some i)) hv).2

/-- Neither assignments to the expression nor steps of it complete, and an operator that would
write to its value faults and changes nothing. -/
structure RefusesWrites (c : Config) (s : State) (e : Expr) : Prop where
  assignment : ∀ span op value hint v t,
    ¬(evaluate (.assign span op e value) hint).Completes c s v t
  increment : ∀ span op hint v t, (unaryOperator op).1.writes = true →
    ¬(evaluate (.unary span op e) hint).Completes c s v t
  unchanged : ∀ hint l t, (evaluate e hint).Completes c s l t → ∀ op : Operator,
    op.writes = true → ∀ r c' u, ∃ fault, operate (op.apply l r) c' u = .error fault u

theorem not_completes_applyTo {l r : Value} (hl : l.Unwritable) {op : Operator}
    (hop : op.writes = true) {v : Value} : ¬(applyTo op l r).Completes c s v t := by
  intro h
  obtain ⟨w, u, hw, -⟩ := completes_bind h
  obtain ⟨fault, hfault⟩ := operate_unwritable hl hop (some r) c s
  cases hw.symm.trans hfault

/-- What a constant path leads to is not written. -/
theorem ConstantPath.refusesWrites (he : ConstantPath c s e) : RefusesWrites c s e where
  assignment span op value hint v t h := by
    obtain ⟨s₁, l, u, u₁, hs, hl, hu, h⟩ := completes_visit h
    have hl : l.Unwritable := he.reaches s₁ hint l u hs hl
    obtain ⟨_, u₂, hhint, h⟩ := completes_bind h
    obtain ⟨s₂, r, w, w₁, -, -, -, h⟩ := completes_visit h
    refine not_completes_applyTo hl ?_ h
    cases op <;> rfl
  increment span op hint v t hop h := by
    obtain ⟨s₁, l, u, u₁, hs, hl, hu, h⟩ := completes_visit h
    have hl : l.Unwritable := he.reaches s₁ hint l u hs hl
    obtain ⟨w, u₂, hw, -⟩ := completes_bind h
    obtain ⟨fault, hfault⟩ := operate_unwritable hl hop _ c u₁
    cases hw.symm.trans hfault
  unchanged hint l t h op hop r c' u :=
    operate_unwritable (he.reaches s hint l t (.refl s) h) hop r c' u

end RunM

namespace State.NamesConstant

variable {name : String} {isArray : Bool} (hn : s.NamesConstant name isArray) (span : Span)

include hn

theorem constantPath (c : Config) : ConstantPath c s (.identifier span name) := by
  obtain ⟨p, v, hp, hv, hr, -⟩ := hn
  exact .name hp ⟨v, hv, hr⟩

/-- The name of an array leads to its elements. -/
theorem reaches (c : Config) (ha : isArray = true) :
    Reaches c s (.identifier span name) Heap.ConstantTargets := by
  intro s' hint v t hs h
  obtain ⟨p, w, hp, hw, -, ht⟩ := hn
  obtain ⟨hv, rfl⟩ := evaluate_name h
  rw [State.value?, hs.lookup, hp, Option.bind_some, State.load?, hs.heap] at hv
  obtain rfl : w = v := Option.some.inj (hw.symm.trans hv)
  exact hs.heap ▸ ht ha

end State.NamesConstant

/-- `one = 1` -/
def itemOfOne : InitDeclarator :=
  ⟨.mk default [] false (.named "one") [], some (.expr (.literal default (.int 1 10 false false)))⟩

def constInt : TypeSpec := ⟨["const"], ["int"], default⟩

/-- `int x = 1;` was declared. -/
def stateOfX : State where
  heap := ⟨#[#[.int .int 1]]⟩
  scopes := { global := { name := "global", frame := true, entries := [("x", .slot 0)] } }

def State.intOfX (s : State) : Option Int := (s.value? "x").bind Value.int?

/-- Once the item is declared for constant integers, the target is assigned `2`, and `x` has that
value. -/
def OverwritesX (item : InitDeclarator) (target : Expr) : Prop :=
  ∃ flow s v t, (declareAll constInt [item]).Completes {} stateOfX flow s ∧
    (evaluate (.assign default none target (.literal default (.int 2 10 false false)))
      none).Completes {} s v t ∧ s.intOfX = some 1 ∧ t.intOfX = some 2

theorem overwritesX_of_settled {item : InitDeclarator} {target : Expr} (fs : List (Console → Console))
    (h : (settled (declareAll constInt [item] >>= drive fs) {} stateOfX).bind (fun (_, s) =>
      (settled (evaluate (.assign default none target (.literal default (.int 2 10 false false)))
        none >>= drive fs) {} s).map fun (_, t) => (s.intOfX, t.intOfX)) = some (some 1, some 2)) :
    OverwritesX item target := by
  obtain ⟨⟨flow, s⟩, hs, h⟩ := Option.bind_eq_some_iff.mp h
  obtain ⟨⟨v, t⟩, ht, h⟩ := Option.map_eq_some_iff.mp h
  obtain ⟨hbefore, hafter⟩ := Prod.mk.inj h
  exact ⟨flow, s, v, t, completes_of_settled hs, completes_of_settled ht, hbefore, hafter⟩

end Stepwise
