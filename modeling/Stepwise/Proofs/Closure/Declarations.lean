import Stepwise.Machine.Declare
import Stepwise.Machine.Make
import Stepwise.Proofs.Closure.Calls
import Stepwise.Proofs.Closure.Computations

/-! # Properties of expressions and declarations

What an expression does when it is entered, and what declarations do with the values of
their initializers. An object is made from operators and visits of initializers; only that it is
made out of parts of parts without end is a matter of its type.
-/

namespace Stepwise

namespace RunM

namespace Plain

variable {T : (α : Type) → RunM α → (α → Prop) → Prop} (hT : Plain T)

include hT

theorem finish (f : Filling) (made : Array Value) : T _ (finish f made) Progress.Proceeds :=
  hT.bind (hT.alloc made) fun _ _ => hT.pure trivial

theorem elementsFrom (v : Value) : T _ (elementsFrom v) fun _ => True := by
  unfold RunM.elementsFrom
  split
  · exact hT.inspect fun _ _ => rfl
  · exact hT.text_bind v fun _ => hT.fail _ rfl

/-- A part of a filling that is suspended. -/
theorem paused_fill {j : Completion} {p : Pause j} {path : Frames j .value} (f : Filling)
    (hp : (Progress.paused p path).Proceeds) :
    T _ (return .paused p (path ++ Frames.one (.fill f))) Progress.Proceeds :=
  hT.pure (by cases p <;> trivial)

section Fill

variable {make : Making → RunM (Progress .value)}

theorem fillDefaults (f : Filling) (count : Nat)
    (hd : count ≠ 0 → T _ (make (.default f.element f.readonly)) Progress.Proceeds)
    (made : Array Value) : T _ (fillDefaults make f count made) Progress.Proceeds := by
  induction count generalizing made with
  | zero => exact hT.finish f made
  | succ n ih =>
    have hm := hd (Nat.succ_ne_zero n)
    refine hT.bind hm fun p hp => ?_
    cases p with
    | paused p path => exact hT.paused_fill _ hp
    | done v => exact Sequential.ite (hT.finish f _) (ih (fun _ => hm) _)

/-- Only the parts that are left need to have the property. -/
theorem fillNext (f : Filling) {next : List Making}
    (hd : f.defaults ≠ 0 → T _ (make (.default f.element f.readonly)) Progress.Proceeds)
    (hn : ∀ m ∈ next, T _ (make m) Progress.Proceeds) (made : Array Value) :
    T _ (fillNext make f next made) Progress.Proceeds := by
  induction next generalizing made with
  | nil => exact hT.fillDefaults f f.defaults hd made
  | cons m rest ih =>
    obtain ⟨hm, hrest⟩ := List.forall_mem_cons.mp hn
    refine hT.bind hm fun p hp => ?_
    cases p with
    | paused p path => exact hT.paused_fill _ hp
    | done v => exact ih hrest _

/-- An array without elements has no parts. -/
theorem fillArray (ty element : Ty) (size : Nat) (items : List Initializer) (readonly : Bool)
    (hint : Option StructTy) (outermost : Bool)
    (hd : 0 < size → T _ (make (.default element readonly)) Progress.Proceeds)
    (hi : 0 < size → ∀ item ∈ items,
      T _ (make (ofItem element readonly hint item)) Progress.Proceeds) :
    T _ (fillArray make ty element size items readonly hint outermost) Progress.Proceeds := by
  unfold RunM.fillArray
  dsimp only
  split
  · exact hT.bind (R := fun _ => False) (hT.fail _ rfl) fun _ hfalse => hfalse.elim
  · rename_i hcount
    have hle : items.length ≤ size := by
      simp only [Bool.or_eq_true, decide_eq_true_eq, not_or, Nat.not_lt] at hcount
      exact hcount.1
    split
    · exact hT.visit _ hint _
    · refine hT.fillNext _ (fun hne => hd (by dsimp only at hne; omega)) (fun m hm => ?_) _
      obtain ⟨item, hitem, rfl⟩ := List.mem_map.mp hm
      exact hi (Nat.lt_of_lt_of_le (List.length_pos_of_mem hitem) hle) item hitem

end Fill

/-- What an object is made of, if the property holds of the fault that ends the making of objects
which would hold themselves. -/
theorem makeWithin
    (hend : ∀ m : Making, T _ (RunM.fail (.declaration (.containsItself m.type.text)))
      (@Progress.Proceeds .value)) (depth : Nat) (m : Making) :
    T _ (makeWithin depth m) Progress.Proceeds := by
  induction depth generalizing m with
  | zero => exact hend m
  | succ depth ih =>
    have hfill (f : Filling) (next : List Making) (made : Array Value) :
        T _ (RunM.fillNext (RunM.makeWithin depth) f next made) Progress.Proceeds :=
      hT.fillNext f (fun _ => ih _) (fun m _ => ih m) made
    cases m with
    | default ty readonly =>
      cases ty with
      | arith k => exact hT.pure trivial
      | array element size => exact hfill _ _ _
      | pointer _ _ | functionPointer _ => exact hT.pure trivial
      | struct name fields => exact hT.inspect_bind (fun _ _ => rfl) fun _ => ih _
      | void => exact hT.pure trivial
      | function _ | marker => exact hT.fail _ rfl
    | initial ty init readonly hint =>
      cases init with
      | expr e =>
        simp only [RunM.makeWithin]
        refine Sequential.ite (hT.visit e hint _) ?_
        exact hT.inspect_bind (fun _ _ => rfl) fun _ => hT.visit e _ _
      | list span items =>
        simp only [RunM.makeWithin]
        split
        · exact hT.fillArray _ _ _ _ _ _ _ (fun _ => ih _) fun _ _ _ => ih _
        · exact hT.inspect_bind (fun _ _ => rfl) fun _ => ih _
        · exact ih _
        · exact ih _
        · exact hT.fail _ rfl
        · exact hT.fail _ rfl
    | row ty items readonly hint =>
      cases ty with
      | array element size =>
        exact hT.fillArray _ _ _ _ _ _ _ (fun _ => ih _) fun _ _ _ => ih _
      | _ => exact hT.fail _ rfl
    | struct d items readonly hint =>
      simp only [RunM.makeWithin]
      exact hT.check (R := fun _ => True) (hT.fail _ rfl) (hfill _ _ _)
    | copy ty v readonly => exact hT.bind (hT.copy v ty) fun _ _ => hT.pure trivial
    | arrayOf ty v readonly =>
      cases ty with
      | array element size =>
        refine hT.bind (hT.elementsFrom v) fun source _ => ?_
        exact hT.check (R := fun _ => True) (hT.fail _ rfl) (hfill _ _ _)
      | _ => exact hT.fail _ rfl
    | nested => exact hT.fail _ rfl

section Make

variable (hm : ∀ m, T _ (make m) Progress.Proceeds)

include hm

theorem resumeFilling (f : Filling) (v : Value) : T _ (resumeFilling f v) Progress.Proceeds :=
  hT.fillNext _ (fun _ => hm _) (fun m _ => hm m) _

theorem makeArrayFrom (ty : Ty) (readonly : Bool) (v : Value) :
    T _ (makeArrayFrom ty readonly v) Progress.Proceeds :=
  Sequential.ite (hT.text_bind v fun _ => hT.bind (R := fun _ => True) (hT.fail _ rfl) fun _ _ => hm _) (hm _)

theorem makeOpen (element : Ty) (readonly : Bool) (v : Value) :
    T _ (makeOpen element readonly v) Progress.Proceeds :=
  hT.bind (hT.elementsFrom v) fun _ _ => hm _

end Make

end Plain

namespace Closed

variable {T : (α : Type) → RunM α → (α → Prop) → Prop} (hT : Closed T)

include hT

theorem storeIntoFirst (v : Value) (readonly : Bool) :
    (ty : Ty) → (array : Value) → T _ (storeIntoFirst v readonly ty array) fun _ => True
  | .array element _, array => by
    unfold RunM.storeIntoFirst
    split
    · exact hT.pure trivial
    · refine hT.inspect_bind (fun _ _ => rfl) fun first => ?_
      split
      · exact hT.pure trivial
      · refine Sequential.ite (storeIntoFirst v readonly element _) ?_
        refine hT.bind (hT.convert v _ false) fun converted _ => ?_
        exact hT.discard (hT.write fun _ hU => hU.init _ _)
  | .void, _ | .arith _, _ | .pointer .., _ | .struct .., _ => hT.pure trivial
  | .functionPointer _, _ | .function _, _ | .marker, _ => hT.pure trivial

theorem storeFirst (v : Value) (readonly : Bool) (array : Value) :
    T _ (storeFirst v readonly array) Progress.Proceeds :=
  hT.bind (hT.storeIntoFirst v readonly array.ty array) fun _ _ => hT.pure trivial

theorem makeSingle (hm : ∀ m, T _ (make m) Progress.Proceeds) (ty : Ty) (readonly : Bool) (v : Value) :
    T _ (makeSingle ty readonly v) Progress.Proceeds := by
  cases ty with
  | array element size =>
    refine Sequential.ite (hT.fillNext _ (fun _ => hm _) (fun m _ => hm m) _) (Sequential.ite ?_ (hT.text_bind v fun _ => hT.fail _ rfl))
    exact hT.bind (hm _) fun p hp => hT.andThen hp fun r => hT.storeFirst v readonly r
  | _ => exact hT.fail _ rfl

end Closed

namespace Sequential

variable {T : (α : Type) → RunM α → (α → Prop) → Prop} (hT : Sequential T)

include hT

theorem structMembers (name : String) (fields : List MemberDecl) (known : List MemberTy) :
    T _ (structMembers name fields known) fun _ => True := by
  induction fields generalizing known with
  | nil => exact hT.pure trivial
  | cons m rest ih =>
    refine hT.bind (hT.ask fun _ hU => hU.declared _ _) fun d _ => ?_
    refine hT.bind (hT.nameOf d _) fun memberName _ => ?_
    refine hT.check (R := fun _ => True) (hT.fail _ rfl) ?_
    exact hT.check (R := fun _ => True) (hT.fail _ rfl) (ih _)

end Sequential

namespace Plain

variable {T : (α : Type) → RunM α → (α → Prop) → Prop} (hT : Plain T)
  (hm : ∀ m, T _ (make m) Progress.Proceeds)

include hT hm

theorem openValue (name : String) (d : Declared) (init : Option Initializer) :
    T _ (openValue name d init) Progress.Proceeds := by
  unfold RunM.openValue
  split
  · exact hT.fail _ rfl
  · exact hm _
  · exact hT.visit _ none _
  · exact hT.fail _ rfl

theorem initialValue (name : String) (d : Declared) (init : Option Initializer) :
    T _ (initialValue name d init) Progress.Proceeds := by
  unfold RunM.initialValue
  split
  · exact hT.openValue hm name d _
  · exact hm _
  · exact hm _

end Plain

namespace Reading

variable {T : (α : Type) → RunM α → (α → Prop) → Prop} (hT : Reading T)

include hT

theorem stringCells (limits : LimitsTable) (kind : ArithKind) (text : List Char) :
    T _ (stringCells limits kind text) fun _ => True := by
  induction text with
  | nil => exact hT.pure trivial
  | cons c cs ih =>
    unfold RunM.stringCells
    refine hT.check (R := fun _ => True) (hT.fail _ rfl) ?_
    exact hT.bind ih fun _ _ => hT.pure trivial

theorem literal (l : Literal) : T _ (literal l) fun _ => True := by
  refine hT.read_bind fun c => ?_
  cases l with
  | int value radix unsigned long =>
    dsimp only
    split
    · exact hT.pure trivial
    · exact hT.fail _ rfl
  | string text width =>
    refine hT.bind (hT.stringCells _ _ _) fun cells _ => ?_
    exact hT.bind (hT.alloc _) fun _ _ => hT.pure trivial
  | _ => exact hT.pure trivial

theorem named (found : Option Value) (name : String) : T _ (named found name) fun _ => True := by
  cases found with
  | some v => exact hT.pure trivial
  | none => exact hT.fail _ rfl

theorem member (object : Value) (name : String) : T _ (member object name) fun _ => True := by
  refine hT.inspect_bind (fun _ _ => rfl) fun found => ?_
  split
  · exact hT.fail _ rfl
  · split
    · exact hT.fail _ rfl
    · refine hT.inspect_bind (fun _ _ => rfl) fun cell => ?_
      split
      · exact hT.pure trivial
      · exact hT.fail _ rfl
    · refine hT.get_bind (fun _ _ => rfl) fun s => ?_
      dsimp only
      split
      · exact hT.pure trivial
      · exact hT.fail _ rfl

section Results

variable {Q : Progress .value → Prop} (hq : ∀ v, Q (.done v))

include hq

theorem sizeValue (ty : Ty) : T _ (sizeValue ty) Q :=
  hT.bind (hT.ask fun _ hU => hU.byteSize ty) fun _ _ => hT.pure (hq _)

theorem applyTo {op : Operator} (hop : op.writes = false) (l r : Value) : T _ (applyTo op l r) Q :=
  hT.bind (hT.reads op hop l (some r)) fun _ _ => hT.pure (hq _)

theorem applyUnary {op : UnaryOp} (hop : (unaryOperator op).1.writes = false) (v : Value) :
    T _ (applyUnary op v) Q :=
  hT.bind (hT.reads _ hop v _) fun _ _ => hT.pure (hq _)

theorem memberOf (object : Value) (name : String) (throughPointer : Bool) :
    T _ (memberOf object name throughPointer) Q := by
  have hmember (object : Value) : T _ (do return .done (← RunM.member object name)) Q :=
    hT.bind (hT.member object name) fun _ _ => hT.pure (hq _)
  refine Sequential.ite ?_ ?_
  · exact hT.bind (hT.reads .deref rfl object none) fun object _ => hmember object
  · exact hT.bind (R := fun _ => True) (hT.pure trivial) fun object _ => hmember object

/-- A logical expression is decided, or its right operand is visited. -/
theorem decideLogical (op : LogicalOp) (right : Expr) (hint : Option StructTy) (l : Value)
    (hv : T _ (RunM.visit right hint (.one .truth)) Q) :
    T _ (decideLogical op right hint l) Q := by
  refine hT.bind (hT.condition l) fun holds _ => ?_
  cases op <;> cases holds
  · exact hT.pure (hq _)
  · exact hv
  · exact hv
  · exact hT.pure (hq _)

end Results

end Reading

namespace Quiet

variable {T : (α : Type) → RunM α → (α → Prop) → Prop} (hT : Quiet T)

include hT

theorem evaluate (hm : ∀ m, T _ (make m) Progress.Proceeds) (e : Expr) (hint : Option StructTy) :
    T _ (evaluate e hint) Progress.Proceeds := by
  cases e with
  | literal _ l => exact hT.bind (hT.literal l) fun _ _ => hT.pure trivial
  | identifier _ name =>
    refine hT.get_bind (fun _ _ => rfl) fun s => ?_
    exact hT.bind (hT.named _ name) fun _ _ => hT.pure trivial
  | qualified _ path =>
    refine hT.inspect_bind (fun _ _ => rfl) fun found => ?_
    exact hT.bind (hT.named _ _) fun _ _ => hT.pure trivial
  | binary _ op left right => exact hT.visit left hint _
  | logical _ op left right => exact hT.visit left hint _
  | assign _ op target value => exact hT.visit target hint _
  | comma _ left right => exact hT.visit left hint _
  | unary _ op operand => exact hT.visit operand hint _
  | conditional _ condition _ _ => exact hT.visit condition hint _
  | call _ f args => exact hT.visit f hint _
  | index _ base i => exact hT.visit base hint _
  | member _ object name _ => exact hT.visit object hint _
  | cast _ spec target operand =>
    exact hT.bind (hT.ask fun _ hU => hU.typeNamed spec target) fun _ _ => hT.visit operand hint _
  | sizeofType _ spec target =>
    exact hT.bind (hT.ask fun _ hU => hU.typeNamed spec target) fun ty _ => hT.sizeValue (fun _ => trivial) ty
  | sizeofExpr _ operand => exact hT.visit operand hint _
  | list _ items =>
    cases hint with
    | some d => exact hm _
    | none => exact hT.fail _ rfl

section Functions

theorem onNamespaces (f : Namespaces Place → Except String (Namespaces Place)) :
    T _ (onNamespaces f) fun _ => True := by
  refine hT.get_bind (fun _ _ => rfl) fun s => ?_
  split
  · refine hT.change ?_
    exact ⟨⟨fun _ => rfl, fun _ => rfl, fun _ _ => rfl⟩, fun _ => rfl, fun _ => rfl, fun _ => rfl⟩
  · exact hT.fail _ rfl

theorem declarePrototype (name : String) (type : FunctionTy) (params : List ParamInfo) :
    T _ (declarePrototype name type params) fun _ => True :=
  hT.bind (hT.register _) fun _ _ => hT.defineFunctionName name type

theorem defineFunction (f : FunctionDef) (owner : Owner) :
    T _ (defineFunction f owner) fun _ => True := by
  refine hT.bind (hT.ask fun _ hU => hU.declared _ _) fun d _ => ?_
  split
  · refine hT.bind (hT.nameOf d _) fun name _ => hT.check (R := fun _ => True) (hT.fail _ rfl) ?_
    refine hT.bind (hT.register _) fun _ _ => ?_
    exact Sequential.ite (hT.defineFunctionName _ _) (hT.pure trivial)
  · exact hT.fail _ rfl

end Functions

section Variables

theorem bindReference (name : String) (d : Declared) (v : Value) :
    T _ (bindReference name d v) fun _ => True := by
  unfold RunM.bindReference
  split
  · exact hT.declare name _
  · refine Sequential.ite ?_ (hT.text_bind v fun _ => hT.fail _ rfl)
    exact hT.bind (hT.copy v _) fun _ _ => hT.defineVariable name _

/-- A reference to a value, or a variable with a copy of it. -/
theorem bindDeclared (name : String) (d : Declared) (v : Value) :
    T _ (if d.reference = true then RunM.bindReference name d v
      else do
        RunM.defineVariable name
          ((← RunM.operate (OperatorM.copy v d.type)).withReadonly d.readonly)) fun _ => True :=
  Sequential.ite (hT.bindReference name d v) (hT.bind (hT.copy v _) fun _ _ => hT.defineVariable name _)

theorem bindValue (binding : Binding) (v : Value) : T _ (RunM.bind binding v) fun _ => True := by
  cases binding with
  | name name => exact hT.defineVariable name v
  | auto spec d =>
    refine hT.bind (hT.ask fun _ hU => hU.declarator _ _ d) fun declared _ => ?_
    exact hT.bind (hT.nameOf declared _) fun name _ => hT.bindDeclared name declared v
  | reference name d => exact hT.bindReference name d v

end Variables

section Declare

variable (hm : ∀ m, T _ (make m) Progress.Proceeds)

include hm

theorem declareOne (spec : TypeSpec) (item : InitDeclarator) :
    T _ (declareOne spec item) fun r => ∀ found ∈ r, found.2.Proceeds := by
  have hsome {x : RunM (Progress .value)} (binding : Binding) (hx : T _ x Progress.Proceeds) :
      T _ (do return some (binding, ← x)) fun r : Option (Binding × Progress .value) =>
        ∀ found ∈ r, found.2.Proceeds := by
    refine hT.bind hx fun p hp => hT.pure ?_
    rintro found ⟨⟩
    exact hp
  unfold RunM.declareOne
  split
  · split
    · exact hsome _ (hT.visit _ none _)
    · exact hT.fail _ rfl
    · exact hT.fail _ rfl
  · refine hT.bind (hT.ask fun _ hU => hU.declared spec _) fun d _ => ?_
    refine hT.bind (hT.nameOf d _) fun name _ => ?_
    split
    · refine hT.bind (hT.declarePrototype name _ _) fun _ _ => hT.pure ?_
      intro found hfound
      cases hfound
    · exact hsome _ (hT.visit _ none _)
    · exact hT.fail _ rfl
    · exact hsome _ (hT.initialValue hm name d _)

theorem declareAll (spec : TypeSpec) (items : List InitDeclarator) :
    T _ (declareAll spec items) Progress.Proceeds := by
  induction items with
  | nil => exact hT.pure trivial
  | cons item rest ih =>
    refine hT.bind (hT.declareOne hm spec item) fun r hr => ?_
    cases r with
    | none => exact ih
    | some r =>
      obtain ⟨binding, p⟩ := r
      refine hT.andThen (hr (binding, p) rfl) fun v => ?_
      exact hT.bind (hT.bindValue binding v) fun _ _ => ih

end Declare

section Structs

variable (hd : ∀ d, T _ (defineStruct d) fun _ => True)

include hd

theorem forwardDeclare (spec : TypeSpec) : T _ (forwardDeclare spec) fun _ => True := by
  unfold RunM.forwardDeclare
  split
  · exact hT.get_bind (fun _ _ => rfl) fun s => Sequential.ite (hd _) (hT.pure trivial)
  · exact hT.pure trivial

theorem defineStructType (name : String) (fields : List MemberDecl)
    (methods : List FunctionDef) :
    T _ (defineStructType name fields methods) fun _ => True := by
  refine hT.bind (hd _) fun _ _ => hT.bind (hT.structMembers name fields []) fun members _ => ?_
  exact hT.bind (hd _) fun _ _ => hT.forM fun m => hT.defineFunction m _

end Structs

end Quiet

namespace Closed

variable {T : (α : Type) → RunM α → (α → Prop) → Prop} (hT : Closed T)

include hT

theorem apply (op : Operator) (l : Value) (r : Option Value) :
    T _ (RunM.operate (op.apply l r)) fun _ => True :=
  hT.write fun _ hU => hU.apply op l r

theorem applyTo (op : Operator) (l r : Value) : T _ (applyTo op l r) Progress.Proceeds :=
  hT.bind (hT.apply op l (some r)) fun _ _ => hT.pure trivial

theorem applyUnary (op : UnaryOp) (v : Value) : T _ (applyUnary op v) Progress.Proceeds :=
  hT.bind (hT.apply _ v _) fun _ _ => hT.pure trivial

end Closed

end RunM

end Stepwise
