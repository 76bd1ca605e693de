import Stepwise.Machine.Declare
import Stepwise.Machine.Expression
import Stepwise.Proofs.Closure.Questions
import Stepwise.Proofs.Locality.Calls
import Stepwise.Proofs.Locality.Mirrors

/-! # Expressions and declarations in other surroundings

What a declarator means depends on names in view and on type names, and on nothing else in the
surroundings. An expression leaves the scopes as they are, and looks up names in those of its frame.
A declaration adds the names of variables to the innermost scope. Functions enter the global scope by
their names, and types are kept apart from the scopes.
-/

namespace Stepwise

section Declarators

open RunM

variable {E : Surroundings} {α : Type} {s : State}

/-- The answer is the same in the surroundings. -/
def ReadM.Unaware (E : Surroundings) (x : ReadM α) : Prop :=
  ∀ c s, E.Admits s → x (E.config c, E.state s) = x (c, s)

namespace ReadM

/-- Names in view stand for the same in the surroundings, and so does what is made of them. -/
theorem closed_unaware : Closed fun _ x => x.Unaware E where
  pure _ := fun _ _ _ => rfl
  bind {_ _ x f} hx hf := by
    intro c s h
    simp only [Bind.bind, ReaderT.bind, Except.bind, hx c s h]
    cases x (c, s) with
    | error e => rfl
    | ok a => exact hf a c s h
  fail _ _ := fun _ _ _ => rfl
  read_bind {_ f} he hf := by
    intro c s h
    have ha : Alike (c, s) (E.config c, E.state s) :=
      ⟨rfl, rfl, rfl, rfl, fun name => Surroundings.value?_state h name⟩
    change f (E.config c, E.state s) (E.config c, E.state s) = f (c, s) (c, s)
    rw [he _ _ ha]
    exact hf (c, s) c s h

end ReadM

namespace Surroundings

theorem local_ask {x : ReadM α} (hx : x.Unaware E) (ha : E.Admits s) :
    E.Local s (ask x) fun _ t => t = s := by
  intro c
  simp only [ask, hx c s ha]
  cases x (c, s) with
  | ok a => exact ⟨rfl, rfl⟩
  | error f => exact .inr rfl

end Surroundings

end Declarators

open RunM

namespace Surroundings

variable {E : Surroundings} {s : State} {b : Footing}

section Values

theorem local_stringCells (limits : LimitsTable) (kind : ArithKind) (text : List Char) :
    E.Local s (stringCells limits kind text) fun _ t => t = s := by
  induction text with
  | nil => exact .pure rfl rfl
  | cons c cs ih =>
    unfold stringCells
    exact .check .fail (.query_bind ih fun _ => .pure rfl rfl)

theorem local_literal (l : Literal) : E.Local s (literal l) fun _ t => s.Keeps t := by
  refine .read_bind (fun _ => rfl) fun c => ?_
  cases l with
  | int value radix unsigned long =>
    dsimp only
    split
    · exact .pure rfl (.refl s)
    · exact .fail
  | string text width =>
    refine .query_bind (local_stringCells _ _ _) fun cells => ?_
    exact .bind (local_alloc _) fun _ _ ht => .pure rfl ht
  | _ => exact .pure rfl (.refl s)

theorem local_named (found : Option Value) (name : String) :
    E.Local s (named found name) fun _ t => t = s := by
  cases found with
  | some v => exact .pure rfl rfl
  | none => exact .fail

theorem local_member (object : Value) (name : String) :
    E.Local s (member object name) fun _ t => t = s := by
  refine .inspect_bind rfl ?_
  split
  · exact .fail
  · split
    · exact .fail
    · refine .inspect_bind rfl ?_
      split
      · exact .pure rfl rfl
      · exact .fail
    · refine .get_bind rfl ?_
      dsimp only
      split
      · exact .pure rfl rfl
      · exact .fail

theorem follows_applyTo (hs : b.Allows s) (op : Operator) (l r : Value) :
    E.Follows b s (applyTo op l r) :=
  .bind (local_operate (OperatorM.closed_conservative.apply op l (some r))) fun _ _ ht =>
    .pure rfl (hs.keeps ht)

theorem follows_applyUnary (hs : b.Allows s) (op : UnaryOp) (v : Value) :
    E.Follows b s (applyUnary op v) :=
  .bind (local_operate (OperatorM.closed_conservative.apply _ v _)) fun _ _ ht =>
    .pure rfl (hs.keeps ht)

theorem follows_memberOf (hs : b.Allows s) (object : Value) (name : String)
    (throughPointer : Bool) : E.Follows b s (memberOf object name throughPointer) := by
  have hmember (object : Value) (t : State) (ht : b.Allows t) :
      E.Follows (k := .value) b t (do return .done (← member object name)) :=
    .query_bind (local_member object name) fun _ => .pure rfl ht
  refine .ite ?_ (.query_bind (.pure rfl rfl) fun object => hmember object s hs)
  have hd := OperatorM.closed_conservative.apply .deref object none
  exact .bind (local_operate hd) fun object t ht => hmember object t (hs.keeps ht)

end Values

section Evaluate

variable (ha : E.Admits b.start) (hs : b.Allows s)

include ha hs

theorem follows_sizeValue (ty : Ty) : E.Follows b s (sizeValue ty) :=
  .bind (local_ask (ReadM.closed_unaware.byteSize ty) (ha.allows hs)) fun _ _ ht =>
    .pure rfl (ht ▸ hs)

/-- An expression that is visited on the way, and a frame of an expression for its value. -/
theorem follows_operand (e : Expr) (hint : Option StructTy) {frame : Frame .value .value}
    (hu : frame.under E.outer.length = frame) (hr : frame.Rests E ⟨s, false⟩ b) :
    E.Follows b s (visit e hint (.one frame)) :=
  follows_visit e hint (ha.allows hs) (by rw [Frames.one, Frames.under_cons, hu]; rfl) (.one hr)

theorem follows_evaluate (e : Expr) (hint : Option StructTy) :
    E.Follows b s (evaluate e hint) := by
  have hflat : E.Admits b.start ∧ (false = true → b.declares = true) ∧ b.Covers ⟨s, false⟩ :=
    ⟨ha, nofun, .of_allows hs⟩
  cases e with
  | literal _ l => exact .bind (local_literal l) fun _ _ ht => .pure rfl (hs.keeps ht)
  | identifier _ name =>
    refine .get_bind (by rw [value?_state (ha.allows hs)]) ?_
    exact .query_bind (local_named _ name) fun _ => .pure rfl hs
  | qualified _ path =>
    exact .inspect_bind rfl (.query_bind (local_named _ _) fun _ => .pure rfl hs)
  | binary _ op left right => exact follows_operand ha hs left hint rfl hflat
  | logical _ op left right => exact follows_operand ha hs left hint rfl hflat
  | assign _ op target value => exact follows_operand ha hs target hint rfl hflat
  | comma _ left right => exact follows_operand ha hs left hint rfl hflat
  | unary _ op operand => exact follows_operand ha hs operand hint rfl hflat
  | conditional _ condition _ _ => exact follows_operand ha hs condition hint rfl hflat
  | call _ f args => exact follows_operand ha hs f hint rfl hflat
  | index _ base i => exact follows_operand ha hs base hint rfl hflat
  | member _ object name _ => exact follows_operand ha hs object hint rfl hflat
  | cast _ spec target operand =>
    have hu : (ReadM.typeNamed spec target).Unaware E :=
      ReadM.closed_unaware.typeNamed spec target
    refine .query_bind (local_ask hu (ha.allows hs)) fun ty => ?_
    exact follows_operand ha hs operand hint rfl hflat
  | sizeofType _ spec target =>
    have hu : (ReadM.typeNamed spec target).Unaware E :=
      ReadM.closed_unaware.typeNamed spec target
    refine .query_bind (local_ask hu (ha.allows hs)) fun ty => ?_
    exact follows_sizeValue ha hs ty
  | sizeofExpr _ operand => exact follows_operand ha hs operand hint rfl hflat
  | list _ items =>
    cases hint with
    | some d => exact follows_make ha _ hs
    | none => exact .fail

theorem follows_decideLogical (op : LogicalOp) (right : Expr) (hint : Option StructTy)
    (l : Value) : E.Follows b s (decideLogical op right hint l) := by
  refine .bind (local_operate (OperatorM.closed_conservative.condition l)) fun holds t ht => ?_
  have ht : b.Allows t := hs.keeps ht
  cases op <;> cases holds
  · exact .pure rfl ht
  · exact follows_operand ha ht right hint rfl ⟨ha, nofun, .of_allows ht⟩
  · exact follows_operand ha ht right hint rfl ⟨ha, nofun, .of_allows ht⟩
  · exact .pure rfl ht

theorem follows_nextArgument (f : Value) (values : List Value) (hint : Option StructTy)
    (args : List Expr) : E.Follows b s (nextArgument f values hint args) := by
  cases args with
  | nil => exact follows_call hs f _
  | cons e rest => exact follows_operand ha hs e hint rfl ⟨ha, nofun, .of_allows hs⟩

end Evaluate

section Types

theorem local_nameOf (d : Declared) (what : String) :
    E.Local s (nameOf d what) fun _ t => t = s := by
  unfold nameOf
  split
  · exact .pure rfl rfl
  · exact .fail

theorem local_defineStruct (d : StructTy) : E.Local s (defineStruct d) fun _ t => s.Keeps t :=
  local_modify rfl rfl rfl

theorem local_forwardDeclare (spec : TypeSpec) :
    E.Local s (forwardDeclare spec) fun _ t => s.Keeps t := by
  unfold forwardDeclare
  split
  · exact .get_bind rfl (.ite (local_defineStruct _) (.pure rfl (.refl s)))
  · exact .pure rfl (.refl s)

theorem local_onNamespaces (f : Namespaces Place → Except String (Namespaces Place)) :
    E.Local s (onNamespaces f) fun _ t => s.Keeps t := by
  refine .get_bind rfl ?_
  split
  · exact local_modify rfl rfl rfl
  · exact .fail

theorem local_declarePrototype (name : String) (type : FunctionTy) (params : List ParamInfo) :
    E.Local s (declarePrototype name type params) fun _ t => s.Keeps t := by
  refine .bind (local_register _) fun _ t ⟨ht, hn⟩ => ?_
  exact (local_defineFunctionName (hn rfl) type).mono fun _ _ hu => ht.keeps hu

variable (ha : E.Admits s)

include ha

theorem local_defineFunction (f : FunctionDef) (owner : Owner) :
    E.Local s (defineFunction f owner) fun _ t => s.Keeps t := by
  refine .query_bind (local_ask (ReadM.closed_unaware.declared _ _) ha) fun d => ?_
  split
  · refine .query_bind (local_nameOf d _) fun name => .check .fail ?_
    refine .bind (local_register _) fun _ t ⟨ht, hn⟩ => ?_
    split
    · exact (local_defineFunctionName (hn ‹_›) _).mono fun _ _ hu => ht.keeps hu
    · exact .pure rfl ht
  · exact .fail

theorem local_structMembers (name : String) (fields : List MemberDecl) (known : List MemberTy) :
    E.Local s (structMembers name fields known) fun _ t => t = s := by
  induction fields generalizing known with
  | nil => exact .pure rfl rfl
  | cons m rest ih =>
    refine .query_bind (local_ask (ReadM.closed_unaware.declared _ _) ha) fun d => ?_
    refine .query_bind (local_nameOf d _) fun memberName => .check .fail ?_
    exact .check .fail (ih _)

theorem local_defineStructType (name : String) (fields : List MemberDecl)
    (methods : List FunctionDef) :
    E.Local s (defineStructType name fields methods) fun _ t => s.Keeps t := by
  refine .bind (local_defineStruct _) fun _ t ht => ?_
  refine .query_bind (local_structMembers (ha.above ht) name fields []) fun members => ?_
  refine .bind (local_defineStruct _) fun _ u hu => ?_
  refine .forM (ht.keeps hu) fun m _ w hw => ?_
  exact (local_defineFunction (ha.above hw) m _).mono fun _ _ hx => hw.keeps hx

theorem local_defineTypedefs (decl : Declaration) :
    E.Local s (defineTypedefs decl) fun _ t => s.Keeps t := by
  refine .query_bind (local_ask (ReadM.closed_unaware.baseType _) ha) fun base => ?_
  refine .bind (.forIn (I := s.Keeps) (.refl s) fun item _ t ht => ?_) fun _ t ht => .pure rfl ht
  refine .query_bind (local_ask (ReadM.closed_unaware.declarator _ _ _) (ha.above ht)) fun d => ?_
  refine .query_bind (local_nameOf d _) fun name => ?_
  exact .bind (local_modify rfl rfl rfl) fun _ u hu => .pure rfl ⟨rfl, ht.keeps hu⟩

end Types

section Variables

variable (ha : E.Admits s)

include ha

theorem local_bindReference (name : String) (d : Declared) (v : Value) :
    E.Local s (bindReference name d v) fun _ t => s.Gains t := by
  unfold bindReference
  split
  · exact local_declare ha name _
  · refine .ite ?_ (.query_bind (local_text v) fun _ => .fail)
    refine .bind (local_operate (OperatorM.closed_conservative.copy v _)) fun _ t ht => ?_
    exact (local_defineVariable (ha.above ht) name _).mono fun _ _ hu =>
      (State.Gains.of_keeps ht).trans hu

/-- A reference to a value, or a variable with a copy of it. -/
theorem local_bindDeclared (name : String) (d : Declared) (v : Value) :
    E.Local s (if d.reference = true then bindReference name d v
      else do defineVariable name ((← operate (OperatorM.copy v d.type)).withReadonly d.readonly))
      fun _ t => s.Gains t := by
  refine .ite (local_bindReference ha name d v) ?_
  refine .bind (local_operate (OperatorM.closed_conservative.copy v _)) fun _ t ht => ?_
  exact (local_defineVariable (ha.above ht) name _).mono fun _ _ hu =>
    (State.Gains.of_keeps ht).trans hu

theorem local_bindAuto (spec : TypeSpec) (d : Declarator) (v : Value) :
    E.Local s (bindAuto spec d v) fun _ t => s.Gains t := by
  refine .query_bind (local_ask (ReadM.closed_unaware.declarator _ _ d) ha) fun declared => ?_
  exact .query_bind (local_nameOf declared _) fun name => local_bindDeclared ha name declared v

theorem local_bind (binding : Binding) (v : Value) :
    E.Local s (bind binding v) fun _ t => s.Gains t := by
  cases binding with
  | name name => exact local_defineVariable ha name v
  | auto spec d => exact local_bindAuto ha spec d v
  | reference name d => exact local_bindReference ha name d v

end Variables

section Declare

variable (ha : E.Admits b.start) (hs : b.Allows s)

include ha hs

theorem follows_openValue (name : String) (d : Declared) (init : Option Initializer) :
    E.Follows b s (openValue name d init) := by
  unfold openValue
  split
  · exact .fail
  · exact follows_make ha _ hs
  · exact follows_operand ha hs _ none rfl ⟨ha, nofun, .of_allows hs⟩
  · exact .fail

theorem follows_initialValue (name : String) (d : Declared) (init : Option Initializer) :
    E.Follows b s (initialValue name d init) := by
  unfold initialValue
  split
  · exact follows_openValue ha hs name d _
  · exact follows_make ha _ hs
  · exact follows_make ha _ hs

theorem mirrors_declareOne (spec : TypeSpec) (item : InitDeclarator) :
    E.Mirrors (Option.map (Prod.map id E.progress)) s (declareOne spec item)
      (declareOne spec item) fun r t =>
        match r with
        | none => b.Allows t
        | some (_, p) => p.At E b t := by
  have hvisit (e : Expr) : E.Follows b s (visit e none .nil) :=
    follows_visit e none (ha.allows hs) rfl (.nil (.of_allows hs))
  refine .ite ?_ ?_
  · split
    · exact .bind_lift (hvisit _) fun p t hp => .pure rfl hp
    · exact .fail
    · exact .fail
  · refine .query_bind (local_ask (ReadM.closed_unaware.declared spec _) (ha.allows hs)) fun d => ?_
    refine .query_bind (local_nameOf d _) fun name => ?_
    split
    · exact .bind (local_declarePrototype name _ _) fun _ t ht => .pure rfl (hs.keeps ht)
    · exact .bind_lift (hvisit _) fun p t hp => .pure rfl hp
    · exact .fail
    · exact .bind_lift (follows_initialValue ha hs name d _) fun p t hp => .pure rfl hp

end Declare

section Declaration

variable (ha : E.Admits b.start) (hb : b.declares = true)

include ha hb

theorem follows_declareAll (spec : TypeSpec) (items : List InitDeclarator) (hs : b.Allows s) :
    E.Follows b s (declareAll spec items) := by
  induction items generalizing s with
  | nil => exact .pure rfl hs
  | cons item rest ih =>
    refine .bind_lift (mirrors_declareOne ha hs spec item) fun r t hr => ?_
    cases r with
    | none => exact ih hr
    | some r =>
      obtain ⟨binding, p⟩ := r
      refine mirrors_andThen hr ⟨ha, fun _ => hb, .refl b⟩ fun v ht => ?_
      exact .bind (local_bind (ha.allows ht) binding v) fun _ u hu => ih (ht.gains hb hu)

theorem follows_declaration (decl : Declaration) (hs : b.Allows s) :
    E.Follows b s (declaration decl) := by
  refine .ite ?_ (follows_declareAll ha hb _ _ hs)
  exact .bind (local_forwardDeclare _) fun _ t ht => follows_declareAll ha hb _ _ (hs.keeps ht)

end Declaration

end Surroundings

end Stepwise
