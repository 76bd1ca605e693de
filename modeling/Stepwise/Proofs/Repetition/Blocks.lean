import Stepwise.Proofs.Locality.ScopeDiscipline
import Stepwise.Proofs.Repetition.Prototypes

/-! # Definitions that are executed again

A block opens a scope whenever it is executed, be it in another round of a loop or in another
call, and works off its statements in it. What it accepted once it therefore accepts again.
-/

namespace Stepwise

/-! ## Scopes that are opened again

A scope begins empty, and the declarators that are worked off in it are the only ones to give it
names. What it holds is thus known from what was executed since it was opened, and a variable is
refused only if one of these declarators has given its name.
-/

section Scopes

namespace RunM

/-- The declarator is worked off. It declares a function, or its name, once that has a value. -/
inductive Declares (c : Config) (spec : TypeSpec) (item : InitDeclarator) (s : State) :
    Option String → State → Prop
  | function {t : State} (h : declareOne spec item c s = .ok none t) : Declares c spec item s none t
  | value {t u w : State} {binding : Binding} {p : Progress .value} {v : Value}
    {fs : List (Console → Console)} (h : declareOne spec item c s = .ok (some (binding, p)) u)
    (hv : drive fs p c u = .ok (.done v) w) (hb : bind binding v c w = .ok () t) :
    Declares c spec item s item.declarator.name? t

/-- The declarator is refused for an earlier definition, at once or when it has a value. -/
inductive Refused (c : Config) (spec : TypeSpec) (item : InitDeclarator) (s : State) : Prop
  | function {fault : Fault} {t : State} (h : declareOne spec item c s = .error fault t)
    (hf : fault.refuses = true)
  | value {fault : Fault} {t u w : State} {binding : Binding} {p : Progress .value} {v : Value}
    {fs : List (Console → Console)} (h : declareOne spec item c s = .ok (some (binding, p)) u)
    (hv : drive fs p c u = .ok (.done v) w) (hb : bind binding v c w = .error fault t)
    (hf : fault.refuses = true)

end RunM

/-- What is executed in a scope: a statement that gives it no names, or a declarator. -/
inductive Part
  | statement (s : Stmt)
  | declarator (spec : TypeSpec) (item : InitDeclarator)

/-- The name that a part may declare. -/
def Part.name? : Part → Option String
  | statement _ => none
  | declarator _ item => item.declarator.name?

namespace Stmt

/-- The statement is a declaration with declarators. -/
def declares : Stmt → Bool
  | .declaration _ decl => !decl.declarators.isEmpty
  | _ => false

/-- A statement as its parts. -/
def parts : Stmt → List Part
  | .declaration span ⟨spec, []⟩ => [.statement (.declaration span ⟨spec, []⟩)]
  | .declaration _ ⟨spec, items⟩ => items.map (.declarator spec)
  | s => [.statement s]

end Stmt

open RunM

variable {c : Config} {s t u : State}

/-- In a scope that was opened for them the parts were executed, one after the other, and gave it
the names. -/
inductive Performed (c : Config) : List Part → List String → State → Prop
  | opened (s : State) (name : String) :
    Performed c [] [] { s with scopes := s.scopes.push name }
  | steady {parts : List Part} {names : List String} {s t : State} (h : Performed c parts names s)
    (hst : s.Steady t) : Performed c parts names t
  /-- A condition or another expression of the statement that has opened the scope. -/
  | expression {parts : List Part} {names : List String} {s t : State} {e : Expr}
    {hint : Option StructTy} {v : Value} (h : Performed c parts names s)
    (he : (visit e hint .nil).Completes c s v t) : Performed c parts names t
  | statement {parts : List Part} {names : List String} {s t : State} {st : Stmt} {inSwitch : Bool}
    {flow : Flow} (h : Performed c parts names s) (hn : st.declares = false)
    (hst : (visitStmt st inSwitch .nil).Completes c s flow t) :
    Performed c (parts ++ [.statement st]) names t
  | declarator {parts : List Part} {names : List String} {s t : State} {spec : TypeSpec}
    {item : InitDeclarator} {name : Option String} (h : Performed c parts names s)
    (hd : Declares c spec item s name t) :
    Performed c (parts ++ [.declarator spec item]) (names ++ name.toList) t

/-- The innermost scope has the names. -/
def State.Holds (s : State) (names : List String) : Prop :=
  ∃ scope rest, s.scopes.inner = scope :: rest ∧ scope.entries.map Prod.fst = names

namespace State.Holds

variable {names : List String} {name : String} {p : Place}

theorem of_inner (h : s.Holds names) (ht : t.scopes.inner = s.scopes.inner) : t.Holds names := by
  obtain ⟨scope, rest, hi, hn⟩ := h
  exact ⟨scope, rest, ht.trans hi, hn⟩

theorem contains_iff (h : s.Holds names) : s.scopes.current.contains name = true ↔ name ∈ names := by
  obtain ⟨scope, rest, hi, rfl⟩ := h
  rw [Scopes.current, hi, List.headD_cons, Scope.contains, Scope.get?, ← any_eq_isSome_lookup]
  simp

theorem define? (h : s.Holds names) (ht : s.scopes.define? name p = some t.scopes) :
    t.Holds (names ++ [name]) := by
  obtain ⟨scope, rest, hi, rfl⟩ := h
  obtain ⟨-, ht⟩ := Option.ite_none_left_eq_some.mp ht
  rw [hi] at ht
  refine ⟨scope.add name p, rest, ?_, ?_⟩
  · rw [← Option.some.inj ht]
  · simp [Scope.add]

end State.Holds

section Holding

variable {spec : TypeSpec} {item : InitDeclarator} {names : List String} {name : Option String}

/-- While the value of a declarator is made, the scopes stay as they are. -/
theorem inner_of_declareOne {binding : Binding} {p : Progress .value} {v : Value}
    {fs : List (Console → Console)} (h : declareOne spec item c s = .ok (some (binding, p)) t)
    (hv : drive fs p c t = .ok (.done v) u) : u.scopes.inner = s.scopes.inner := by
  have hm := Surroundings.mirrors_declareOne (E := {}) (b := ⟨s, false⟩) (.of_outer rfl)
    (Footing.allows_start _) spec item c
  rw [h] at hm
  have hd := Surroundings.mirrors_drive fs hm.1 c
  rw [hv] at hd
  exact State.Keeps.inner_eq hd.1

/-- A declarator gives the innermost scope its name, unless it declares a function. -/
theorem RunM.Declares.holds (h : Declares c spec item s name t) (hs : s.Holds names) :
    t.Holds (names ++ name.toList) := by
  cases h with
  | function h =>
    have hm := Surroundings.mirrors_declareOne (E := {}) (b := ⟨s, false⟩) (.of_outer rfl)
      (Footing.allows_start _) spec item c
    rw [h] at hm
    rw [Option.toList_none, List.append_nil]
    exact hs.of_inner (State.Keeps.inner_eq hm.1)
  | @value t u w binding p v fs h hv hb =>
    have hn := Names.bind (c := c) (s := w) binding v
    unfold Names at hn
    rw [hb] at hn
    obtain ⟨name, p, hname, hd⟩ := hn
    rw [← name_of_declareOne h, hname]
    exact (hs.of_inner (inner_of_declareOne h hv)).define? hd

/-- A statement without declarators keeps the scopes. -/
theorem inner_of_statement {st : Stmt} {inSwitch : Bool} {flow : Flow} (hn : st.declares = false)
    (h : (visitStmt st inSwitch .nil).Completes c s flow t) : t.scopes.inner = s.scopes.inner := by
  cases hd : st.isDeclaration with
  | false => exact (((scope_discipline c s t).2.2 st inSwitch flow h).2.2.2 hd).inner
  | true =>
    cases st with
    | declaration span decl =>
      obtain ⟨spec, items⟩ := decl
      cases items with
      | cons item rest => cases hn
      | nil =>
        obtain ⟨s', u, hs, hx, hu⟩ := completes_execute h
        obtain ⟨_, w, hf, hrest⟩ := completes_bind hx
        have hm := Surroundings.local_forwardDeclare (E := {}) (s := s') spec c
        rw [hf] at hm
        obtain ⟨-, rfl⟩ := completes_done hrest
        rw [hu, hm.1.inner_eq, hs]
    | _ => cases hd

/-- The innermost scope has the names that were declared since it was opened. -/
theorem Performed.holds {parts : List Part} (h : Performed c parts names s) : s.Holds names := by
  induction h with
  | opened s name => exact ⟨_, _, rfl, rfl⟩
  | steady h hst ih => exact ih.of_inner (by rw [hst])
  | expression h he ih => exact ih.of_inner ((scope_discipline c _ _).1 _ _ _ he).inner
  | statement h hn hst ih => exact ih.of_inner (inner_of_statement hn hst)
  | declarator h hd ih => exact hd.holds ih

theorem RunM.Declares.evolves (h : Declares c spec item s name t) : s.Evolves c t := by
  cases h with
  | function h => exact after_ok h ▸ .declarator spec item .refl
  | @value t u w binding p v fs h hv hb =>
    have hu : s.Evolves c u := after_ok h ▸ .declarator spec item .refl
    have hw : s.Evolves c w := after_ok hv ▸ hu.drive fs p
    exact after_ok hb ▸ hw.bind binding v

/-- Every declarator that is among the parts was worked off after those before it. -/
theorem Performed.declared {parts before rest : List Part} (h : Performed c parts names t)
    (hp : parts = before ++ .declarator spec item :: rest) :
    ∃ names s name u, Performed c before names s ∧ Declares c spec item s name u ∧
      u.Evolves c t := by
  induction h generalizing rest with
  | opened => exact absurd hp (by simp)
  | steady _ hst ih =>
    obtain ⟨names, s, name, u, hs, hd, hu⟩ := ih hp
    exact ⟨names, s, name, u, hs, hd, hu.steady hst⟩
  | expression _ he ih =>
    obtain ⟨names, s, name, u, hs, hd, hu⟩ := ih hp
    exact ⟨names, s, name, u, hs, hd, hu.visit he⟩
  | statement _ hn hst ih =>
    rcases rest.eq_nil_or_concat with rfl | ⟨rest, last, rfl⟩
    · cases (List.append_inj' hp rfl).2
    · rw [List.concat_eq_append, ← List.cons_append, ← List.append_assoc] at hp
      obtain ⟨names, s, name, u, hs, hd, hu⟩ := ih (List.append_inj' hp rfl).1
      exact ⟨names, s, name, u, hs, hd, hu.visitStmt hst⟩
  | declarator h hd ih =>
    rcases rest.eq_nil_or_concat with rfl | ⟨rest, last, rfl⟩
    · obtain ⟨rfl, hlast⟩ := List.append_inj' hp rfl
      cases hlast
      exact ⟨_, _, _, _, h, hd, .refl⟩
    · rw [List.concat_eq_append, ← List.cons_append, ← List.append_assoc] at hp
      obtain ⟨names, s, name, u, hs, hd', hu⟩ := ih (List.append_inj' hp rfl).1
      exact ⟨names, s, name, u, hs, hd', hu.trans hd.evolves⟩

/-- Only declarators give names, each at most its own. -/
theorem Performed.sublist {parts : List Part} (h : Performed c parts names s) :
    names.Sublist (parts.filterMap Part.name?) := by
  induction h with
  | opened => exact .refl _
  | steady _ _ ih => exact ih
  | expression _ _ ih => exact ih
  | statement _ _ _ ih =>
    rw [List.filterMap_append]
    exact ih.trans (List.sublist_append_left _ _)
  | @declarator _ _ _ _ spec item name h hd ih =>
    rw [List.filterMap_append]
    refine ih.append ?_
    cases hd with
    | function => exact List.nil_sublist _
    | value => cases hn : item.declarator.name? <;> simp [Part.name?, hn]

end Holding

end Scopes

/-! ## Blocks that are executed again -/

open RunM

variable {c : Config} {s t u : State}

section Blocks

variable {parts : List Part} {names : List String}

/-- The declarators of a declaration that completes are worked off. -/
theorem Performed.declareAll {spec : TypeSpec} {items : List InitDeclarator} {flow : Flow}
    (h : Performed c parts names s) (hx : (declareAll spec items).Completes c s flow t) :
    ∃ names, Performed c (parts ++ items.map (.declarator spec)) names t := by
  induction items generalizing parts names s with
  | nil =>
    obtain ⟨-, rfl⟩ := completes_done hx
    exact ⟨names, by rwa [List.map_nil, List.append_nil]⟩
  | cons item rest ih =>
    obtain ⟨o, u, ho, hx⟩ := completes_bind hx
    have happ : parts ++ (item :: rest).map (.declarator spec) =
        parts ++ [.declarator spec item] ++ rest.map (.declarator spec) := by simp
    rw [happ]
    cases o with
    | none => exact ih (h.declarator (.function ho)) hx
    | some o =>
      obtain ⟨binding, p⟩ := o
      have hx : ((pure p : RunM (Progress .value)) >>= fun p =>
          p.andThen (.bind binding spec rest) fun v => do
            bind binding v
            RunM.declareAll spec rest).Completes c u flow t := by rwa [pure_bind]
      obtain ⟨v, w, ⟨fs, hv⟩, hx⟩ := completes_andThen (fun _ => rfl) hx
      obtain ⟨_, w', hb, hx⟩ := completes_bind hx
      exact ih (h.declarator (.value ho (by rwa [pure_bind] at hv) hb)) hx

/-- A statement that completes is executed part by part. -/
theorem Performed.visitStmt {st : Stmt} {inSwitch : Bool} {flow : Flow}
    (h : Performed c parts names s) (hx : (visitStmt st inSwitch .nil).Completes c s flow t) :
    ∃ names, Performed c (parts ++ st.parts) names t := by
  cases hd : st.declares with
  | false =>
    have hp : st.parts = [.statement st] := by
      cases st with
      | declaration span decl =>
        obtain ⟨spec, items⟩ := decl
        cases items with
        | nil => rfl
        | cons item rest => cases hd
      | _ => rfl
    exact ⟨names, hp ▸ h.statement hd hx⟩
  | true =>
    cases st with
    | declaration span decl =>
      obtain ⟨spec, items⟩ := decl
      cases items with
      | nil => cases hd
      | cons item rest =>
        obtain ⟨s', u, hs, hx, hu⟩ := completes_execute hx
        obtain ⟨names, hp⟩ := (h.steady hs).declareAll hx
        exact ⟨names, hp.steady hu⟩
    | _ => cases hd

/-- The statements of a block that ends normally are executed one after the other. -/
theorem Performed.runBlock {inSwitch : Bool} {statements : List Stmt}
    (h : Performed c parts names s)
    (hx : (runBlock inSwitch statements).Completes c s .normal t) :
    ∃ names u, Performed c (parts ++ statements.flatMap Stmt.parts) names u ∧ u.Evolves c t := by
  induction statements generalizing parts names s with
  | nil =>
    have hu := State.Evolves.refl.completes (fun _ ht => .frame .popScope .normal ht) hx
    exact ⟨names, s, by rwa [List.flatMap_nil, List.append_nil], hu⟩
  | cons st rest ih =>
    obtain ⟨flow, u, hst, hrest⟩ := completes_visitStmt hx
    obtain ⟨names, hp⟩ := h.visitStmt hst
    have hleave (hf : (leaveScope flow).Completes c u .normal t) : flow = .normal := by
      obtain ⟨_, _, -, hf⟩ := completes_bind hf
      exact (completes_done hf).1
    cases flow with
    | normal =>
      obtain ⟨names, w, hw, hu⟩ := ih hp hrest
      exact ⟨names, w, by rwa [List.flatMap_cons, ← List.append_assoc], hu⟩
    | _ => cases hleave hrest

/-- A block that ends normally has executed its statements in a scope of its own. -/
theorem performed_of_compound {span : Span} {statements : List Stmt} {inSwitch : Bool}
    (h : (visitStmt (.compound span statements) inSwitch .nil).Completes c s .normal t) :
    ∃ names u, Performed c (statements.flatMap Stmt.parts) names u ∧ u.Evolves c t := by
  obtain ⟨s', u, hs, hx, hu⟩ := completes_execute h
  obtain ⟨_, w, hw, hx⟩ := completes_bind hx
  cases hw
  obtain ⟨names, v, hv, hev⟩ := (Performed.opened (c := c) s' "CompoundStatement").runBlock hx
  exact ⟨names, v, hv, hev.steady hu⟩

end Blocks

/-- The declarator means the same type in both states, if it has a meaning in them. -/
def SameMeaning (c : Config) (spec : TypeSpec) (item : InitDeclarator) (s t : State) : Prop :=
  ∀ D E, ReadM.declared spec item.declarator (c, s) = .ok D →
    ReadM.declared spec item.declarator (c, t) = .ok E → E.type.named = D.type.named

section Again

variable {spec : TypeSpec} {item : InitDeclarator} {names names' : List String}
  {name : Option String}

/-- A function that was declared is not refused later. -/
theorem not_refused_of_function (h : declareOne spec item c s = .ok none t) (hu : t.Evolves c u)
    (hm : SameMeaning c spec item s u) : ¬Refused c spec item u := by
  obtain ⟨hauto, D, sig, x, hD, -⟩ := prototype_of_declareOne h
  have hagain {E : Declared} (hE : ReadM.declared spec item.declarator (c, u) = .ok E) :
      ∃ v, declareOne spec item c u = .ok none v := prototype_again h hu hD hE (hm D E hD hE)
  intro hr
  cases hr with
  | function h' hf =>
    obtain ⟨-, E, -, hE, -⟩ := function_of_refused h' hf
    obtain ⟨v, hv⟩ := hagain hE
    cases h'.symm.trans hv
  | value h' hv' hb hf =>
    obtain ⟨E, hE, -⟩ := not_function_of_declareOne h' hauto
    obtain ⟨v, hv⟩ := hagain hE
    cases h'.symm.trans hv

/-- A name that was declared is not refused in a scope with no more names. -/
theorem not_refused_of_value {w w' : State} {binding : Binding} {p : Progress .value} {v : Value}
    {fs : List (Console → Console)} (h : declareOne spec item c s = .ok (some (binding, p)) w)
    (hv : drive fs p c w = .ok (.done v) w') (hb : bind binding v c w' = .ok () t)
    (hs : s.Holds names) (hu : u.Holds names')
    (hn : item.declarator.name?.isSome = true → names' ⊆ names)
    (hm : SameMeaning c spec item s u) : ¬Refused c spec item u := by
  intro hr
  cases hr with
  | function h' hf =>
    obtain ⟨hauto, E, sig, hE, hty⟩ := function_of_refused h' hf
    obtain ⟨D, hD, hnot⟩ := not_function_of_declareOne h hauto
    have hnamed := hm D E hD hE
    rw [hty] at hnamed
    cases hd : D.type with
    | function sig' => exact hnot sig' hd
    | _ =>
      rw [hd] at hnamed
      cases hnamed
  | @value fault t' x x' binding' p' v' fs' h' hv' hb' hf =>
    -- The name is in the scope now, and was not when it was declared.
    have hrefused := Names.bind (c := c) (s := x') binding' v'
    unfold Names at hrefused
    rw [hb', name_of_declareOne h'] at hrefused
    obtain ⟨name', hname', hin⟩ := hrefused hf
    have hmem := ((hu.of_inner (inner_of_declareOne h' hv')).contains_iff).mp hin
    have hnamed := Names.bind (c := c) (s := w') binding v
    unfold Names at hnamed
    rw [hb, name_of_declareOne h] at hnamed
    obtain ⟨name, q, hname, hdefine⟩ := hnamed
    cases hname.symm.trans hname'
    have hold := hn (Option.isSome_iff_exists.mpr ⟨_, hname⟩) hmem
    have hnew := (Option.ite_none_left_eq_some.mp hdefine).1
    exact hnew (((hs.of_inner (inner_of_declareOne h hv)).contains_iff).mpr hold)

/-- A declarator that was accepted is not refused later, in a scope that has none but the names
which it had the first time. -/
theorem not_refused_again (hd : Declares c spec item s name t) (hu : t.Evolves c u)
    (hs : s.Holds names) (hu' : u.Holds names') (hn : name.isSome = true → names' ⊆ names)
    (hm : SameMeaning c spec item s u) : ¬Refused c spec item u := by
  cases hd with
  | function h => exact not_refused_of_function h hu hm
  | value h hv hb => exact not_refused_of_value h hv hb hs hu' hn hm

end Again

/-- Definitions can be executed again. Names of types and struct types without methods are never
refused. A declarator that was accepted is not refused later, whether it declares a function or a
name, as long as its words mean the same types and the scope in which a name is declared has no
more names by then. The names of a scope are those of the declarators that were worked off since
it was opened, and a block opens one whenever it is executed. -/
theorem definitions_again (c : Config) :
    ((∀ decl, (defineTypedefs decl).Tolerates) ∧
      ∀ name fields, (defineStructType name fields []).Tolerates) ∧
    (∀ parts parts' names names' spec item name s t u, Performed c parts names s →
      Declares c spec item s name t → t.Evolves c u → Performed c parts' names' u →
      (name.isSome = true → names' ⊆ names) → SameMeaning c spec item s u →
      ¬Refused c spec item u) ∧
    (∀ parts names s, Performed c parts names s →
      s.Holds names ∧ names.Sublist (parts.filterMap Part.name?)) ∧
    (∀ span statements inSwitch s t,
      (visitStmt (.compound span statements) inSwitch .nil).Completes c s .normal t →
      ∃ names u, Performed c (statements.flatMap Stmt.parts) names u ∧ u.Evolves c t) ∧
    (∀ before spec item rest names t,
      Performed c (before ++ .declarator spec item :: rest) names t →
      ∃ names s name u, Performed c before names s ∧ Declares c spec item s name u ∧
        u.Evolves c t) ∧
    ∀ (r : Run) moves, r.state.Evolves r.config (r.play moves).state := by
  refine ⟨⟨tolerates_defineTypedefs, tolerates_defineStructType⟩, ?_, ?_, ?_, ?_, ?_⟩
  · intro parts parts' names names' spec item name s t u hs hd hu hu' hn hm
    exact not_refused_again hd hu hs.holds hu'.holds hn hm
  · exact fun _ _ _ h => ⟨h.holds, h.sublist⟩
  · exact fun _ _ _ _ _ h => performed_of_compound h
  · exact fun _ _ _ _ _ _ h => h.declared rfl
  · exact fun r moves => r.evolves_play moves

def specOfInt : TypeSpec := ⟨[], ["int"], default⟩

/-- `one` -/
def itemOne : InitDeclarator := ⟨.mk default [] false (.named "one") [], none⟩

/-- `{ int one; }` -/
def blockOfInt : Stmt := .compound default [.declaration default ⟨specOfInt, [itemOne]⟩]

/-- The state in which the block begins its only statement. -/
def State.inBlock (s : State) : State := (resumePause (.stmt blockOfInt false)).after {} s

/-- The state after that statement, when the block is executed first. -/
def declaredInBlock : State := (declareAll specOfInt [itemOne]).after {} (State.inBlock {})

/-- The state after the block. -/
def afterBlock : State := (visitStmt blockOfInt false .nil >>= drive [id, id]).after {} {}

theorem definitions_again_of_int :
    (∃ names u, Performed {} [.declarator specOfInt itemOne] names u ∧ u.Holds names ∧
      ∃ names s name t, Performed {} [] names s ∧ Declares {} specOfInt itemOne s name t) ∧
    ¬Refused {} specOfInt itemOne afterBlock.inBlock := by
  obtain ⟨-, hagain, hholds, hblock, hdeclared, -⟩ := definitions_again {}
  have hopened (s : State) : Performed {} [] [] s.inBlock :=
    (Performed.opened s "CompoundStatement").steady (.setCursor _ _)
  refine ⟨?_, ?_⟩
  · have hfirst : (visitStmt blockOfInt false .nil).Completes {} {} .normal afterBlock :=
      ⟨[id, id], rfl⟩
    obtain ⟨names, u, hp, -⟩ := hblock _ _ false {} afterBlock hfirst
    obtain ⟨names', s, name, t, hs, hd, -⟩ := hdeclared [] specOfInt itemOne [] names u hp
    exact ⟨names, u, hp, (hholds _ _ _ hp).1, names', s, name, t, hs, hd⟩
  · let zero : Progress .value := .done (.int .int 0)
    have hdrive : drive [] zero {} (State.inBlock {}) = .ok zero (State.inBlock {}) := rfl
    have hd : Declares {} specOfInt itemOne (State.inBlock {}) (some "one") declaredInBlock :=
      .value rfl hdrive rfl
    have hleft : declaredInBlock.Evolves {} afterBlock :=
      .steady (.frame (.block [] false) .normal .refl) rfl
    have hmeans (s : State) (hs : s = State.inBlock {} ∨ s = afterBlock.inBlock) :
        ReadM.declared specOfInt itemOne.declarator ({}, s) =
          .ok ⟨some "one", .int, false, false, false, []⟩ := by
      rcases hs with rfl | rfl <;> rfl
    refine hagain [] [] [] [] _ _ _ _ _ _ (hopened {}) hd (.pause _ hleft) (hopened afterBlock)
      (fun _ => List.Subset.refl _) fun D E hD hE => ?_
    cases (hmeans _ (.inl rfl)).symm.trans hD
    cases (hmeans _ (.inr rfl)).symm.trans hE
    rfl

/-- The program was stopped because it defined something again. -/
def Run.refuses (r : Run) : Bool :=
  match r.rest with
  | .ended (.error fault) => fault.refuses
  | _ => false

/-- `int main() { int n = 0; loop return n; }` -/
def Program.ofLoop (loop : Stmt) : Program where
  includes := []
  items :=
    let n : Expr := .identifier default "n"
    [.function default (.mk specOfInt (.mk default [] false (.named "main") [.params [] false])
      (.compound default
        [.declaration default ⟨specOfInt, [⟨.mk default [] false (.named "n") [],
            some (.expr (.literal default (.int 0 10 false false)))⟩]⟩,
          loop, .returnJump default (some n)]))]

/-- `while (n < 2) body` -/
def whileLess (body : Stmt) : Stmt :=
  .whileLoop default (.binary default .lt (.identifier default "n")
    (.literal default (.int 2 10 false false))) body

/-- `n++` -/
def increment : Expr := .unary default .postInc (.identifier default "n")

/-- `{ struct S { int f() { return 1; } }; n++; }` -/
def blockOfMethod : Stmt :=
  .compound default
    [.struct default "S" [] [.mk specOfInt (.mk default [] false (.named "f") [.params [] false])
        (.compound default
          [.returnJump default (some (.literal default (.int 1 10 false false)))])],
      .expression default (some increment)]

/-- `int x = n++;` -/
def declarationOfX : Stmt :=
  .declaration default ⟨specOfInt,
    [⟨.mk default [] false (.named "x") [], some (.expr increment)⟩]⟩

/-- Methods are refused when their struct is defined again, and a loop without a block has one scope
for all its rounds. Without methods, and with a block, both programs end. -/
theorem definition_refused_again :
    let run (body : Stmt) (n : Nat) : Run :=
      (Run.ofProgram {} (.ofLoop (whileLess body)) {} {}).steps n
    (run blockOfMethod 40).refuses = true ∧ (run declarationOfX 40).refuses = true ∧
      (run (.compound default [.struct default "S" [] [], .expression default (some increment)])
        60).exitStatus? = some 2 ∧
      (run (.compound default [declarationOfX]) 60).exitStatus? = some 2 := by
  decide +kernel

end Stepwise
