import Stepwise.Machine.Declare
import Stepwise.Session.Run
import Stepwise.Proofs.Closure.Frames
import Stepwise.Proofs.Closure.Questions
import Stepwise.Proofs.Declarator.Resolving
import Stepwise.Proofs.Overload.Tables

/-! # Names of types

A typedef names the type that its declarator gives. A use of the name declares what the
declarator of the typedef declares with the declarator of the use in place of its name, as
long as the type is all that the typedef gives: constness, a reference mark and an open bound
are not part of the name.
-/

namespace Stepwise

/-- What is declared, without the names and the defaults of parameters. -/
def Declared.entity (d : Declared) : Declared := { d with params := [] }

/-- All that the declarator gives is a type. -/
def Declared.isType (d : Declared) : Bool := !d.readonly && !d.reference && !d.openBound

namespace Declarator

/-- Pointer marks, the last one of which is constant if it is to be. -/
def constLast (isConst : Bool) : List Bool → List Bool
  | [] => []
  | [mark] => [isConst || mark]
  | mark :: marks => mark :: constLast isConst marks

/-- The declarator behind marks and before suffixes, from which parentheses keep its own marks
away. -/
def between (span : Span) (marks : List Bool) (suffixes : List DeclaratorSuffix) (d : Declarator) :
    Declarator :=
  if d.isMarked && !suffixes.isEmpty then .mk span marks false (.nested d) suffixes
  else
    match d with
    | .mk _ marks' reference base suffixes' =>
      .mk span (marks ++ marks') reference base (suffixes' ++ suffixes)

/-- The declarator with `d` in place of its name. If the use is constant, so is the pointer that the
name stands for. -/
def plug : Declarator → (isConst : Bool) → (d : Declarator) → Declarator
  | .mk span marks reference (.nested inner) suffixes, isConst, d =>
    .mk span marks reference (.nested (inner.plug isConst d)) suffixes
  | .mk span marks _ (.named _) suffixes, isConst, d
  | .mk span marks _ .anonymous suffixes, isConst, d =>
    d.between span (constLast isConst marks) suffixes

/-- The name stands for a pointer, or for an array or a function of pointers. -/
def takesConst : Declarator → Bool
  | .mk _ _ _ (.nested inner) _ => inner.takesConst
  | .mk _ marks _ (.named _) _ | .mk _ marks _ .anonymous _ => !marks.isEmpty

/-- The suffixes right behind the name. -/
def nameSuffixes : Declarator → List DeclaratorSuffix
  | .mk _ _ _ (.nested inner) _ => inner.nameSuffixes
  | .mk _ _ _ (.named _) suffixes | .mk _ _ _ .anonymous suffixes => suffixes

/-- The name is not in parentheses. -/
def isDirect : Declarator → Bool
  | .mk _ _ _ (.nested _) _ => false
  | _ => true

end Declarator

/-- The specifier of a typedef in place of the name that a use has for its type; `const` stands with
the pointer marks if the declarator takes it there. -/
def TypeSpec.inPlace (use spec : TypeSpec) (d : Declarator) : TypeSpec :=
  { use with
    specifiers := (if d.takesConst then use.specifiers.filter (· != "const") else use.specifiers) ++
      spec.specifiers
    words := spec.words }

namespace ReadM

variable {q : Config × State} {ty ty' : Ty}

/-- Computations that come to the same but for what `g` drops. -/
theorem map_bind_eq {α β γ δ : Type} {x y : ReadM α} {f : α → γ} {k l : α → ReadM β} {g : β → δ}
    (h : (x q).map f = (y q).map f)
    (hk : ∀ a b, f a = f b → (k a q).map g = (l b q).map g) :
    ((x >>= k) q).map g = ((y >>= l) q).map g := by
  change ((x q).bind fun a => k a q).map g = ((y q).bind fun a => l a q).map g
  cases hx : x q with
  | error fault =>
    rw [hx] at h
    cases hy : y q with
    | error fault' =>
      rw [hy] at h
      cases h
      rfl
    | ok b =>
      rw [hy] at h
      cases h
  | ok a =>
    rw [hx] at h
    cases hy : y q with
    | error fault' =>
      rw [hy] at h
      cases h
    | ok b =>
      rw [hy] at h
      exact hk a b (Except.ok.inj h)

section Marks

theorem pointed_append (marks marks' : List Bool) (ty : Ty) (isConst : Bool) :
    pointed (marks ++ marks') ty isConst isConst =
      pointed marks' (pointed marks ty isConst isConst).1 (pointed marks ty isConst isConst).2
        (pointed marks ty isConst isConst).2 := by
  induction marks generalizing ty isConst with
  | nil => rfl
  | cons mark marks ih => cases ty <;> exact ih _ mark

/-- A constant last mark makes a constant pointer. -/
theorem pointed_constLast {marks : List Bool} (hm : marks ≠ []) (isConst : Bool) (ty : Ty)
    (constTarget readonly : Bool) :
    pointed (Declarator.constLast isConst marks) ty constTarget readonly =
      ((pointed marks ty constTarget readonly).1,
        isConst || (pointed marks ty constTarget readonly).2) := by
  induction marks generalizing ty constTarget readonly with
  | nil => exact absurd rfl hm
  | cons mark marks ih =>
    cases marks with
    | nil => cases ty <;> rfl
    | cons next marks => cases ty <;> exact ih (List.cons_ne_nil next marks) _ _ _

end Marks

section Suffixes

variable {ss : List DeclaratorSuffix} {params : List ParamInfo}

/-- Whether something stands before suffixes matters only to an open bound. -/
theorem suffixes_first (h : suffixes ty true ss q = .ok (ty', false, params)) (first : Bool) :
    suffixes ty first ss q = .ok (ty', false, params) := by
  match ss with
  | [] => exact h
  | .array (some size) :: rest => exact h
  | .params ps variadic :: rest => exact h
  | .array none :: rest =>
    rw [suffixes] at h
    obtain ⟨r, -, h⟩ := of_bind_eq_ok h
    cases h

/-- Suffixes that stand before others are applied after them. -/
theorem suffixes_append (h : suffixes ty true ss q = .ok (ty', false, params)) (first : Bool)
    (before : List DeclaratorSuffix) :
    (suffixes ty first (before ++ ss) q).map (fun r => (r.1, r.2.1)) =
      (suffixes ty' first before q).map fun r => (r.1, r.2.1) := by
  induction before generalizing first with
  | nil =>
    rw [List.nil_append, suffixes_first h first]
    rfl
  | cons suffix before ih =>
    rw [List.cons_append]
    cases suffix with
    | array size =>
      cases size with
      | some size =>
        rw [suffixes, suffixes]
        refine map_bind_eq (ih false) ?_
        rintro ⟨element, openBound, _⟩ ⟨_, _, _⟩ ⟨⟩
        refine map_bind_eq (f := id) rfl ?_
        rintro bound _ rfl
        refine map_bind_eq (f := id) rfl ?_
        rintro array _ rfl
        rfl
      | none =>
        rw [suffixes, suffixes]
        refine map_bind_eq (ih false) ?_
        rintro ⟨element, openBound, _⟩ ⟨_, _, _⟩ ⟨⟩
        cases first <;> rfl
    | params ps variadic =>
      rw [suffixes, suffixes]
      refine map_bind_eq (ih false) ?_
      rintro ⟨ret, openBound, _⟩ ⟨_, _, _⟩ ⟨⟩
      rfl

end Suffixes

section Declarators

variable {d : Declared} {isConst : Bool}

theorem map_apply {α β : Type} (f : α → β) (x : ReadM α) : (f <$> x) q = (x q).map f := rfl

/-- What a declarator makes of a type under marks and suffixes. -/
def direct (readonly reference : Bool) (base : DeclaratorBase) (r : Ty × Bool × List ParamInfo) :
    ReadM Declared :=
  match base with
  | .named name => return ⟨some name, r.1, readonly, reference, r.2.1, r.2.2⟩
  | .anonymous => return ⟨none, r.1, readonly, reference, r.2.1, r.2.2⟩
  | .nested d => do
    let declared ← declarator r.1 false d
    return { declared with
      reference := declared.reference || reference
      openBound := declared.openBound || r.2.1 }

theorem declarator_eq (ty : Ty) (isConst : Bool) (span : Span) (marks : List Bool)
    (reference : Bool) (base : DeclaratorBase) (ss : List DeclaratorSuffix) :
    declarator ty isConst (.mk span marks reference base ss) = (do
      let r ← suffixes (pointed marks ty isConst isConst).1 true ss
      direct (pointed marks ty isConst isConst).2 reference base r) := by
  rw [declarator]
  refine bind_congr fun r => ?_
  cases base <;> rfl

/-- What is declared does not depend on parameters, but for their names and defaults. -/
theorem entity_direct (readonly reference : Bool) (base : DeclaratorBase)
    {r r' : Ty × Bool × List ParamInfo} (hr : (r.1, r.2.1) = (r'.1, r'.2.1)) :
    (direct readonly reference base r q).map Declared.entity =
      (direct readonly reference base r' q).map Declared.entity := by
  obtain ⟨type, openBound, params⟩ := r
  obtain ⟨_, _, params'⟩ := r'
  cases hr
  cases base <;> rfl

/-- What a declarator declares that is behind marks and before suffixes. -/
theorem declarator_between {constTarget : Bool} {marks : List Bool}
    {ss : List DeclaratorSuffix} {params : List ParamInfo} {target : Ty}
    (hm : pointed marks ty constTarget constTarget = (target, isConst))
    (hss : suffixes target true ss q = .ok (ty', false, params)) (span : Span) (D : Declarator)
    (hconst : isConst = true → D.isMarked = true → ss = []) :
    (Declared.entity <$> declarator ty constTarget (D.between span marks ss)) q =
      (Declared.entity <$> declarator ty' isConst D) q := by
  obtain ⟨span', marks', reference, base, ss'⟩ := D
  rw [map_apply, map_apply]
  cases ss with
  | nil =>
    cases hss
    have hempty : Declarator.between span marks [] (.mk span' marks' reference base ss') =
        .mk span (marks ++ marks') reference base ss' := by
      simp [Declarator.between]
    rw [hempty, declarator_eq, declarator_eq, pointed_append, hm]
  | cons suffix ss =>
    cases hmarked : Declarator.isMarked (.mk span' marks' reference base ss') with
    | true =>
      have hfalse : isConst = false := by
        refine Bool.eq_false_iff.mpr fun htrue => ?_
        have hempty := hconst htrue hmarked
        cases hempty
      subst hfalse
      have hnested : Declarator.between span marks (suffix :: ss)
          (.mk span' marks' reference base ss') =
          .mk span marks false (.nested (.mk span' marks' reference base ss')) (suffix :: ss) := by
        simp [Declarator.between, hmarked]
      rw [hnested, declarator_eq ty, hm, bind_ok hss, direct]
      simp only [Bool.or_false]
      rw [bind_pure]
    | false =>
      have hbare : marks' = [] ∧ reference = false := by
        simpa [Declarator.isMarked] using hmarked
      obtain ⟨rfl, rfl⟩ := hbare
      have happend : Declarator.between span marks (suffix :: ss) (.mk span' [] false base ss') =
          .mk span marks false base (ss' ++ suffix :: ss) := by
        simp [Declarator.between, hmarked]
      rw [happend, declarator_eq, declarator_eq, hm, pointed]
      exact map_bind_eq (suffixes_append hss true ss') fun r r' hr => entity_direct _ _ base hr

/-- The parts of what a declarator declares that has its name at the outside. -/
theorem of_declarator {constTarget reference : Bool} {span : Span} {marks : List Bool}
    {base : DeclaratorBase} {ss : List DeclaratorSuffix} (hbase : ∀ inner, base ≠ .nested inner)
    (h : declarator ty constTarget (.mk span marks reference base ss) q = .ok d) :
    (∃ params, suffixes (pointed marks ty constTarget constTarget).1 true ss q =
      .ok (d.type, d.openBound, params)) ∧
      d.readonly = (pointed marks ty constTarget constTarget).2 := by
  rw [declarator_eq] at h
  obtain ⟨r, hss, h⟩ := of_bind_eq_ok h
  cases base with
  | nested inner => exact absurd rfl (hbase inner)
  | named name =>
    cases h
    exact ⟨⟨r.2.2, hss⟩, rfl⟩
  | anonymous =>
    cases h
    exact ⟨⟨r.2.2, hss⟩, rfl⟩

theorem Declared.isType_iff (d : Declared) :
    d.isType = true ↔ d.readonly = false ∧ d.reference = false ∧ d.openBound = false := by
  simp [Declared.isType, and_assoc]

/-- A declarator in place of a name that is not in parentheses. -/
theorem declarator_plug_direct {constTarget reference : Bool} {span : Span} {marks : List Bool}
    {base : DeclaratorBase} {ss : List DeclaratorSuffix} (hbase : ∀ inner, base ≠ .nested inner)
    (h : declarator ty constTarget (.mk span marks reference base ss) q = .ok d)
    (htype : d.isType = true) (isConst : Bool) (D : Declarator)
    (hmarked : isConst = true → D.isMarked = true → ss = []) :
    (Declared.entity <$> declarator ty (constTarget || (isConst && marks.isEmpty))
      (D.between span (Declarator.constLast isConst marks) ss)) q =
        (Declared.entity <$> declarator d.type isConst D) q := by
  obtain ⟨⟨params, hss⟩, hreadonly⟩ := of_declarator hbase h
  obtain ⟨hfalse, -, hbound⟩ := (Declared.isType_iff d).mp htype
  rw [hbound] at hss
  rw [hfalse] at hreadonly
  refine declarator_between ?_ hss span D hmarked
  cases marks with
  | nil =>
    obtain rfl : constTarget = false := hreadonly.symm
    simp [Declarator.constLast, pointed]
  | cons mark marks =>
    rw [List.isEmpty_cons, Bool.and_false, Bool.or_false,
      pointed_constLast (List.cons_ne_nil mark marks), ← hreadonly, Bool.or_false]

/-- A declarator in place of a name declares what it declares of the type that the name stands for,
unless `const` would have to pass through parentheses. -/
theorem declarator_plug (ty : Ty) (constTarget isConst : Bool) (D : Declarator) :
    (T : Declarator) → (d : Declared) → declarator ty constTarget T q = .ok d →
    d.isType = true → (isConst = true → T.takesConst = true ∨ T.isDirect = true) →
    (isConst = true → D.isMarked = true → T.nameSuffixes = []) →
    (Declared.entity <$> declarator ty (constTarget || (isConst && !T.takesConst))
      (T.plug isConst D)) q = (Declared.entity <$> declarator d.type isConst D) q
  | .mk span marks reference (.named name) ss, d, h, htype, _, hmarked => by
    have hplug := declarator_plug_direct (by simp) h htype isConst D hmarked
    rwa [Declarator.plug, Declarator.takesConst, Bool.not_not]
  | .mk span marks reference .anonymous ss, d, h, htype, _, hmarked => by
    have hplug := declarator_plug_direct (by simp) h htype isConst D hmarked
    rwa [Declarator.plug, Declarator.takesConst, Bool.not_not]
  | .mk span marks reference (.nested inner) ss, d, h, htype, hplace, hmarked => by
    -- the constness of the base does not come through the parentheses, so a mark has to take it
    have htakes : isConst = true → inner.takesConst = true := by
      intro hconst
      rcases hplace hconst with h | h
      · exact h
      · cases h
    have hbase : (isConst && !inner.takesConst) = false := by
      cases isConst with
      | false => rfl
      | true => rw [htakes rfl]; rfl
    rw [declarator_eq] at h
    obtain ⟨⟨type, openBound, params⟩, hss, h⟩ := of_bind_eq_ok h
    obtain ⟨declared, hinner, h⟩ := of_bind_eq_ok h
    cases h
    obtain ⟨hreadonly, href, hbound⟩ := (Declared.isType_iff _).mp htype
    obtain ⟨hinnerRef, rfl⟩ := Bool.or_eq_false_iff.mp href
    obtain ⟨hinnerBound, rfl⟩ := Bool.or_eq_false_iff.mp hbound
    have hplain : declared.isType = true :=
      (Declared.isType_iff _).mpr ⟨hreadonly, hinnerRef, hinnerBound⟩
    have ih := declarator_plug type false isConst D inner declared hinner hplain
      (fun hconst => .inl (htakes hconst)) hmarked
    rw [hbase, Bool.or_false] at ih
    rw [Declarator.takesConst, hbase, Bool.or_false, Declarator.plug, declarator_eq, map_apply,
      bind_ok hss, direct]
    simp only [Bool.or_false]
    rw [bind_pure]
    exact ih

end Declarators

section Specifiers

variable {use spec : TypeSpec} {base : Ty} {name : String}

/-- Specifiers are checked before the words of a type are looked at. -/
theorem baseType_eq (spec : TypeSpec) : baseType spec q =
    match spec.specifiers.find? fun word => !q.1.isSpecifier word with
    | some word => .error ⟨.declaration (.unknownSpecifier word), q.2.cursor⟩
    | none => baseType { spec with specifiers := [] } q := by
  rw [baseType, baseType]
  refine (bind_ok (x := read) (a := q) rfl _).trans ?_
  dsimp only
  cases spec.specifiers.find? fun word => !q.1.isSpecifier word <;> rfl

/-- The name of a type names it. -/
theorem baseType_named (hw : use.words = [name]) (hvoid : name ≠ "void")
    (hname : q.2.typedefs.lookup name = some ty) :
    baseType { use with specifiers := [] } q = .ok ty := by
  rw [baseType]
  refine (bind_ok (x := read) (a := q) rfl _).trans ?_
  simp only [hw, List.find?_nil, hvoid, if_false, hname]
  rfl

/-- Leaving out a known specifier leaves out no unknown one. -/
theorem find?_unknown_filter (hconst : use.isConst = true → q.1.isSpecifier "const" = true) :
    (use.specifiers.filter (· != "const")).find? (fun word => !q.1.isSpecifier word) =
      use.specifiers.find? fun word => !q.1.isSpecifier word := by
  cases huse : use.isConst with
  | true =>
    rw [List.find?_filter]
    congr 1
    funext word
    by_cases hword : word = "const"
    · simp [hword, hconst huse]
    · simp [hword]
  | false =>
    have hself : use.specifiers.filter (· != "const") = use.specifiers := by
      refine List.filter_eq_self.mpr fun word hword => bne_iff_ne.mpr ?_
      rintro rfl
      rw [TypeSpec.isConst, List.contains_iff_mem.mpr hword] at huse
      cases huse
    rw [hself]

/-- The specifier of a typedef in place of a use has the unknown specifiers of the use, and names the
base type of the typedef. -/
theorem baseType_inPlace (hbase : baseType spec q = .ok base)
    (hconst : use.isConst = true → q.1.isSpecifier "const" = true) (T : Declarator) :
    baseType (use.inPlace spec T) q =
      match use.specifiers.find? fun word => !q.1.isSpecifier word with
      | some word => .error ⟨.declaration (.unknownSpecifier word), q.2.cursor⟩
      | none => .ok base := by
  have hspecifiers : (use.inPlace spec T).specifiers.find? (fun word => !q.1.isSpecifier word) =
      (use.specifiers.find? fun word => !q.1.isSpecifier word).or
        (spec.specifiers.find? fun word => !q.1.isSpecifier word) := by
    unfold TypeSpec.inPlace
    rw [List.find?_append]
    cases T.takesConst with
    | true => rw [if_pos rfl, find?_unknown_filter hconst]
    | false => rw [if_neg Bool.false_ne_true]
  rw [baseType_eq, hspecifiers]
  rw [baseType_eq] at hbase
  cases hspec : spec.specifiers.find? fun word => !q.1.isSpecifier word with
  | some word =>
    rw [hspec] at hbase
    cases hbase
  | none =>
    rw [hspec] at hbase
    rw [Option.or_none]
    have hwords : baseType { use.inPlace spec T with specifiers := [] } q = .ok base := hbase
    rw [hwords]

/-- The specifier of a typedef in place of a use of its name goes on as the use does, where the two
go on alike from the base type of the typedef and from the type that it names. -/
theorem bind_inPlace {β : Type} (hw : use.words = [name]) (hvoid : name ≠ "void")
    (hname : q.2.typedefs.lookup name = some ty) (hbase : baseType spec q = .ok base)
    (hconst : use.isConst = true → q.1.isSpecifier "const" = true) (T : Declarator)
    {f g : Ty → ReadM β} (h : f base q = g ty q) :
    (baseType (use.inPlace spec T) >>= f) q = (baseType use >>= g) q := by
  have huse := baseType_eq (q := q) use
  have hplace := baseType_inPlace hbase hconst T
  cases hfind : use.specifiers.find? fun word => !q.1.isSpecifier word with
  | some word =>
    rw [hfind] at huse hplace
    rw [bind_eq (y := fun _ => .error _) hplace, bind_eq (y := fun _ => .error _) huse]
    rfl
  | none =>
    rw [hfind] at huse hplace
    dsimp only at huse
    rw [baseType_named hw hvoid hname] at huse
    rw [bind_ok hplace, bind_ok huse, h]

theorem isConst_inPlace (use spec : TypeSpec) (T : Declarator) :
    (use.inPlace spec T).isConst = (spec.isConst || (use.isConst && !T.takesConst)) := by
  unfold TypeSpec.isConst TypeSpec.inPlace
  cases T.takesConst <;> simp [Bool.or_comm]

end Specifiers

section Uses

variable {use spec : TypeSpec} {base : Ty} {name : String} {T D : Declarator} {d : Declared}

/-- What a typedef declares is a type, and `const` does not have to pass through parentheses where
the typedef is written in place of its name. -/
structure Replaces (use : TypeSpec) (T D : Declarator) (d : Declared) : Prop where
  type : d.isType = true
  place : use.isConst = true → T.takesConst = true ∨ T.isDirect = true
  marked : use.isConst = true → D.isMarked = true → T.nameSuffixes = []

/-- A use of a name declares what the typedef declares in its place. -/
theorem declared_inPlace (hw : use.words = [name]) (hvoid : name ≠ "void")
    (hname : q.2.typedefs.lookup name = some d.type) (hd : declared spec T q = .ok d)
    (hconst : use.isConst = true → q.1.isSpecifier "const" = true) (h : Replaces use T D d) :
    (Declared.entity <$> declared (use.inPlace spec T) (T.plug use.isConst D)) q =
      (Declared.entity <$> declared use D) q := by
  obtain ⟨base, hbase, hd⟩ := of_bind_eq_ok hd
  simp only [declared, map_bind]
  refine bind_inPlace hw hvoid hname hbase hconst T ?_
  rw [isConst_inPlace]
  exact declarator_plug base spec.isConst use.isConst D T d hd h.type h.place h.marked

/-- What does not look at the names and defaults of parameters. -/
theorem bind_entity {β : Type} {x y : ReadM Declared} {f : Declared → ReadM β}
    (h : (Declared.entity <$> x) q = (Declared.entity <$> y) q) (hf : ∀ d, f d = f d.entity) :
    (x >>= f) q = (y >>= f) q := by
  have hmap : ((x >>= f) q).map id = ((y >>= f) q).map id := by
    refine map_bind_eq (f := Declared.entity) h fun d e hde => ?_
    rw [hf d, hf e, hde]
  rw [Except.map_id] at hmap
  exact hmap

theorem typeNamed_entity {spec' : TypeSpec} {D' : Declarator}
    (h : (Declared.entity <$> declared spec D) q = (Declared.entity <$> declared spec' D') q) :
    typeNamed spec D q = typeNamed spec' D' q := bind_entity h fun _ => rfl

theorem contains_static_inPlace (hstatic : spec.specifiers.contains "static" = false)
    (use : TypeSpec) (T : Declarator) :
    (use.inPlace spec T).specifiers.contains "static" = use.specifiers.contains "static" := by
  unfold TypeSpec.inPlace
  cases T.takesConst <;> simp_all

/-- A parameter, unless only one of the two ways to write it passes for the empty list `(void)`. -/
theorem parameters_inPlace (hw : use.words = [name]) (hvoid : name ≠ "void")
    (hname : q.2.typedefs.lookup name = some d.type) (hbase : baseType spec q = .ok base)
    (hd : declarator base spec.isConst T q = .ok d)
    (hconst : use.isConst = true → q.1.isSpecifier "const" = true) (h : Replaces use T D d)
    (hstatic : spec.specifiers.contains "static" = false) {only : Bool}
    (hempty : isEmptyList base only (T.plug use.isConst D) = isEmptyList d.type only D)
    (defaulted : Bool) (span : Span) (default : Option Expr) (rest : List Param) :
    parameters only defaulted
      (.mk span (use.inPlace spec T) (T.plug use.isConst D) default :: rest) q =
        parameters only defaulted (.mk span use D default :: rest) q := by
  rw [parameters, parameters]
  refine bind_inPlace hw hvoid hname hbase hconst T ?_
  rw [hempty, contains_static_inPlace hstatic, isConst_inPlace]
  cases isEmptyList d.type only D with
  | true => rfl
  | false =>
    refine bind_entity ?_ fun _ => rfl
    exact declarator_plug base spec.isConst use.isConst D T d hd h.type h.place h.marked

end Uses

end ReadM

namespace RunM

open ReadM

variable {c : Config} {s t : State} {name : String}

theorem ask_bind {α β : Type} (x : ReadM α) (f : α → RunM β) :
    (ask x >>= f) c s = match x (c, s) with
      | .ok a => f a c s
      | .error fault => .error fault s := by
  cases hx : x (c, s) with
  | ok a => exact bind_ok (ask_ok hx)
  | error fault =>
    have hask : ask x c s = .error fault s := by rw [ask, hx]
    exact bind_error hask

/-- What does not look at the names and defaults of parameters. -/
theorem ask_bind_entity {β : Type} {x y : ReadM Declared} {f : Declared → RunM β}
    (h : (Declared.entity <$> x) (c, s) = (Declared.entity <$> y) (c, s))
    (hf : ∀ d, f d = f d.entity) : (ask x >>= f) c s = (ask y >>= f) c s := by
  rw [map_apply, map_apply] at h
  rw [ask_bind, ask_bind]
  cases hx : x (c, s) with
  | error fault =>
    cases hy : y (c, s) with
    | error fault' =>
      rw [hx, hy] at h
      cases h
      rfl
    | ok e =>
      rw [hx, hy] at h
      cases h
  | ok d =>
    cases hy : y (c, s) with
    | error fault' =>
      rw [hx, hy] at h
      cases h
    | ok e =>
      rw [hx, hy] at h
      dsimp only
      rw [hf d, hf e, Except.ok.inj h]

section Typedefs

/-- Gives a type its name. -/
def defineAlias (base : Ty) (isConst : Bool) (item : InitDeclarator) : RunM Unit := do
  let d ← ask (ReadM.declarator base isConst item.declarator)
  defineTypedef (← nameOf d "typedef") d.type

theorem defineTypedefs_eq (decl : Declaration) : defineTypedefs decl = (do
    let base ← ask (ReadM.baseType decl.spec)
    decl.declarators.forM (defineAlias base decl.spec.isConst)) := by
  unfold defineTypedefs
  refine bind_congr fun base => ?_
  induction decl.declarators with
  | nil => rfl
  | cons item rest ih =>
    change _ = (defineAlias base decl.spec.isConst item >>= fun _ =>
      rest.forM (defineAlias base decl.spec.isConst))
    rw [← ih]
    simp only [List.forIn_cons, defineAlias, bind_assoc, pure_bind]

variable {base : Ty} {isConst : Bool}

/-- The type that a declarator gives gets its name; other names keep their types. -/
theorem defineAlias_eq_ok {item : InitDeclarator}
    (h : defineAlias base isConst item c s = .ok () t) :
    ∃ d, ReadM.declarator base isConst item.declarator (c, s) = .ok d ∧
      t = { s with typedefs := t.typedefs } ∧
      ∀ name, t.typedefs.lookup name =
        if item.declarator.name? = some name then some d.type else s.typedefs.lookup name := by
  unfold defineAlias at h
  obtain ⟨d, u, hd, h⟩ := bind_eq_ok h
  rw [ask] at hd
  cases hdeclarator : ReadM.declarator base isConst item.declarator (c, s) with
  | error fault =>
    rw [hdeclarator] at hd
    cases hd
  | ok d' =>
    rw [hdeclarator] at hd
    cases hd
    have hname := ReadM.name_of_declarator base isConst item.declarator hdeclarator
    refine ⟨d, rfl, ?_⟩
    rw [← hname]
    cases hn : d.name with
    | none =>
      rw [nameOf, hn] at h
      cases h
    | some found =>
      rw [nameOf, hn] at h
      cases h
      refine ⟨rfl, fun name => ?_⟩
      change List.lookup name ((found, d.type) :: _) = _
      by_cases hfound : found = name
      · rw [if_pos (congrArg some hfound), hfound, List.lookup_cons_self]
      · have hne : name ≠ found := Ne.symm hfound
        rw [if_neg fun h => hfound (Option.some.inj h), List.lookup_cons, beq_false_of_ne hne]
        exact lookup_filter_ne s.typedefs hne

/-- Declarators that define other names. -/
theorem lookup_of_defineAliases {items : List InitDeclarator}
    (h : items.forM (defineAlias base isConst) c s = .ok () t)
    (hother : ∀ item ∈ items, item.declarator.name? ≠ some name) :
    t.typedefs.lookup name = s.typedefs.lookup name := by
  induction items generalizing s with
  | nil =>
    cases h
    rfl
  | cons item rest ih =>
    obtain ⟨hitem, hrest⟩ := List.forall_mem_cons.mp hother
    obtain ⟨⟨⟩, u, hu, h⟩ := bind_eq_ok h
    obtain ⟨d, -, -, hlookup⟩ := defineAlias_eq_ok hu
    rw [ih h hrest, hlookup name, if_neg hitem]

/-- A typedef resolves its declarators one by one, and a name stands for the type that the last one
with this name gives. -/
theorem of_defineTypedefs {decl : Declaration} {item : InitDeclarator}
    {before after : List InitDeclarator} (hdecl : decl.declarators = before ++ item :: after)
    (hname : item.declarator.name? = some name)
    (hafter : ∀ other ∈ after, other.declarator.name? ≠ some name)
    (h : defineTypedefs decl c s = .ok () t) :
    ∃ base u d, ReadM.baseType decl.spec (c, s) = .ok base ∧
      u = { s with typedefs := u.typedefs } ∧
      ReadM.declarator base decl.spec.isConst item.declarator (c, u) = .ok d ∧
      t.typedefs.lookup name = some d.type := by
  rw [defineTypedefs_eq, hdecl, ask_bind] at h
  cases hbase : ReadM.baseType decl.spec (c, s) with
  | error fault =>
    rw [hbase] at h
    cases h
  | ok base =>
    rw [hbase] at h
    dsimp only at h
    have hsplit (items : List InitDeclarator) (s : State)
        (h : (items ++ item :: after).forM (defineAlias base decl.spec.isConst) c s = .ok () t) :
        ∃ u d, u = { s with typedefs := u.typedefs } ∧
          ReadM.declarator base decl.spec.isConst item.declarator (c, u) = .ok d ∧
          t.typedefs.lookup name = some d.type := by
      induction items generalizing s with
      | nil =>
        obtain ⟨⟨⟩, u, hu, h⟩ := bind_eq_ok h
        obtain ⟨d, hd, -, hlookup⟩ := defineAlias_eq_ok hu
        refine ⟨s, d, rfl, hd, ?_⟩
        rw [lookup_of_defineAliases h hafter, hlookup name, if_pos hname]
      | cons first rest ih =>
        obtain ⟨⟨⟩, v, hv, h⟩ := bind_eq_ok h
        obtain ⟨-, -, hsame, -⟩ := defineAlias_eq_ok hv
        obtain ⟨u, d, hu, hd, hlookup⟩ := ih v h
        refine ⟨u, d, ?_, hd, hlookup⟩
        rw [hu, hsame]
    obtain ⟨u, d, hu, hd, hlookup⟩ := hsplit before s h
    exact ⟨base, u, d, rfl, hu, hd, hlookup⟩

end Typedefs

/-- A typedef names the type that its declarator gives. If that is all it gives, and if the declarator
means the same where the name is used, then what the name is used for is what the typedef written in
its place declares: variables and members with their type, their constness, their references and open
bounds, types of casts, and parameters, unless only one of the two passes for the empty list `(void)`. -/
theorem typedef_transparent {decl : Declaration} {item : InitDeclarator}
    {before after : List InitDeclarator} (hdecl : decl.declarators = before ++ item :: after)
    (hname : item.declarator.name? = some name)
    (hafter : ∀ other ∈ after, other.declarator.name? ≠ some name) (hvoid : name ≠ "void")
    {span : Span} {inSwitch : Bool}
    (h : execute (.typedef span decl) inSwitch c s = .ok (.done .normal) t) :
    ∃ base u d, ReadM.baseType decl.spec (c, s) = .ok base ∧
      u = { s with typedefs := u.typedefs } ∧
      ReadM.declarator base decl.spec.isConst item.declarator (c, u) = .ok d ∧
      t.typedefs.lookup name = some d.type ∧
      ∀ (v : State) (use : TypeSpec) (D : Declarator),
        v.typedefs.lookup name = t.typedefs.lookup name →
        ReadM.baseType decl.spec (c, v) = .ok base →
        ReadM.declarator base decl.spec.isConst item.declarator (c, v) = .ok d →
        use.words = [name] → (use.isConst = true → c.isSpecifier "const" = true) →
        Replaces use item.declarator D d →
          let spec := use.inPlace decl.spec item.declarator
          let D' := item.declarator.plug use.isConst D
          (Declared.entity <$> ReadM.declared spec D') (c, v) =
            (Declared.entity <$> ReadM.declared use D) (c, v) ∧
          ReadM.typeNamed spec D' (c, v) = ReadM.typeNamed use D (c, v) ∧
          (∀ struct default rest known,
            structMembers struct (⟨spec, D', default⟩ :: rest) known c v =
              structMembers struct (⟨use, D, default⟩ :: rest) known c v) ∧
          ∀ only defaulted span default rest, decl.spec.specifiers.contains "static" = false →
            isEmptyList base only D' = isEmptyList d.type only D →
            parameters only defaulted (.mk span spec D' default :: rest) (c, v) =
              parameters only defaulted (.mk span use D default :: rest) (c, v) := by
  obtain ⟨⟨⟩, t', ht, hdone⟩ := bind_eq_ok h
  cases hdone
  obtain ⟨base, u, d, hbase, hu, hd, hlookup⟩ := of_defineTypedefs hdecl hname hafter ht
  refine ⟨base, u, d, hbase, hu, hd, hlookup, ?_⟩
  intro v use D hv hbase hd hw hconst hreplaces spec D'
  rw [hlookup] at hv
  have hdeclared : ReadM.declared decl.spec item.declarator (c, v) = .ok d :=
    (ReadM.bind_ok hbase _).trans hd
  have hentity := declared_inPlace hw hvoid hv hdeclared hconst hreplaces
  refine ⟨hentity, typeNamed_entity hentity, fun struct default rest known => ?_, ?_⟩
  · exact ask_bind_entity hentity fun _ => rfl
  · intro only defaulted span default rest hstatic hempty
    exact parameters_inPlace hw hvoid hv hbase hd hconst hreplaces hstatic hempty defaulted span
      default rest

/-- `const P x` after `typedef int *P`. -/
theorem typedef_transparent_pointer :
    let decl : Declaration :=
      ⟨⟨[], ["int"], default⟩, [⟨.mk default [false] false (.named "P") [], none⟩]⟩
    let t : State := { typedefs := [("P", .pointer .int false)] }
    execute (.typedef default decl) false {} {} = .ok (.done .normal) t ∧
      (Declared.entity <$> ReadM.declared ⟨[], ["int"], default⟩
        (.mk default [true] false (.named "x") [])) ({}, t) =
      (Declared.entity <$> ReadM.declared ⟨["const"], ["P"], default⟩
        (.mk default [] false (.named "x") [])) ({}, t) := by
  intro decl t
  have ht : execute (.typedef default decl) false {} {} = .ok (.done .normal) t := rfl
  have hdecl : decl.declarators = [] ++ ⟨.mk default [false] false (.named "P") [], none⟩ :: [] := rfl
  obtain ⟨base, u, d, hbase, -, hd, -, huse⟩ := typedef_transparent hdecl rfl nofun (by decide) ht
  obtain rfl : Ty.int = base := Except.ok.inj hbase
  obtain rfl : (⟨some "P", .pointer .int false, false, false, false, []⟩ : Declared) = d :=
    Except.ok.inj hd
  obtain ⟨hdeclared, -⟩ := huse t ⟨["const"], ["P"], default⟩ (.mk default [] false (.named "x") [])
    rfl rfl rfl rfl (fun _ => by decide) ⟨rfl, fun _ => .inl rfl, fun _ => nofun⟩
  exact ⟨ht, hdeclared⟩

end RunM

/-- `before int main() { body }` -/
def Program.ofMain (before body : List Stmt) : Program where
  includes := []
  items := before ++ [.function default (.mk ⟨[], ["int"], default⟩
    (.mk default [] false (.named "main") [.params [] false]) (.compound default body))]

/-- Constness, a reference and an open bound are lost in a typedef: a constant `T` is assigned to, an
`R` is no alias, and an `A` takes no elements. A declaration without the typedef keeps them. -/
theorem typedef_drops_attributes :
    let number (n : Nat) : Expr := .literal default (.int n 10 false false)
    let named (name : String) : Declarator := .mk default [] false (.named name) []
    let reference (name : String) : Declarator := .mk default [] true (.named name) []
    let unbounded (name : String) : Declarator := .mk default [] false (.named name) [.array none]
    let nameType (specifiers : List String) (d : Declarator) : Stmt :=
      .typedef default ⟨⟨specifiers, ["int"], default⟩, [⟨d, none⟩]⟩
    let declare (specifiers : List String) (word : String) (d : Declarator) (init : Initializer) :=
      Stmt.declaration default ⟨⟨specifiers, [word], default⟩, [⟨d, some init⟩]⟩
    let x : Expr := .identifier default "x"
    let assign (name : String) : Stmt :=
      .expression default (some (.assign default none (.identifier default name) (number 2)))
    let returns (e : Expr) : Stmt := .returnJump default (some e)
    let elements : Initializer := .list default [.expr (number 1), .expr (number 2)]
    let run (before body : List Stmt) : Option (Option Int) :=
      let r := (Run.ofProgram {} (.ofMain before body) {} {}).steps 30
      if r.isFinished then some r.exitStatus? else none
    let changed (before : List Stmt) (declaration : Stmt) : Option (Option Int) :=
      run before [declaration, assign "x", returns x]
    let shared (before : List Stmt) (declaration : Stmt) : Option (Option Int) :=
      run before [declare [] "int" (named "x") (.expr (number 1)), declaration, assign "y", returns x]
    let sized (before : List Stmt) (declaration : Stmt) : Option (Option Int) :=
      run before [declaration, returns (.sizeofExpr default x)]
    changed [nameType ["const"] (named "T")] (declare [] "T" (named "x") (.expr (number 1))) =
        some (some 2) ∧
      changed [] (declare ["const"] "int" (named "x") (.expr (number 1))) = some none ∧
      shared [nameType [] (reference "R")] (declare [] "R" (named "y") (.expr x)) = some (some 1) ∧
      shared [] (declare [] "int" (reference "y") (.expr x)) = some (some 2) ∧
      sized [nameType [] (unbounded "A")] (declare [] "A" (named "x") elements) = some none ∧
      sized [] (declare [] "int" (unbounded "x") elements) = some (some 8) := by
  decide +kernel

end Stepwise
