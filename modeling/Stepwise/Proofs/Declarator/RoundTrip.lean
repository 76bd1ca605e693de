import Stepwise.Machine.Resolve
import Stepwise.Proofs.Declarator.Resolving
import Stepwise.Proofs.Syntax.Grammar

/-! # Declarations read back

What a declarator declares does not depend on the spans in its tree, up to those in the defaults of
its parameters. The text of a declaration is scanned and parsed as the declaration it was written
for, and what the declaration is resolved to is the type it was written for, unless a parameter list
on the way consists of one function pointer whose chain of results ends with `void`: such a list
passes for the empty list `(void)`.
-/

namespace Stepwise

section Spans

def ParamInfo.bare (p : ParamInfo) : ParamInfo := { p with default := p.default.map Expr.bare }

def Declared.bare (d : Declared) : Declared := { d with params := d.params.map ParamInfo.bare }

theorem Expr.bareOption_eq_map (e : Option Expr) : Expr.bareOption e = e.map Expr.bare := by
  cases e <;> rfl

theorem Param.length_bareAll (ps : List Param) : (Param.bareAll ps).length = ps.length := by
  induction ps with
  | nil => rfl
  | cons p ps ih => rw [Param.bareAll, List.length_cons, List.length_cons, ih]

theorem Declarator.name?_bare : (d : Declarator) → d.bare.name? = d.name?
  | .mk _ _ _ (.named _) _ => rfl
  | .mk _ _ _ .anonymous _ => rfl
  | .mk _ _ _ (.nested inner) _ => inner.name?_bare

namespace ReadM

theorem isEmptyList_bare (base : Ty) (only : Bool) (d : Declarator) :
    isEmptyList base only d.bare = isEmptyList base only d := by
  obtain ⟨span, marks, reference, inner, suffixes⟩ := d
  have hname := Declarator.name?_bare (.mk span marks reference inner suffixes)
  rw [Declarator.bare] at hname ⊢
  rw [isEmptyList, isEmptyList, hname]

mutual

theorem constant_bare : (e : Expr) → constant e.bare = constant e
  | .literal _ (.int ..) | .literal _ (.char ..) | .literal _ (.bool _) => rfl
  | .literal _ (.float ..) | .literal _ (.string ..) | .literal _ .null => rfl
  | .identifier .. | .qualified .. => rfl
  | .unary _ op operand => by
    simp only [Expr.bare, constant, constant_bare operand]
  | .binary _ op left right => by
    simp only [Expr.bare, constant, constant_bare left, constant_bare right]
  | .conditional _ c t e => by
    simp only [Expr.bare, constant, constant_bare c, constant_bare t, constant_bare e]
  | .cast _ _ _ operand => by
    simp only [Expr.bare, constant, constant_bare operand]
  | .sizeofType _ spec target => by
    simp only [Expr.bare, constant, declarator_bare _ _ target, bind_map_left]
    rfl
  | .logical .. | .assign .. | .comma .. | .call .. | .index .. | .member .. => rfl
  | .sizeofExpr .. | .list .. => rfl

/-- What is declared is the same up to spans. -/
theorem declarator_bare (base : Ty) (isConst : Bool) :
    (d : Declarator) → declarator base isConst d.bare = Declared.bare <$> declarator base isConst d
  | .mk _ marks reference inner suffixList => by
    simp only [Declarator.bare, declarator, suffixes_bare _ _ suffixList, bind_map_left, map_bind]
    refine bind_congr fun r => ?_
    match inner with
    | .named name => exact (map_pure ..).symm
    | .anonymous => exact (map_pure ..).symm
    | .nested d =>
      simp only [DeclaratorBase.bare, declarator_bare r.1 false d, bind_map_left, map_bind, map_pure]
      rfl

theorem suffixes_bare (ty : Ty) (first : Bool) : (ss : List DeclaratorSuffix) →
    suffixes ty first (DeclaratorSuffix.bareAll ss) =
      (fun r => (r.1, r.2.1, r.2.2.map ParamInfo.bare)) <$> suffixes ty first ss
  | [] => rfl
  | .array (some size) :: rest => by
    simp only [DeclaratorSuffix.bareAll, DeclaratorSuffix.bare, Expr.bareOption, suffixes,
      suffixes_bare ty false rest, constant_bare size, bind_map_left, map_bind, map_pure]
  | .array none :: rest => by
    simp only [DeclaratorSuffix.bareAll, DeclaratorSuffix.bare, Expr.bareOption, suffixes,
      suffixes_bare ty false rest, bind_map_left, map_bind]
    refine bind_congr fun r => ?_
    cases first <;> simp only [Bool.not_true, Bool.not_false, Bool.false_eq_true, if_false, if_true,
      map_bind, map_pure]
  | .params ps variadic :: rest => by
    simp only [DeclaratorSuffix.bareAll, DeclaratorSuffix.bare, suffixes,
      suffixes_bare ty false rest, Param.length_bareAll, parameters_bare _ _ ps, bind_map_left,
      map_bind, map_pure, List.map_map]
    rfl

theorem parameters_bare (only defaulted : Bool) : (ps : List Param) →
    parameters only defaulted (Param.bareAll ps) =
      List.map (Prod.map id ParamInfo.bare) <$> parameters only defaulted ps
  | [] => rfl
  | .mk _ spec d value :: rest => by
    simp only [Param.bareAll, Param.bare, parameters, isEmptyList_bare, declarator_bare _ _ d,
      Expr.bareOption_eq_map, Option.isSome_map, parameters_bare only _ rest, bind_map_left,
      map_bind]
    refine bind_congr fun base => ?_
    split
    · rfl
    · rw [map_bind]
      refine bind_congr fun declared => ?_
      split <;> simp only [map_bind, map_pure] <;> rfl

end

theorem declared_bare (spec : TypeSpec) (d : Declarator) :
    declared spec.bare d.bare = Declared.bare <$> declared spec d := by
  rw [declared, declared, map_bind]
  exact bind_congr fun base => declarator_bare base spec.isConst d

/-- Trees that are the same up to spans declare the same, if no parameters come with it. -/
theorem declared_of_bare_eq {spec spec' : TypeSpec} {d d' : Declarator}
    (hspec : spec'.bare = spec.bare) (hd : d'.bare = d.bare) {q : Config × State} {r : Declared}
    (h : declared spec d q = .ok r) (hparams : r.params = []) : declared spec' d' q = .ok r := by
  have hbare : (declared spec' d' q).map Declared.bare = (declared spec d q).map Declared.bare := by
    have heq : (Declared.bare <$> declared spec' d') q = (Declared.bare <$> declared spec d) q := by
      rw [← declared_bare, ← declared_bare, hspec, hd]
    exact heq
  rw [h] at hbare
  cases hd' : declared spec' d' q with
  | error f => rw [hd'] at hbare; cases hbare
  | ok r' =>
    rw [hd'] at hbare
    obtain ⟨name, type, readonly, reference, openBound, params⟩ := r
    obtain ⟨name', type', readonly', reference', openBound', params'⟩ := r'
    obtain rfl : params = [] := hparams
    simp only [Except.map, Except.ok.injEq, Declared.bare, Declared.mk.injEq, List.map_nil,
      List.map_eq_nil_iff] at hbare
    obtain ⟨rfl, rfl, rfl, rfl, rfl, rfl⟩ := hbare
    rfl

end ReadM

end Spans

open Lexeme

namespace Ty

/-- The lexemes of a declaration of a name as an object of the type, constant or not. -/
def declarationLexemes (t : Ty) (isConst : Bool) (name : String) : List Lexeme :=
  (t.declare isConst (.ofName name)).1.print
    ++ ((t.declare isConst (.ofName name)).2.print ++ [symbol .semicolon])

/-- The text of a declaration: its lexemes with blanks between them. -/
def declarationText (t : Ty) (isConst : Bool) (name : String) : String :=
  String.ofList (spaced (t.declarationLexemes isConst name))

variable {q : Config × State} {types : List String} {t : Ty} {name : String}

/-- The text of a declaration is scanned, and parsed as the declaration up to spans. -/
theorem Writable.parse_declaration (h : t.Writable q types) (isConst : Bool)
    (hname : isName name = true) :
    ∃ tokens, scan (t.declarationText isConst name) = ⟨[], .ok tokens⟩ ∧
      ∃ span spec d next shorter,
        Parse.external { Tokens.ofList [] tokens with typeNames := types } =
          .ok ⟨.declaration span ⟨spec, [⟨d, none⟩]⟩, next, shorter⟩ ∧ next.rest = [] ∧
        spec.bare = (t.declare isConst (.ofName name)).1.bare ∧
        d.bare = (t.declare isConst (.ofName name)).2.bare := by
  have hspec := h.isKnown_declare isConst (.ofName name)
  have hplain : (t.declare isConst (.ofName name)).2.Plain types :=
    h.plain_declare isConst ⟨hname, trivial, nofun⟩
  have hnamed : (t.declare isConst (.ofName name)).2.name?.isSome = true := by
    rw [name?_declare]
    rfl
  have hspelled : AllSpelled (t.declarationLexemes isConst name) := by
    simp [declarationLexemes, allSpelled_known hspec, hplain.allSpelled]
  obtain ⟨tokens, hscan, hlexemes⟩ := scan_spaced hspelled
  have hs : ({ Tokens.ofList [] tokens with typeNames := types } : Tokens).Holds types
      (t.declarationLexemes isConst name) := by
    refine ⟨?_, rfl⟩
    show tokens.dropLast.map Token.lexeme = _
    rw [List.map_dropLast, hlexemes, List.dropLast_concat]
  obtain ⟨span, spec, d, next, shorter, hparse, hspec', hd, hnext⟩ :=
    Parse.external_print hspec hplain hnamed hs
  exact ⟨tokens, hscan, span, spec, d, next, shorter, hparse,
    List.map_eq_nil_iff.mp hnext.lexemes, hspec', hd⟩

/-- A written declaration declares its name with the resolved type. -/
theorem Writable.declared_ofName (hq : Setting q) (h : t.Writable q types) (isConst : Bool)
    (name : String) :
    ReadM.declared (t.declare isConst (.ofName name)).1 (t.declare isConst (.ofName name)).2 q =
      .ok ⟨some name, t.resolved, isConst, false, false, []⟩ := by
  rw [h.declared_declare hq isConst (.ofName name) nofun]
  rfl

/-- The text of a declaration of a type is scanned, parsed and resolved to the type in which the
parameter lists that pass for `void` are empty, which is the type itself exactly if there are no
such lists. -/
theorem resolve_declarationText (hq : Setting q) (h : t.Writable q types) (isConst : Bool)
    (hname : isName name = true) :
    ∃ tokens, scan (t.declarationText isConst name) = ⟨[], .ok tokens⟩ ∧
      ∃ span spec d next shorter,
        Parse.external { Tokens.ofList [] tokens with typeNames := types } =
          .ok ⟨.declaration span ⟨spec, [⟨d, none⟩]⟩, next, shorter⟩ ∧ next.rest = [] ∧
        ReadM.declared spec d q = .ok ⟨some name, t.resolved, isConst, false, false, []⟩ ∧
        (t.resolved = t ↔ t.keepsParams = true) := by
  obtain ⟨tokens, hscan, span, spec, d, next, shorter, hparse, hrest, hspec, hd⟩ :=
    h.parse_declaration isConst hname
  refine ⟨tokens, hscan, span, spec, d, next, shorter, hparse, hrest, ?_, t.resolved_eq_iff⟩
  exact ReadM.declared_of_bare_eq hspec hd (h.declared_ofName hq isConst name) rfl

/-- An array of pointers to functions that take a constant character and a callback and give a
pointer to a constant object. -/
def handlers : Ty :=
  .array (.functionPointer ⟨.pointer (.struct "S" []) true,
    [⟨.char, false, true, false⟩, .plain (.functionPointer ⟨.void, [.plain .int], false⟩)], false⟩) 2

theorem resolve_declarationText_handlers :
    ∃ tokens, scan "const S * ( * h [ 2 ] ) ( const char , void ( * ) ( int ) ) ;" =
        ⟨[], .ok tokens⟩ ∧
      ∃ span spec d next shorter,
        Parse.external { Tokens.ofList [] tokens with typeNames := ["S"] } =
          .ok ⟨.declaration span ⟨spec, [⟨d, none⟩]⟩, next, shorter⟩ ∧ next.rest = [] ∧
        ReadM.declared spec d ({}, { structs := [("S", ⟨"S", []⟩)] }) =
          .ok ⟨some "h", handlers, false, false, false, []⟩ := by
  let q : Config × State := ({}, { structs := [("S", ⟨"S", []⟩)] })
  have hq : Setting q := by
    refine ⟨by decide, fun _ _ => rfl, fun w hw => ?_⟩
    have hne : w ≠ "S" := by
      rintro rfl
      exact absurd hw (by decide)
    show List.lookup w [("S", _)] = none
    rw [List.lookup_cons, beq_false_of_ne hne]
    rfl
  have hcallback : Writable q ["S"] (.functionPointer ⟨.void, [.plain .int], false⟩) :=
    .functionPointer .void rfl (by simpa [ParamOf.plain] using .arith .int) (by decide) (by decide)
  have h : Writable q ["S"] handlers := by
    refine .array (.functionPointer (.pointer (.struct (by decide) (by decide) rfl rfl) fun _ => rfl)
      rfl ?_ ?_ ?_) rfl (by decide) (show _ = some 2 from rfl) (by decide)
    · exact List.forall_mem_cons.mpr ⟨.arith .char, List.forall_mem_singleton.mpr hcallback⟩
    · decide
    · decide
  have hread := resolve_declarationText hq h false (show isName "h" = true by decide)
  rw [show handlers.resolved = handlers from rfl] at hread
  have htext : handlers.declarationText false "h" =
      "const S * ( * h [ 2 ] ) ( const char , void ( * ) ( int ) ) ;" := by decide
  rw [htext] at hread
  obtain ⟨tokens, hscan, span, spec, d, next, shorter, hparse, hrest, hdeclared, -⟩ := hread
  exact ⟨tokens, hscan, span, spec, d, next, shorter, hparse, hrest, hdeclared⟩

/-- A pointer to a function whose only parameter is a callback that returns nothing. -/
def withCallback : Ty :=
  .functionPointer ⟨.int, [.plain (.functionPointer ⟨.void, [.plain .int], false⟩)], false⟩

/-- The callback is lost when the declaration is read back. -/
theorem resolve_declarationText_withCallback :
    withCallback.declarationText false "f" = "int ( * f ) ( void ( * ) ( int ) ) ;" ∧
    ∃ tokens, scan (withCallback.declarationText false "f") = ⟨[], .ok tokens⟩ ∧
      ∃ span spec d next shorter,
        Parse.external { Tokens.ofList [] tokens with typeNames := [] } =
          .ok ⟨.declaration span ⟨spec, [⟨d, none⟩]⟩, next, shorter⟩ ∧ next.rest = [] ∧
        ReadM.declared spec d ({}, {}) =
          .ok ⟨some "f", .functionPointer ⟨.int, [], false⟩, false, false, false, []⟩ ∧
        withCallback ≠ .functionPointer ⟨.int, [], false⟩ := by
  let q : Config × State := ({}, {})
  have hq : Setting q := ⟨by decide, fun _ _ => rfl, fun _ _ => rfl⟩
  have hcallback : Writable q [] (.functionPointer ⟨.void, [.plain .int], false⟩) :=
    .functionPointer .void rfl (by simpa [ParamOf.plain] using .arith .int) (by decide) (by decide)
  have h : Writable q [] withCallback :=
    .functionPointer (.arith .int) rfl (List.forall_mem_singleton.mpr hcallback) (by decide)
      (by decide)
  obtain ⟨tokens, hscan, span, spec, d, next, shorter, hparse, hrest, hspec, hd⟩ :=
    h.parse_declaration false (show isName "f" = true by decide)
  refine ⟨by decide, tokens, hscan, span, spec, d, next, shorter, hparse, hrest, ?_, nofun⟩
  exact ReadM.declared_of_bare_eq hspec hd (h.declared_ofName hq false "f") rfl

end Ty

end Stepwise
