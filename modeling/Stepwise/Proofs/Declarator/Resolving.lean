import Stepwise.Proofs.Declarator.Writing

/-! # Resolving declarations of types

Each layer of a declarator that a type is written with is resolved to that layer of the type:
the declarator around the rest of a type, applied to that rest, is the declarator before the
layer was written, applied to the layer. What is left at the name is the whole type.
-/

namespace Stepwise

open Lexeme

/-- A setting that takes `const` for a specifier, and in which the words of the built-in types are
the names of no other types. -/
structure Setting (q : Config × State) : Prop where
  const : q.1.isSpecifier "const" = true
  typedefs : ∀ w ∈ Lexeme.typeWords, q.2.typedefs.lookup w = none
  structs : ∀ w ∈ Lexeme.typeWords, q.2.struct? w = none

namespace ReadM

variable {q : Config × State} {ty ty' : Ty} {d : Declarator} {params : List ParamInfo}

theorem bind_eq {α β : Type} {x y : ReadM α} (h : x q = y q) (f : α → ReadM β) :
    (x >>= f) q = (y >>= f) q := by
  show (x q >>= fun a => f a q) = (y q >>= fun a => f a q)
  rw [h]

theorem bind_ok {α β : Type} {x : ReadM α} {a : α} (h : x q = .ok a) (f : α → ReadM β) :
    (x >>= f) q = f a q :=
  bind_eq (y := pure a) h f

/-- A mark adds a pointer to what it stands before. -/
theorem declarator_marked (hty : ty.isFunction = false) (constTarget isConst : Bool) :
    declarator ty constTarget (d.marked isConst) = declarator (.pointer ty constTarget) isConst d := by
  obtain ⟨span, marks, reference, base, suffixes⟩ := d
  rw [Declarator.marked, declarator, declarator]
  have hpointed : pointed (isConst :: marks) ty constTarget constTarget =
      pointed marks (.pointer ty constTarget) isConst isConst := by
    cases ty with
    | function => cases hty
    | _ => rfl
  rw [hpointed]

/-- A mark before a function makes a function pointer. -/
theorem declarator_marked_function (sig : FunctionTy) (constTarget isConst : Bool) :
    declarator (.function sig) constTarget (d.marked isConst) =
      declarator (.functionPointer sig) isConst d := by
  obtain ⟨span, marks, reference, base, suffixes⟩ := d
  rw [Declarator.marked, declarator, declarator, pointed]

/-- Behind parentheses, a suffix is applied before what they hold. -/
theorem declarator_suffixed_of_isMarked (hd : d.isMarked = true) {x : DeclaratorSuffix}
    (hx : suffixes ty true [x] q = .ok (ty', false, params)) (isConst : Bool) :
    declarator ty isConst (d.suffixed x) q = declarator ty' false d q := by
  obtain ⟨span, base, ss, rfl, -⟩ | ⟨-, heq⟩ := d.suffixed_cases x
  · cases hd
  · rw [heq, declarator]
    refine (bind_ok hx _).trans ?_
    simp only [Bool.or_false]
    exact congrFun (bind_pure _) q

/-- A bound behind a declarator is applied before its other suffixes. -/
theorem suffixes_append_array {size : Expr} (first : Bool) (ss : List DeclaratorSuffix)
    (hx : suffixes ty false [.array (some size)] q = .ok (ty', false, [])) :
    suffixes ty first (ss ++ [.array (some size)]) q = suffixes ty' first ss q := by
  induction ss generalizing first with
  | nil => exact hx
  | cons suffix ss ih =>
    cases suffix with
    | params ps variadic => exact bind_eq (ih false) _
    | array bound => cases bound <;> exact bind_eq (ih false) _

theorem declarator_suffixed_of_not_isMarked (hd : d.isMarked = false) {size : Expr}
    (hx : suffixes ty false [.array (some size)] q = .ok (ty', false, [])) (isConst : Bool) :
    declarator ty isConst (d.suffixed (.array (some size))) q = declarator ty' isConst d q := by
  obtain ⟨span, base, ss, rfl, heq⟩ | ⟨hmarked, -⟩ := d.suffixed_cases (.array (some size))
  · rw [heq, declarator, declarator]
    exact bind_eq (suffixes_append_array true ss hx) _
  · rw [hd] at hmarked
    cases hmarked

/-- The words of a base type name it. -/
theorem baseType_baseSpec {types : List String} (hq : Setting q) (h : ty.Writable q types)
    (isConst : Bool) (hbase : ty.baseWords ≠ []) : baseType (ty.baseSpec isConst) q = .ok ty := by
  have hspecifiers : (ty.baseSpec isConst).specifiers.find? (fun w => !q.1.isSpecifier w) = none := by
    cases isConst <;> simp [Ty.baseSpec, hq.const]
  rw [baseType]
  refine (bind_ok (x := read) (a := q) rfl _).trans ?_
  simp only [hspecifiers]
  cases h with
  | void => rfl
  | arith k =>
    have hvoid : k.words ≠ ["void"] := by cases k <;> decide
    have hkind := k.ofWords?_words
    have hmem := k.mem_typeWords_of_mem_words
    simp only [Ty.baseSpec, Ty.baseWords]
    generalize k.words = words at hvoid hkind hmem ⊢
    obtain - | ⟨word, - | ⟨_, _⟩⟩ := words
    · simp only [hkind]
      rfl
    · -- a single type word is the name of no typedef or struct
      have hword : word ∈ typeWords := hmem word List.mem_cons_self
      have hne : word ≠ "void" := fun h => hvoid (by rw [h])
      simp only [hne, if_false, hq.typedefs word hword, hq.structs word hword, hkind]
      rfl
    · simp only [hkind]
      rfl
  | @struct name members hname _ htypedef hstruct =>
    have hvoid : name ≠ "void" := Lexeme.ne_of_isName hname (by decide)
    simp only [Ty.baseSpec, Ty.baseWords, hvoid, if_false, htypedef, hstruct]
    rfl
  | _ => exact absurd rfl hbase

/-- The bound of an array is resolved to it. -/
theorem suffixes_bound {element : Ty} {n cells : Nat} (hn : n < pow2 64)
    (hcells : (Ty.array element n).cells? = some cells) (hmax : cells ≤ q.1.limits.maxCells)
    (first : Bool) :
    suffixes element first [.array (some (Ty.boundExpr n))] q =
      .ok (.array element n, false, []) := by
  have hconstant : constant (Ty.boundExpr n) q = .ok n := by
    rw [Ty.boundExpr, constant, if_pos (Nat.lt_trans hn (by decide))]
    rfl
  have hcheck : checkCells (.array element n) q = .ok () := by
    rw [checkCells, hcells]
    refine (bind_ok (x := read) (a := q) rfl _).trans ?_
    simp only [if_neg (Nat.not_lt.mpr hmax)]
    rfl
  have hbounded : bounded element n q = .ok (.array element n) := by
    have hsize : ¬ (n : Int) < 0 ∧ ¬ (n : Int) ≥ pow2 64 := ⟨by omega, by omega⟩
    rw [bounded, if_neg hsize.1, if_neg hsize.2]
    exact bind_ok hcheck _
  rw [suffixes, suffixes]
  refine (bind_ok (a := (element, false, [])) rfl _).trans ?_
  refine (bind_ok hconstant _).trans ?_
  exact bind_ok hbounded _

/-- A parameter list is resolved to its parameters. -/
theorem suffixes_params {ps : List Param} {resolved : List (ParamTy × ParamInfo)}
    (h : parameters (ps.length == 1) false ps q = .ok resolved) (ty : Ty) (variadic first : Bool) :
    suffixes ty first [.params ps variadic] q =
      .ok (.function ⟨ty, resolved.map Prod.fst, variadic⟩, false, resolved.map Prod.snd) := by
  rw [suffixes, suffixes]
  refine (bind_ok (a := (ty, false, [])) rfl _).trans ?_
  exact bind_ok h _

theorem isEmptyList_of_not_only (base : Ty) (d : Declarator) : isEmptyList base false d = false := by
  obtain ⟨span, marks, reference, inner, suffixes⟩ := d
  rfl

theorem isEmptyList_of_isVoid {base : Ty} (h : base.isVoid = false) (only : Bool)
    (d : Declarator) : isEmptyList base only d = false := by
  obtain ⟨span, marks, reference, inner, suffixes⟩ := d
  simp [isEmptyList, h]

theorem isEmptyList_marked (base : Ty) (only isConst : Bool) (d : Declarator) :
    isEmptyList base only (d.marked isConst) = false := by
  obtain ⟨span, marks, reference, inner, suffixes⟩ := d
  simp [isEmptyList, Declarator.marked]

/-- A suffix hides marks from the check for an empty list. -/
theorem isEmptyList_suffixed (x : DeclaratorSuffix) (hd : d.name? = none) :
    isEmptyList .void true (d.suffixed x) = true := by
  have hname := Declarator.name?_suffixed x d
  rw [hd] at hname
  obtain ⟨span, base, suffixes, -, heq⟩ | ⟨-, heq⟩ := d.suffixed_cases x
  · rw [heq] at hname ⊢
    simp [isEmptyList, hname, Ty.isVoid]
  · rw [heq] at hname ⊢
    simp [isEmptyList, hname, Ty.isVoid]

end ReadM

namespace Ty.Writable

variable {q : Config × State} {types : List String} {t : Ty}

/-- The base type is resolved to itself. -/
theorem baseType_declare (hq : Setting q) (h : t.Writable q types) (isConst : Bool)
    (d : Declarator) : ReadM.baseType (t.declare isConst d).1 q = .ok t.base := by
  induction h generalizing isConst d with
  | void => exact ReadM.baseType_baseSpec hq (show Ty.Writable q types _ from .void) isConst nofun
  | arith k =>
    exact ReadM.baseType_baseSpec hq (show Ty.Writable q types _ from .arith k) isConst
      (by cases k <;> nofun)
  | struct hname hmem htypedef hstruct =>
    exact ReadM.baseType_baseSpec hq (.struct hname hmem htypedef hstruct) isConst nofun
  | pointer _ _ ih => exact ih _ _
  | array _ _ _ _ _ ih => exact ih _ _
  | functionPointer _ _ _ _ _ ih => exact ih _ _

/-- An unnamed parameter is taken for `void` if its type ends with a function that returns
nothing. -/
theorem isEmptyList_declare (h : t.Writable q types) (isConst : Bool) {d : Declarator}
    (hd : d.name? = none) :
    ReadM.isEmptyList t.base true (t.declare isConst d).2 =
      (t.returnsVoid || (t.isVoid && ReadM.isEmptyList .void true d)) := by
  induction h generalizing isConst d with
  | void => rfl
  | arith | struct => exact ReadM.isEmptyList_of_isVoid rfl true d
  | @pointer target constTarget _ _ ih =>
    have hmarked : (d.marked isConst).name? = none := by rw [Declarator.name?_marked, hd]
    have h := ih constTarget hmarked
    rw [ReadM.isEmptyList_marked, Bool.and_false] at h
    exact h
  | @array element n _ _ hvoid _ _ _ ih =>
    have h := ih isConst (d := d.suffixed (.array (some (boundExpr n))))
      (by rw [Declarator.name?_suffixed, hd])
    rw [hvoid, Bool.false_and] at h
    exact h
  | @functionPointer ret params variadic _ _ _ _ _ ih =>
    have hmarked : (d.marked isConst).name? = none := by rw [Declarator.name?_marked, hd]
    have h := ih false (d := (d.marked isConst).suffixed (.params (declareAll params) variadic))
      (by rw [Declarator.name?_suffixed, hmarked])
    rw [ReadM.isEmptyList_suffixed _ hmarked, Bool.and_true, Bool.or_comm] at h
    exact h.trans (Bool.or_false _).symm

theorem isFunction_eq_false (h : t.Writable q types) : t.isFunction = false := by
  cases h <;> rfl

/-- A declaration has no specifier besides `const`. -/
theorem contains_static_declare (h : t.Writable q types) (isConst : Bool) (d : Declarator) :
    (t.declare isConst d).1.specifiers.contains "static" = false := by
  induction h generalizing isConst d with
  | void | arith | struct => cases isConst <;> rfl
  | pointer _ _ ih => exact ih _ _
  | array _ _ _ _ _ ih => exact ih _ _
  | functionPointer _ _ _ _ _ ih => exact ih _ _

/-- With a base type, the declarator is applied to it. -/
theorem declared_declare_eq (hq : Setting q) (h : t.Writable q types) (isConst : Bool)
    (d : Declarator) :
    ReadM.declared (t.declare isConst d).1 (t.declare isConst d).2 q =
      ReadM.declarator t.base (t.declare isConst d).1.isConst (t.declare isConst d).2 q :=
  ReadM.bind_ok (h.baseType_declare hq isConst d) _

/-- A parameter that does not pass for `void` is resolved to its type, before the others. -/
theorem parameters_declare_cons (hq : Setting q) {only : Bool} {p : ParamTy} {rest : List Param}
    {r : List (ParamTy × ParamInfo)} (h : p.ty.Writable q types) (hvoid : p.ty.isVoid = false)
    (harray : p.ty.isArray = false) (hplain : p.reference = false ∧ p.optional = false)
    (hresolved : ReadM.declared (p.ty.declare p.readonly .empty).1 (p.ty.declare p.readonly .empty).2 q =
      ReadM.declarator p.ty.resolved p.readonly .empty q)
    (honly : only = true → p.ty.returnsVoid = false)
    (hrest : ReadM.parameters only false rest q = .ok r) :
    ReadM.parameters only false (.mk default (p.ty.declare p.readonly .empty).1
      (p.ty.declare p.readonly .empty).2 none :: rest) q =
        .ok (({ p with ty := p.ty.resolved }, ⟨none, none⟩) :: r) := by
  have hempty : ReadM.isEmptyList p.ty.base only (p.ty.declare p.readonly .empty).2 = false := by
    cases only with
    | false => exact ReadM.isEmptyList_of_not_only _ _
    | true => rw [h.isEmptyList_declare _ rfl, honly rfl, hvoid]; rfl
  have hdeclared : ReadM.declarator p.ty.base (p.ty.declare p.readonly .empty).1.isConst
      (p.ty.declare p.readonly .empty).2 q =
        .ok ⟨none, p.ty.resolved, p.readonly, false, false, []⟩ := by
    rw [← h.declared_declare_eq hq, hresolved]
    rfl
  have hdecay : p.ty.resolved.decay = p.ty.resolved := by
    have hfunction := h.isFunction_eq_false
    rw [← isArray_resolved] at harray
    rw [← isFunction_resolved] at hfunction
    generalize p.ty.resolved = ty at harray hfunction ⊢
    cases ty with
    | array => cases harray
    | function => cases hfunction
    | _ => rfl
  rw [ReadM.parameters]
  refine (ReadM.bind_ok (h.baseType_declare hq _ _) _).trans ?_
  simp only [hempty, Bool.false_eq_true, if_false]
  refine (ReadM.bind_ok hdeclared _).trans ?_
  simp only [Option.isSome_none, Bool.false_and, Bool.false_eq_true, if_false, Bool.or_false,
    hdecay, h.contains_static_declare]
  refine (ReadM.bind_ok hrest _).trans ?_
  obtain ⟨ty, reference, readonly, optional⟩ := p
  obtain ⟨rfl, rfl⟩ := hplain
  rfl

/-- Parameters are resolved one by one, if no single one passes for `void`. -/
theorem parameters_declareAll (hq : Setting q) (only : Bool) {params : List ParamTy}
    (hparams : ∀ p ∈ params, p.ty.Writable q types)
    (hvalue : ∀ p ∈ params, p.ty.isVoid = false ∧ p.ty.isArray = false)
    (hplain : ∀ p ∈ params, p.reference = false ∧ p.optional = false)
    (hresolved : ∀ p ∈ params, ReadM.declared (p.ty.declare p.readonly .empty).1
      (p.ty.declare p.readonly .empty).2 q = ReadM.declarator p.ty.resolved p.readonly .empty q)
    (honly : ∀ p ∈ params, only = true → p.ty.returnsVoid = false) :
    ReadM.parameters only false (declareAll params) q =
      .ok ((resolvedAll params).map fun p => (p, ⟨none, none⟩)) := by
  induction params with
  | nil => rfl
  | cons p ps ih =>
    rw [List.forall_mem_cons] at hparams hvalue hplain hresolved honly
    exact parameters_declare_cons hq hparams.1 hvalue.1.1 hvalue.1.2 hplain.1 hresolved.1 honly.1
      (ih hparams.2 hvalue.2 hplain.2 hresolved.2 honly.2)

/-- A single parameter that ends with a function that returns nothing is dropped. -/
theorem parameters_of_passesForVoid (hq : Setting q) {params : List ParamTy}
    (hparams : ∀ p ∈ params, p.ty.Writable q types) (h : passesForVoid params = true) :
    ReadM.parameters ((declareAll params).length == 1) false (declareAll params) q = .ok [] := by
  match params, h with
  | [p], h =>
    have hp := hparams p List.mem_cons_self
    have hvoid : p.ty.returnsVoid = true := h
    have hempty : ReadM.isEmptyList p.ty.base true (p.ty.declare p.readonly .empty).2 = true := by
      rw [hp.isEmptyList_declare _ rfl, hvoid, Bool.true_or]
    rw [declareAll_eq_map, List.map_singleton]
    show ReadM.parameters true false _ q = _
    rw [ReadM.parameters]
    refine (ReadM.bind_ok (hp.baseType_declare hq _ _) _).trans ?_
    simp only [hempty, if_true]
    rfl

/-- Declaring what a type is written with around a declarator is applying the declarator to the
resolved type. -/
theorem declared_declare (hq : Setting q) (h : t.Writable q types) (isConst : Bool)
    (d : Declarator) (hconst : t.isArray = true → d.isMarked = true → isConst = false) :
    ReadM.declared (t.declare isConst d).1 (t.declare isConst d).2 q =
      ReadM.declarator t.resolved isConst d q := by
  induction h generalizing isConst d with
  | void =>
    exact (declared_declare_eq hq (show Ty.Writable q types _ from .void) isConst d).trans
      (by cases isConst <;> rfl)
  | arith k =>
    exact (declared_declare_eq hq (show Ty.Writable q types _ from .arith k) isConst d).trans
      (by cases isConst <;> rfl)
  | struct hname hmem htypedef hstruct =>
    exact (declared_declare_eq hq (.struct hname hmem htypedef hstruct) isConst d).trans
      (by cases isConst <;> rfl)
  | @pointer target constTarget htarget hconst' ih =>
    refine (ih constTarget (d.marked isConst) fun harray _ => ?_).trans ?_
    · cases constTarget with
      | false => rfl
      | true => rw [hconst' rfl] at harray; cases harray
    · rw [ReadM.declarator_marked (by rw [isFunction_resolved, htarget.isFunction_eq_false])]
      rfl
  | @array element n cells helement hvoid hn hcells hmax ih =>
    refine (ih isConst (d.suffixed (.array (some (boundExpr n)))) fun _ hmarked => ?_).trans ?_
    · rw [Declarator.isMarked_suffixed] at hmarked
      cases hmarked
    · rw [← cells?_resolved] at hcells
      have hbound := ReadM.suffixes_bound hn hcells hmax
      cases hmarked : d.isMarked with
      | false => exact ReadM.declarator_suffixed_of_not_isMarked hmarked (hbound false) isConst
      | true =>
        rw [hconst rfl hmarked]
        exact ReadM.declarator_suffixed_of_isMarked hmarked (hbound true) false
  | @functionPointer ret params variadic hret hretArray hparams hvalue hplain ihRet ihParams =>
    refine (ihRet false _ fun _ _ => rfl).trans ?_
    have hlist : ReadM.parameters ((declareAll params).length == 1) false (declareAll params) q =
        .ok ((if passesForVoid params then [] else resolvedAll params).map
          fun p => (p, ⟨none, none⟩)) := by
      cases hpasses : passesForVoid params with
      | true => exact parameters_of_passesForVoid hq hparams hpasses
      | false =>
        refine parameters_declareAll hq _ hparams hvalue hplain (fun p hp => ?_) fun p hp hone => ?_
        · refine ihParams p hp p.readonly .empty fun harray => ?_
          rw [(hvalue p hp).2] at harray
          cases harray
        · rw [declareAll_eq_map, List.length_map, beq_iff_eq, List.length_eq_one_iff] at hone
          obtain ⟨p', rfl⟩ := hone
          obtain rfl := List.mem_singleton.mp hp
          exact hpasses
    have hsuffix := ReadM.suffixes_params hlist ret.resolved variadic true
    rw [List.map_map, show (Prod.fst ∘ fun p : ParamTy => (p, (⟨none, none⟩ : ParamInfo))) = id from rfl,
      List.map_id] at hsuffix
    rw [ReadM.declarator_suffixed_of_isMarked (d.isMarked_marked isConst) hsuffix,
      ReadM.declarator_marked_function]
    rfl

end Ty.Writable

end Stepwise
