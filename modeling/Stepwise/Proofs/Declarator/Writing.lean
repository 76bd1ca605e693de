import Stepwise.Proofs.Syntax.Declarators
import Stepwise.Machine.Resolve

/-! # Writing declarations of types

A type is written from the name outwards: what the name is comes first, and the base type at
the end. A pointer is a mark in front, and an array or a function a suffix behind, with
parentheses around what stands between if that begins with a mark.
-/

namespace Stepwise

open Lexeme

/-- The words that a declaration names a kind by. -/
def ArithKind.words : ArithKind → List String
  | .bool => ["bool"]
  | .char => ["char"]
  | .signedChar => ["signed", "char"]
  | .unsignedChar => ["unsigned", "char"]
  | .wchar => ["wchar_t"]
  | .char16 => ["char16_t"]
  | .char32 => ["char32_t"]
  | .short => ["short"]
  | .unsignedShort => ["unsigned", "short"]
  | .int => ["int"]
  | .unsigned => ["unsigned", "int"]
  | .long => ["long"]
  | .unsignedLong => ["unsigned", "long"]
  | .longLong => ["long", "long"]
  | .unsignedLongLong => ["unsigned", "long", "long"]
  | .float => ["float"]
  | .double => ["double"]

theorem ArithKind.ofWords?_words (k : ArithKind) : ofWords? k.words = some k := by
  cases k <;> decide

theorem ArithKind.mem_typeWords_of_mem_words (k : ArithKind) : ∀ w ∈ k.words, w ∈ typeWords := by
  cases k <;> decide

namespace Declarator

/-- A declarator that only names what is declared. -/
def ofName (name : String) : Declarator := .mk default [] false (.named name) []

/-- A declarator without a name, marks or suffixes. -/
def empty : Declarator := .mk default [] false .anonymous []

/-- What is declared, as the target of a further pointer mark. -/
def marked (isConst : Bool) : Declarator → Declarator
  | .mk span marks reference base suffixes => .mk span (isConst :: marks) reference base suffixes

/-- What is declared, with a further suffix, from which parentheses keep marks away. -/
def suffixed (x : DeclaratorSuffix) (d : Declarator) : Declarator :=
  match d with
  | .mk span [] false base suffixes => .mk span [] false base (suffixes ++ [x])
  | d => .mk default [] false (.nested d) [x]

end Declarator

namespace Ty

/-- The words of a base type. -/
def baseWords : Ty → List String
  | void => ["void"]
  | arith k => k.words
  | struct name _ => [name]
  | _ => []

/-- A base type, constant or not, as a declaration begins. -/
def baseSpec (t : Ty) (isConst : Bool) : TypeSpec :=
  ⟨if isConst then ["const"] else [], t.baseWords, default⟩

/-- The bound of an array as it is written. -/
def boundExpr (n : Nat) : Expr := .literal default (.int n 10 false false)

mutual

/-- The declaration of what `d` declares as an object of the type, constant or not. -/
def declare : Ty → Bool → Declarator → TypeSpec × Declarator
  | pointer target constTarget, isConst, d => target.declare constTarget (d.marked isConst)
  | array element n, isConst, d => element.declare isConst (d.suffixed (.array (some (boundExpr n))))
  | functionPointer ⟨ret, params, variadic⟩, isConst, d =>
    ret.declare false ((d.marked isConst).suffixed (.params (declareAll params) variadic))
  | t, isConst, d => (t.baseSpec isConst, d)

/-- Parameters without names. -/
def declareAll : List ParamTy → List Param
  | [] => []
  | ⟨ty, _, readonly, _⟩ :: ps =>
    .mk default (ty.declare readonly .empty).1 (ty.declare readonly .empty).2 none :: declareAll ps

end

/-- The base type at the end of a declaration. -/
def base : Ty → Ty
  | pointer target _ => target.base
  | array element _ => element.base
  | functionPointer ⟨ret, _, _⟩ => ret.base
  | t => t

/-- From the name outwards, the type ends with a function that returns nothing. -/
def returnsVoid : Ty → Bool
  | pointer target _ => target.returnsVoid
  | array element _ => element.returnsVoid
  | functionPointer ⟨ret, _, _⟩ => ret.isVoid || ret.returnsVoid
  | _ => false

/-- The only parameter of the list ends with a function that returns nothing. -/
def passesForVoid : List ParamTy → Bool
  | [p] => p.ty.returnsVoid
  | _ => false

mutual

/-- The type that a declaration of the type is resolved to: parameter lists that pass for `void`
are empty. -/
def resolved : Ty → Ty
  | pointer target constTarget => pointer target.resolved constTarget
  | array element n => array element.resolved n
  | functionPointer ⟨ret, params, variadic⟩ =>
    functionPointer ⟨ret.resolved, if passesForVoid params then [] else resolvedAll params, variadic⟩
  | t => t

def resolvedAll : List ParamTy → List ParamTy
  | [] => []
  | ⟨ty, reference, readonly, optional⟩ :: ps =>
    ⟨ty.resolved, reference, readonly, optional⟩ :: resolvedAll ps

end

mutual

/-- No parameter list in the type passes for `void`. -/
def keepsParams : Ty → Bool
  | pointer target _ => target.keepsParams
  | array element _ => element.keepsParams
  | functionPointer ⟨ret, params, _⟩ =>
    ret.keepsParams && !passesForVoid params && allKeepParams params
  | _ => true

def allKeepParams : List ParamTy → Bool
  | [] => true
  | ⟨ty, _, _, _⟩ :: ps => ty.keepsParams && allKeepParams ps

end

mutual

/-- A declaration is resolved to its type exactly if no parameter list passes for `void`. -/
theorem resolved_eq_iff : (t : Ty) → t.resolved = t ↔ t.keepsParams = true
  | pointer target constTarget => by
    simp only [resolved, keepsParams, pointer.injEq, and_true, resolved_eq_iff target]
  | array element n => by
    simp only [resolved, keepsParams, array.injEq, and_true, resolved_eq_iff element]
  | functionPointer ⟨ret, params, variadic⟩ => by
    have hparams : (if passesForVoid params then [] else resolvedAll params) = params ↔
        passesForVoid params = false ∧ resolvedAll params = params := by
      cases hvoid : passesForVoid params with
      | false => simp
      | true =>
        have hne : params ≠ [] := by
          rintro rfl
          cases hvoid
        simp [hne.symm]
    simp only [resolved, keepsParams, functionPointer.injEq, FunctionOf.mk.injEq, hparams, and_true,
      resolved_eq_iff ret, resolvedAll_eq_iff params, Bool.and_eq_true, Bool.not_eq_true', and_assoc]
  | void | arith _ | function _ | struct .. | marker => ⟨fun _ => rfl, fun _ => rfl⟩

theorem resolvedAll_eq_iff : (params : List ParamTy) →
    (resolvedAll params = params ↔ allKeepParams params = true)
  | [] => ⟨fun _ => rfl, fun _ => rfl⟩
  | ⟨ty, reference, readonly, optional⟩ :: ps => by
    simp only [resolvedAll, allKeepParams, List.cons.injEq, ParamOf.mk.injEq, and_true,
      resolved_eq_iff ty, resolvedAll_eq_iff ps, Bool.and_eq_true]

end

theorem declareAll_eq_map (params : List ParamTy) :
    declareAll params = params.map fun p => .mk default (p.ty.declare p.readonly .empty).1
      (p.ty.declare p.readonly .empty).2 none := by
  induction params with
  | nil => rfl
  | cons p ps ih => rw [declareAll, ih, List.map_cons]

@[simp] theorem isArray_resolved (t : Ty) : t.resolved.isArray = t.isArray := by
  cases t <;> rfl

@[simp] theorem isFunction_resolved (t : Ty) : t.resolved.isFunction = t.isFunction := by
  cases t <;> rfl

/-- Resolving changes nothing about the cells of objects. -/
theorem cells?_resolved : (t : Ty) → t.resolved.cells? = t.cells?
  | array element n => by rw [resolved, cells?, cells?, cells?_resolved element]
  | pointer .. | functionPointer _ | void | arith _ | function _ | struct .. | marker => rfl

end Ty

/-- The types of objects, and `void`, that can be declared where `types` are names of types: by
value parameters and results are no arrays, targets of constant pointers neither, and every array
has a bound of a machine word and no more cells than the limits allow. -/
inductive Ty.Writable (q : Config × State) (types : List String) : Ty → Prop
  | void : Writable q types .void
  | arith (k : ArithKind) : Writable q types (.arith k)
  | struct {name : String} {members : List MemberTy} : isName name = true → name ∈ types →
    q.2.typedefs.lookup name = none → q.2.struct? name = some ⟨name, members⟩ →
    Writable q types (.struct name members)
  | pointer {target : Ty} {constTarget : Bool} : Writable q types target →
    (constTarget = true → target.isArray = false) → Writable q types (.pointer target constTarget)
  | array {element : Ty} {n cells : Nat} : Writable q types element → element.isVoid = false →
    n < pow2 64 → (Ty.array element n).cells? = some cells → cells ≤ q.1.limits.maxCells →
    Writable q types (.array element n)
  | functionPointer {ret : Ty} {params : List ParamTy} {variadic : Bool} : Writable q types ret →
    ret.isArray = false → (∀ p ∈ params, Writable q types p.ty) →
    (∀ p ∈ params, p.ty.isVoid = false ∧ p.ty.isArray = false) →
    (∀ p ∈ params, p.reference = false ∧ p.optional = false) →
    Writable q types (.functionPointer ⟨ret, params, variadic⟩)

namespace Declarator

variable {types : List String}

@[simp] theorem name?_marked (isConst : Bool) (d : Declarator) :
    (d.marked isConst).name? = d.name? := by
  obtain ⟨span, marks, reference, base, suffixes⟩ := d
  cases base <;> rfl

/-- A suffix stands behind an unmarked declarator, or behind parentheses. -/
theorem suffixed_cases (x : DeclaratorSuffix) (d : Declarator) :
    (∃ span base suffixes, d = .mk span [] false base suffixes ∧
      d.suffixed x = .mk span [] false base (suffixes ++ [x])) ∨
    (d.isMarked = true ∧ d.suffixed x = .mk default [] false (.nested d) [x]) := by
  obtain ⟨span, marks, reference, base, suffixes⟩ := d
  cases marks with
  | cons => exact .inr ⟨rfl, rfl⟩
  | nil =>
    cases reference with
    | true => exact .inr ⟨rfl, rfl⟩
    | false => exact .inl ⟨span, base, suffixes, rfl, rfl⟩

@[simp] theorem name?_suffixed (x : DeclaratorSuffix) (d : Declarator) :
    (d.suffixed x).name? = d.name? := by
  obtain ⟨span, base, suffixes, rfl, heq⟩ | ⟨-, heq⟩ := d.suffixed_cases x
  · rw [heq]
    cases base <;> rfl
  · rw [heq]
    rfl

@[simp] theorem isMarked_suffixed (x : DeclaratorSuffix) (d : Declarator) :
    (d.suffixed x).isMarked = false := by
  obtain ⟨span, base, suffixes, -, heq⟩ | ⟨-, heq⟩ := d.suffixed_cases x <;> rw [heq] <;> rfl

@[simp] theorem isMarked_marked (isConst : Bool) (d : Declarator) :
    (d.marked isConst).isMarked = true := by
  obtain ⟨span, marks, reference, base, suffixes⟩ := d
  rfl

theorem print_marked_ne_nil (isConst : Bool) (d : Declarator) : (d.marked isConst).print ≠ [] := by
  obtain ⟨span, marks, reference, base, suffixes⟩ := d
  exact nofun

theorem print_suffixed_ne_nil (x : DeclaratorSuffix) (d : Declarator) :
    (d.suffixed x).print ≠ [] := by
  obtain ⟨y, us, hus, -⟩ := x.exists_print
  obtain ⟨span, base, suffixes, -, heq⟩ | ⟨-, heq⟩ := d.suffixed_cases x
  · simp [heq, print, DeclaratorSuffix.printAll_append, DeclaratorSuffix.printAll, hus]
  · rw [heq]
    exact nofun

theorem Plain.marked {d : Declarator} (h : d.Plain types) (isConst : Bool) :
    (d.marked isConst).Plain types := by
  obtain ⟨span, marks, reference, base, suffixes⟩ := d
  exact h

/-- Parameter lists may only be put behind a mark. -/
theorem Plain.suffixed {d : Declarator} (h : d.Plain types) {x : DeclaratorSuffix}
    (hx : x.Plain types) (hcall : ∀ params variadic, x = .params params variadic → d.isMarked = true) :
    (d.suffixed x).Plain types := by
  obtain ⟨span, base, suffixes, rfl, heq⟩ | ⟨hmarked, heq⟩ := d.suffixed_cases x
  · rw [heq]
    obtain ⟨hbase, hsuffixes, hcallable⟩ := h
    rw [DeclaratorSuffix.allPlain_iff] at hsuffixes
    refine ⟨hbase, (DeclaratorSuffix.allPlain_iff _).mpr ?_, fun hb ps v hm => ?_⟩
    · exact List.forall_mem_append.mpr ⟨hsuffixes, List.forall_mem_singleton.mpr hx⟩
    · obtain hm | hm := List.mem_append.mp hm
      · exact hcallable hb ps v hm
      · cases hcall ps v (List.mem_singleton.mp hm).symm
  · rw [heq]
    exact ⟨⟨hmarked, h⟩, ⟨hx, trivial⟩, nofun⟩

end Declarator

namespace Ty

variable {q : Config × State} {types : List String}

/-- What a declaration is written around stays in it. -/
theorem declare_induction {P : Declarator → Prop} (hmarked : ∀ isConst d, P d → P (d.marked isConst))
    (hsuffixed : ∀ x d, P d → P (d.suffixed x)) :
    (t : Ty) → (isConst : Bool) → (d : Declarator) → P d → P (t.declare isConst d).2
  | pointer target constTarget, isConst, d, hd =>
    declare_induction hmarked hsuffixed target constTarget _ (hmarked isConst d hd)
  | array element _, isConst, d, hd =>
    declare_induction hmarked hsuffixed element isConst _ (hsuffixed _ d hd)
  | functionPointer ⟨ret, _, _⟩, isConst, d, hd =>
    declare_induction hmarked hsuffixed ret false _ (hsuffixed _ _ (hmarked isConst d hd))
  | void, _, _, hd | arith _, _, _, hd | function _, _, _, hd | struct .., _, _, hd
  | marker, _, _, hd => hd

theorem name?_declare (t : Ty) (isConst : Bool) (d : Declarator) :
    (t.declare isConst d).2.name? = d.name? :=
  declare_induction (P := fun d' => d'.name? = d.name?) (fun _ _ h => by rwa [Declarator.name?_marked])
    (fun _ _ h => by rwa [Declarator.name?_suffixed]) t isConst d rfl

theorem print_declare_ne_nil (t : Ty) (isConst : Bool) {d : Declarator} (h : d.print ≠ []) :
    (t.declare isConst d).2.print ≠ [] :=
  declare_induction (P := fun d' => d'.print ≠ []) (fun isConst d _ => d.print_marked_ne_nil isConst)
    (fun x d _ => d.print_suffixed_ne_nil x) t isConst d h

theorem isKnown_baseSpec {t : Ty} (h : t.Writable q types) (isConst : Bool)
    (hwords : t.baseWords ≠ []) : (t.baseSpec isConst).IsKnown types := by
  refine ⟨?_, ?_⟩
  · cases isConst <;> simp [baseSpec, specifierWords]
  · cases h with
    | void => exact .inl (by simp [baseSpec, baseWords, typeWords])
    | arith k => exact .inl ⟨hwords, k.mem_typeWords_of_mem_words⟩
    | struct hname hmem => exact .inr ⟨_, hmem, hname, rfl⟩
    | _ => exact absurd rfl hwords

namespace Writable

variable {t : Ty}

/-- The words of the base type are known. -/
theorem isKnown_declare (h : t.Writable q types) (isConst : Bool) (d : Declarator) :
    (t.declare isConst d).1.IsKnown types := by
  induction h generalizing isConst d with
  | void => exact isKnown_baseSpec (q := q) .void isConst nofun
  | arith k => exact isKnown_baseSpec (q := q) (.arith k) isConst (by cases k <;> nofun)
  | struct hname hmem htypedef hstruct =>
    exact isKnown_baseSpec (.struct hname hmem htypedef hstruct) isConst nofun
  | pointer _ _ ih => exact ih _ _
  | array _ _ _ _ _ ih => exact ih _ _
  | functionPointer _ _ _ _ _ ih => exact ih _ _

/-- Nothing but `void` is written as that word alone. -/
theorem print_declare_ne_nil_of_words (h : t.Writable q types) (hvoid : t.isVoid = false)
    (isConst : Bool) (d : Declarator) (hwords : (t.declare isConst d).1.words = ["void"]) :
    (t.declare isConst d).2.print ≠ [] := by
  cases h with
  | void => cases hvoid
  | arith k =>
    have hne : k.words ≠ ["void"] := by cases k <;> decide
    exact absurd hwords hne
  | struct hname =>
    obtain rfl : _ = "void" := (List.cons.inj hwords).1
    exact absurd hname (by decide)
  | @pointer target constTarget =>
    exact print_declare_ne_nil target constTarget (d.print_marked_ne_nil isConst)
  | @array element => exact print_declare_ne_nil element isConst (d.print_suffixed_ne_nil _)
  | @functionPointer ret =>
    exact print_declare_ne_nil ret false ((d.marked isConst).print_suffixed_ne_nil _)

/-- A declaration is written with plain declarators only. -/
theorem plain_declare (h : t.Writable q types) (isConst : Bool) {d : Declarator}
    (hd : d.Plain types) : (t.declare isConst d).2.Plain types := by
  induction h generalizing isConst d with
  | void => exact hd
  | arith => exact hd
  | struct => exact hd
  | pointer _ _ ih => exact ih _ (hd.marked isConst)
  | @array element n _ _ _ hn _ _ ih =>
    have hbound : (boundExpr n).Plain types :=
      .int default false false (by decide) (Nat.lt_trans hn (by decide))
    exact ih _ (hd.suffixed hbound nofun)
  | @functionPointer ret params variadic _ _ hparams htypes _ ihRet ihParams =>
    refine ihRet _ ((hd.marked isConst).suffixed ?_ fun _ _ _ => d.isMarked_marked isConst)
    refine (Param.allPlain_iff _).mpr ?_
    rw [declareAll_eq_map, List.forall_mem_map]
    intro p hp
    exact ⟨(hparams p hp).isKnown_declare _ _, ihParams p hp _ ⟨trivial, trivial, nofun⟩, rfl,
      (hparams p hp).print_declare_ne_nil_of_words (htypes p hp).1 _ _⟩

end Writable

end Ty

end Stepwise
