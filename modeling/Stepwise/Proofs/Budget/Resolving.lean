import Stepwise.Proofs.Closure.Questions

/-! # Declarators within a budget

Every bound that a declarator writes is checked against the number of scalar cells that an
object may hold. So a declarator leaves the budget only by the structs that it is given, and
where it would make a larger type, the declaration faults and changes nothing.
-/

namespace Stepwise

namespace Ty

/-- An object of the type holds no more than `limit` scalar cells. -/
def Within (limit : Nat) (ty : Ty) : Prop := ∃ n, ty.cells? = some n ∧ n ≤ limit

/-- The structs that are elements of the type, or are the type, are within the limit. -/
def StructsWithin (limit : Nat) : Ty → Prop
  | array element _ => element.StructsWithin limit
  | struct name members => (struct name members).Within limit
  | _ => True

/-- If the type is over the limit, it is by its structs. -/
def Budgeted (limit : Nat) (ty : Ty) : Prop := ty.StructsWithin limit → ty.Within limit

end Ty

/-- The types that have names are over the limit by their structs only. -/
def State.Budgeted (limit : Nat) (s : State) : Prop := ∀ e ∈ s.typedefs, e.2.Budgeted limit

namespace ReadM

variable {α β : Type} {q : Config × State} {P : Ty → Prop}

/-- A property of types that declarators keep when they add a layer to a type. -/
structure Layered (q : Config × State) (P : Ty → Prop) : Prop where
  pointer : ∀ target constTarget, P (.pointer target constTarget)
  functionPointer : ∀ sig, P (.functionPointer sig)
  function : ∀ sig, P (.function sig)
  unbounded : ∀ element, P element → P (.array element 0)
  bounded : ∀ element size ty, P element → bounded element size q = .ok ty → P ty

namespace Layered

variable (hP : Layered q P)

include hP

theorem pointed (marks : List Bool) {ty : Ty} (hty : P ty) (constTarget readonly : Bool) :
    P (pointed marks ty constTarget readonly).1 := by
  induction marks generalizing ty constTarget readonly with
  | nil => exact hty
  | cons isConst marks ih =>
    cases ty with
    | function sig => exact ih (hP.functionPointer sig) isConst isConst
    | _ => exact ih (hP.pointer _ constTarget) isConst isConst

theorem suffixes {ty : Ty} (hty : P ty) {first : Bool} {ss : List DeclaratorSuffix}
    {r : Ty × Bool × List ParamInfo} (h : suffixes ty first ss q = .ok r) : P r.1 := by
  induction ss generalizing first r with
  | nil =>
    cases h
    exact hty
  | cons suffix ss ih =>
    cases suffix with
    | array bound =>
      cases bound with
      | some size =>
        obtain ⟨rest, hrest, h'⟩ := of_bind_eq_ok h
        obtain ⟨n, -, h''⟩ := of_bind_eq_ok h'
        obtain ⟨ty', hty', hr⟩ := of_bind_eq_ok h''
        cases hr
        exact hP.bounded _ n ty' (ih hrest) hty'
      | none =>
        obtain ⟨rest, hrest, h'⟩ := of_bind_eq_ok h
        cases first with
        | true =>
          cases h'
          exact hP.unbounded _ (ih hrest)
        | false => cases h'
    | params ps isVariadic =>
      obtain ⟨rest, -, h'⟩ := of_bind_eq_ok h
      obtain ⟨params, -, hr⟩ := of_bind_eq_ok h'
      cases hr
      exact hP.function _

/-- A declarator keeps the property. -/
theorem declarator {base : Ty} (hbase : P base) {isConst : Bool} {d : Declarator} {D : Declared}
    (h : declarator base isConst d q = .ok D) : P D.type := by
  obtain ⟨span, marks, isReference, inner, ss⟩ := d
  unfold ReadM.declarator at h
  obtain ⟨rest, hrest, h'⟩ := of_bind_eq_ok h
  have hty : P rest.1 := hP.suffixes (hP.pointed marks hbase isConst isConst) hrest
  cases inner with
  | named name =>
    cases h'
    exact hty
  | anonymous =>
    cases h'
    exact hty
  | nested d =>
    obtain ⟨D', hD, hr⟩ := of_bind_eq_ok h'
    cases hr
    have htype : P D'.type := declarator hty hD
    exact htype

theorem declared {spec : TypeSpec} {d : Declarator} {D : Declared}
    (hbase : ∀ base, baseType spec q = .ok base → P base) (h : declared spec d q = .ok D) :
    P D.type := by
  obtain ⟨base, hb, hd⟩ := of_bind_eq_ok h
  exact hP.declarator (hbase base hb) hd

end Layered

section Budget

variable {c : Config} {s : State}

/-- What a bound over the budget is answered with. -/
def overBudget (s : State) : Fault := ⟨.declaration .tooLarge, s.cursor⟩

theorem checkCells_of_within {ty : Ty} (h : ty.Within c.limits.maxCells) :
    checkCells ty (c, s) = .ok () := by
  obtain ⟨n, hn, hle⟩ := h
  have hcheck : checkCells ty (c, s) =
      (if n > c.limits.maxCells then fail (.declaration .tooLarge) else pure ()) (c, s) := by
    rw [checkCells, hn]
    rfl
  rw [hcheck, if_neg (Nat.not_lt.mpr hle)]
  rfl

theorem checkCells_of_not_within {ty : Ty} (h : ¬ty.Within c.limits.maxCells) :
    checkCells ty (c, s) = .error (overBudget s) := by
  cases hn : ty.cells? with
  | none =>
    rw [checkCells, hn]
    rfl
  | some n =>
    have hcheck : checkCells ty (c, s) =
        (if n > c.limits.maxCells then fail (.declaration .tooLarge) else pure ()) (c, s) := by
      rw [checkCells, hn]
      rfl
    rw [hcheck, if_pos (Nat.lt_of_not_le fun hle => h ⟨n, hn, hle⟩)]
    rfl

/-- A written bound makes an array within the budget. -/
theorem within_of_bounded {element ty : Ty} {size : Int}
    (h : bounded element size (c, s) = .ok ty) : ty.Within c.limits.maxCells := by
  unfold bounded at h
  split at h
  · cases h
  · split at h
    · cases h
    · obtain ⟨u, hcheck, hty⟩ := of_bind_eq_ok h
      cases hty
      refine Classical.byContradiction fun hover => ?_
      rw [checkCells_of_not_within hover] at hcheck
      cases hcheck

/-- Types stay within a budget of at least one cell, as far as their structs do. -/
theorem layered_budgeted (hlimit : 0 < c.limits.maxCells) :
    Layered (c, s) (Ty.Budgeted c.limits.maxCells) where
  pointer _ _ _ := ⟨1, rfl, hlimit⟩
  functionPointer _ _ := ⟨1, rfl, hlimit⟩
  function _ _ := ⟨1, rfl, hlimit⟩
  unbounded element h hstructs := by
    obtain ⟨n, hn, -⟩ := h hstructs
    refine ⟨0, ?_, Nat.zero_le _⟩
    rw [Ty.cells?, hn, Option.bind_some, Nat.zero_mul]
    decide
  bounded _ _ _ _ h _ := within_of_bounded h

/-- A base type is `void`, or it has a name, or its words are those of an arithmetic type. -/
theorem baseType_eq_ok {spec : TypeSpec} {base : Ty} (h : baseType spec (c, s) = .ok base) :
    base = .void ∨ (∃ word, s.typedefs.lookup word = some base) ∨ (∃ d : StructTy, base = d.type) ∨
      ∃ k, base = .arith k := by
  have hread (f : Config × State → ReadM Ty) : (read >>= f : ReadM Ty) (c, s) = f (c, s) (c, s) := rfl
  rw [baseType, hread] at h
  dsimp -zeta only at h
  cases hspec : spec.specifiers.find? fun word => !c.isSpecifier word with
  | some word =>
    rw [hspec] at h
    cases h
  | none =>
    rw [hspec] at h
    extract_lets named at h
    dsimp only at h
    cases hty : named <|> (ArithKind.ofWords? spec.words).map .arith with
    | none =>
      rw [hty] at h
      cases h
    | some ty =>
      rw [hty] at h
      cases h
      rw [Option.orElse_eq_orElse, Option.orElse_eq_or] at hty
      rcases Option.or_eq_some_iff.mp hty with hty | ⟨-, hty⟩
      · dsimp only [named] at hty
        split at hty
        · split at hty
          · cases hty
            exact .inl rfl
          · rw [Option.orElse_eq_orElse, Option.orElse_eq_or] at hty
            rcases Option.or_eq_some_iff.mp hty with hty | ⟨-, hty⟩
            · exact .inr (.inl ⟨_, hty⟩)
            · obtain ⟨d, -, rfl⟩ := Option.map_eq_some_iff.mp hty
              exact .inr (.inr (.inl ⟨d, rfl⟩))
        · cases hty
      · obtain ⟨k, -, rfl⟩ := Option.map_eq_some_iff.mp hty
        exact .inr (.inr (.inr ⟨k, rfl⟩))

theorem budgeted_of_baseType (hlimit : 0 < c.limits.maxCells)
    (hs : s.Budgeted c.limits.maxCells) {spec : TypeSpec} {base : Ty}
    (h : baseType spec (c, s) = .ok base) : base.Budgeted c.limits.maxCells := by
  rcases baseType_eq_ok h with rfl | ⟨word, hword⟩ | ⟨d, rfl⟩ | ⟨k, rfl⟩
  · exact fun _ => ⟨1, rfl, hlimit⟩
  · obtain ⟨before, after, hmem, -⟩ := List.lookup_eq_some_iff.mp hword
    exact hs (word, base) (hmem ▸ List.mem_append_right _ List.mem_cons_self)
  · exact fun hstructs => hstructs
  · exact fun _ => ⟨1, rfl, hlimit⟩

end Budget

end ReadM

/-- The configuration with another budget. -/
def Config.withMaxCells (c : Config) (n : Nat) : Config :=
  { c with numerics := { c.numerics with limits := { c.numerics.limits with maxCells := n } } }

namespace Ty

variable (t : LimitsTable) (n : Nat)

mutual

/-- Sizes in bytes have nothing to do with the budget. -/
theorem size?_withMaxCells : (ty : Ty) → size? { t with maxCells := n } ty = size? t ty
  | .array element size => by rw [size?, size?, size?_withMaxCells element]
  | .struct _ members => by rw [size?, size?, sizes?_withMaxCells members 0]
  | .void | .marker | .arith _ | .pointer .. | .functionPointer _ | .function _ => rfl

theorem sizes?_withMaxCells : (members : List (MemberOf Ty)) → (total : Nat) →
    sizes? { t with maxCells := n } members total = sizes? t members total
  | [], _ => rfl
  | ⟨_, ty, _, _⟩ :: ms, total => by
    rw [sizes?, sizes?, size?_withMaxCells ty]
    cases size? t ty with
    | none => rfl
    | some bytes =>
      dsimp only
      cases word? (total + bytes) with
      | none => rfl
      | some sum => exact sizes?_withMaxCells ms sum

end

end Ty

namespace ReadM

variable {α β : Type}

/-- The question has the answer that it has under any larger budget, or the budget is exceeded. -/
def Checked (x : ReadM α) : Prop := ∀ c s n, c.limits.maxCells ≤ n →
  x (c, s) = x (c.withMaxCells n, s) ∨ x (c, s) = .error (overBudget s)

namespace Checked

variable {x y : ReadM α} {f : α → ReadM β}

theorem pure (a : α) : Checked (pure a) := fun _ _ _ _ => .inl rfl

theorem fail (cause : FaultCause) : Checked (fail cause : ReadM α) := fun _ _ _ _ => .inl rfl

theorem bind (hx : Checked x) (hf : ∀ a, Checked (f a)) : Checked (x >>= f) := by
  intro c s n hn
  simp only [Bind.bind, ReaderT.bind, Except.bind]
  rcases hx c s n hn with h | h
  · rw [h]
    cases x (c.withMaxCells n, s) with
    | error _ => exact .inl rfl
    | ok a => exact hf a c s n hn
  · rw [h]
    exact .inr rfl

theorem ite {p : Prop} [Decidable p] (hx : Checked x) (hy : Checked y) :
    Checked (if p then x else y) := by
  split
  · exact hx
  · exact hy

/-- A check that may end the computation. -/
theorem check {p : Prop} [Decidable p] {x : ReadM PUnit} {f : PUnit → ReadM β} (hx : Checked x)
    (hf : Checked (f ⟨⟩)) : Checked (if p then x >>= f else f ⟨⟩) :=
  ite (bind hx fun _ => hf) hf

theorem ofExcept (r : Except FaultCause α) : Checked (ofExcept r) := by
  cases r with
  | ok a => exact pure a
  | error cause => exact fail cause

/-- What is asked of the setting has nothing to do with the budget. -/
theorem read_bind {f : Config × State → ReadM β}
    (hf : ∀ c s n, f (Config.withMaxCells c n, s) = f (c, s)) (hq : ∀ q, Checked (f q)) :
    Checked (read >>= f) := by
  intro c s n hn
  change f (c, s) (c, s) = f (c.withMaxCells n, s) (c.withMaxCells n, s) ∨ _
  rw [hf]
  exact hq (c, s) c s n hn

theorem baseType (spec : TypeSpec) : Checked (baseType spec) := by
  refine read_bind (fun _ _ _ => rfl) fun q => ?_
  dsimp only
  split
  · exact fail _
  · split
    · exact pure _
    · exact fail _

theorem byteSize (ty : Ty) : Checked (byteSize ty) := by
  refine read_bind (fun c s n => ?_) fun q => ?_
  · have hsize : ty.size? (c.withMaxCells n).limits = ty.size? c.limits :=
      Ty.size?_withMaxCells c.limits n ty
    rw [hsize]
  · split
    · exact pure _
    · exact fail _

theorem bounded (element : Ty) (size : Int) : Checked (bounded element size) := by
  unfold ReadM.bounded
  refine check (fail _) ?_
  refine check (fail _) ?_
  refine bind ?_ fun _ => pure _
  intro c s n hn
  by_cases h : (Ty.array element size.toNat).Within c.limits.maxCells
  · obtain ⟨cells, hcells, hle⟩ := h
    refine .inl ?_
    have hlarger : (Ty.array element size.toNat).Within (c.withMaxCells n).limits.maxCells :=
      ⟨cells, hcells, Nat.le_trans hle hn⟩
    rw [checkCells_of_within ⟨cells, hcells, hle⟩, checkCells_of_within hlarger]
  · exact .inr (checkCells_of_not_within h)

/-- The value of a name in a constant expression. -/
theorem identifier (span : Span) (name : String) : Checked (constant (.identifier span name)) := by
  unfold ReadM.constant
  refine read_bind (fun _ _ _ => rfl) fun q => ?_
  split
  · exact pure _
  · exact fail _

mutual

theorem constant : (e : Expr) → Checked (constant e)
  | .literal _ (.int v _ _ _) => by
    unfold ReadM.constant
    exact ite (pure _) (fail _)
  | .literal _ (.char code _) => pure _
  | .literal _ (.bool b) => pure _
  | .identifier span name => identifier span name
  | .unary _ op operand => bind (constant operand) fun v => ofExcept _
  | .binary _ op left right =>
    bind (constant left) fun l => bind (constant right) fun r => ofExcept _
  | .conditional _ condition thenExpr elseExpr =>
    bind (constant condition) fun _ => ite (constant thenExpr) (constant elseExpr)
  | .cast _ _ _ operand => by
    unfold ReadM.constant
    exact constant operand
  | .sizeofType _ spec target =>
    bind (baseType spec) fun base => bind (declarator base spec.isConst target) fun d =>
      bind (byteSize d.type) fun _ => pure _
  | .literal _ (.float ..) | .literal _ (.string ..) | .literal _ .null | .qualified .. => fail _
  | .logical .. | .assign .. | .comma .. | .call .. | .index .. | .member .. => fail _
  | .sizeofExpr .. | .list .. => fail _

theorem declarator (base : Ty) (isConst : Bool) : (d : Declarator) →
    Checked (declarator base isConst d)
  | .mk _ marks isReference inner suffixList => by
    unfold ReadM.declarator
    refine bind (suffixes _ true suffixList) fun r => ?_
    match inner with
    | .named name => exact pure _
    | .anonymous => exact pure _
    | .nested d => exact bind (declarator r.1 false d) fun _ => pure _

theorem suffixes (ty : Ty) (first : Bool) : (ss : List DeclaratorSuffix) →
    Checked (suffixes ty first ss)
  | [] => pure _
  | .array (some size) :: rest =>
    bind (suffixes ty false rest) fun r =>
      bind (constant size) fun n => bind (bounded r.1 n) fun _ => pure _
  | .array none :: rest =>
    bind (suffixes ty false rest) fun _ => check (fail _) (pure _)
  | .params ps _ :: rest =>
    bind (suffixes ty false rest) fun _ =>
      bind (parameters (ps.length == 1) false ps) fun _ => pure _

theorem parameters (only defaulted : Bool) : (ps : List Param) →
    Checked (parameters only defaulted ps)
  | [] => pure _
  | .mk _ spec d default :: rest => by
    unfold ReadM.parameters
    refine bind (baseType spec) fun base => ite (pure _) ?_
    refine bind (declarator base spec.isConst d) fun declared => check (fail _) ?_
    exact bind (parameters only _ rest) fun _ => pure _

end

theorem declared (spec : TypeSpec) (d : Declarator) : Checked (declared spec d) :=
  bind (baseType spec) fun base => declarator base spec.isConst d

end Checked

section Budget

variable {c : Config} {s : State} {spec : TypeSpec} {d : Declarator} {D : Declared}
  (hlimit : 0 < c.limits.maxCells) (hs : s.Budgeted c.limits.maxCells)

include hlimit hs

/-- What is declared is within the budget, as far as the structs in it are. -/
theorem budgeted_of_declared (h : declared spec d (c, s) = .ok D) :
    D.type.Budgeted c.limits.maxCells :=
  (layered_budgeted hlimit).declared (fun _ => budgeted_of_baseType hlimit hs) h

/-- What would be over the budget, and not by its structs, is not declared. -/
theorem declared_over_budget {n : Nat} (hn : c.limits.maxCells ≤ n)
    (h : declared spec d (c.withMaxCells n, s) = .ok D)
    (hstructs : D.type.StructsWithin c.limits.maxCells) (hover : ¬D.type.Within c.limits.maxCells) :
    declared spec d (c, s) = .error (overBudget s) := by
  rcases Checked.declared spec d c s n hn with heq | hfault
  · exact absurd (budgeted_of_declared hlimit hs (heq.trans h) hstructs) hover
  · exact hfault

end Budget

end ReadM

end Stepwise
