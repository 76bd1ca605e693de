import Stepwise.Proofs.Closure.Drives
import Stepwise.Proofs.Operator.Operands

/-! # Constant folding and evaluation

Constants are folded without types, and evaluated with them. The two agree on every expression
but for three ways in which the type of a number matters to folding: a conversion to `bool`, the
complement of an unsigned number, and the number of bits by which a shift moves at most.
-/

namespace Stepwise

variable {c : Config} {s t : State}

/-- The fault of a right operand for which an operator has no result. -/
def OperatorFault.isUndefined : OperatorFault → Bool
  | divisionByZero | shiftCount _ => true
  | _ => false

def FaultCause.isUndefined : FaultCause → Bool
  | operator f => f.isUndefined
  | _ => false

namespace Constant

/-- A shift moves by all the places of its count, or would not move further. -/
def MovesAll (a b : Int) : Prop := 0 ≤ b ∧ (b ≤ 126 ∨ b = 127 ∧ -2 ^ 126 ≤ a ∧ a < 2 ^ 126)

theorem of_checked {x v : Int} (h : checked x = .ok v) : Wide.holds x = true ∧ x = v := by
  unfold checked at h
  split at h
  · cases h
    exact ⟨‹_›, rfl⟩
  · cases h

theorem eq_exact_of_isComparison {op : BinaryOp} {a b v : Int} (hop : op.isComparison = true)
    (h : binary op a b = .ok v) : v = op.exact a b := by
  cases op <;> first
    | exact absurd hop (by decide)
    | (cases h; simp [truth, BinaryOp.exact])

/-- A number of fewer bits than that has lost all of them after 126 places. -/
theorem shiftRight_last {a : Int} (hmin : -2 ^ 126 ≤ a) (hmax : a < 2 ^ 126) :
    a >>> (127 : Nat) = a >>> (126 : Nat) := by
  simp only [Int.shiftRight_eq_div_pow, Nat.cast_pow, Nat.cast_ofNat]
  omega

theorem shiftCount_of_le {b : Int} (hb : b ≤ 126) : shiftCount b = b.toNat := by
  unfold shiftCount
  omega

end Constant

namespace Numerics

variable {n : Numerics} {j k : ArithKind} {a b v x : Int}

/-- The answer is the number of the kind, or a fault of another kind than that there is none. -/
def Folds (k : ArithKind) (v : Int) : Except OperatorFault Value → Prop
  | .ok w => w.IsInt k v
  | .error cause => cause.isUndefined = false

/-- The kind of a number after its sign has changed. -/
def negatedKind (t : LimitsTable) (k : ArithKind) (v : Int) : ArithKind :=
  if v > 0 && (t.widened k).isUnsigned then (t.widened k).signedCounterpart else t.widened k

/-- The kind of a complement. -/
def complementKind (t : LimitsTable) (k : ArithKind) : ArithKind := t.promote (t.widened k) .int

/-- The kind of what a unary operator makes of the number `v`. -/
def unaryKind (t : LimitsTable) (op : UnaryOp) (k : ArithKind) (v : Int) : ArithKind :=
  match op with
  | .neg => negatedKind t k v
  | .plus => k
  | .bitNot => complementKind t k
  | _ => .bool

theorem negatedKind_spec {t : LimitsTable} (ht : t.Standard) (hk : k.isIntegral = true) :
    (negatedKind t k v).isIntegral = true ∧ negatedKind t k v ≠ .bool := by
  obtain ⟨hi, hb⟩ := LimitsTable.widened_spec ht hk
  unfold negatedKind
  split
  · generalize t.widened k = kind at hi hb ⊢
    cases kind <;> first | exact ⟨rfl, nofun⟩ | cases hi
  · exact ⟨hi, hb⟩

variable (hf : n.overflow = .fault)

include hf

/-- Arithmetic that does not overflow is folded as it is computed, before it is fitted to its
kind. -/
theorem integerResult?_of_binary {op : BinaryOp} (hop : op.isComparison = false)
    (hshift : op.isShift = false) (h : Constant.binary op a b = .ok v) :
    n.integerResult? k op a b = some (.ok v) := by
  cases op with
  | add | sub =>
    obtain ⟨hwide, rfl⟩ := Constant.of_checked h
    simp only [integerResult?, hwide, if_true]
  | mul =>
    obtain ⟨hwide, rfl⟩ := Constant.of_checked h
    simp only [integerResult?, hf, hwide, if_true]
  | div =>
    simp only [Constant.binary] at h
    split at h
    · cases h
    · rename_i hne
      obtain ⟨-, rfl⟩ := Constant.of_checked h
      simp only [integerResult?, hne, if_false]
  | rem =>
    simp only [Constant.binary] at h
    split at h
    · cases h
    · rename_i hne
      split at h
      · cases h
      · cases h
        simp only [integerResult?, hne, if_false]
  | bitAnd | bitOr | bitXor =>
    cases h
    rfl
  | shl | shr => cases hshift
  | eq | ne | lt | le | gt | ge => cases hop

variable (hn : n.limits.Standard)

include hn

theorem folds_value (hk : k.isIntegral = true) (hb : k ≠ .bool) :
    Folds k x (n.value k (.int x)) := by
  obtain ⟨min, max, -, h⟩ := settles_value (x := x) hn hk hb
  rw [hf] at h
  dsimp only at h
  split at h
  · rw [h]
    exact ⟨rfl, rfl⟩
  · obtain ⟨what, h⟩ := h
    rw [h]
    rfl

/-- No kind holds the number. -/
theorem folds_far (hk : k.isIntegral = true) (hb : k ≠ .bool) (hx : x < -2 ^ 63 ∨ 2 ^ 64 ≤ x) :
    Folds k v (n.value k (.int x)) := by
  obtain ⟨min, max, hr, -, hmin, hmax, -⟩ := Limits.exists_width hk
  obtain ⟨min', max', hr', h⟩ := settles_value_of_far hn hk hb hf hx hx
  obtain ⟨rfl, rfl⟩ := Range.integral.inj (hr.symm.trans hr')
  dsimp only at h
  rw [if_neg (by omega)] at h
  obtain ⟨what, h⟩ := h
  rw [h]
  rfl

theorem folds_negate (hk : k.isIntegral = true) :
    Folds (negatedKind n.limits k a) (-a) (n.negate k (.int a)) := by
  obtain ⟨hi, hb⟩ := negatedKind_spec (v := a) hn hk
  exact folds_value hf hn hi hb

omit hf in
theorem complementKind_spec (hk : k.isIntegral = true) :
    (complementKind n.limits k).isIntegral = true ∧ complementKind n.limits k ≠ .bool :=
  LimitsTable.promote_spec (fun k => k.isIntegral = true ∧ k ≠ .bool)
    (LimitsTable.widened_spec hn hk) ⟨rfl, nofun⟩

/-- Where the complement is one in two's complement, it does not depend on the kind. -/
theorem folds_complement (hk : k.isIntegral = true)
    (hsigned : ∀ max, (n.limits.get (complementKind n.limits k)).range ≠ .integral 0 max) :
    Folds (complementKind n.limits k) (-a - 1) (n.complement k a) := by
  obtain ⟨hi, hb⟩ := complementKind_spec hn hk
  have hvalue := folds_value hf hn (x := -a - 1) hi hb
  unfold complement
  dsimp only
  split
  · exact absurd ‹_› (hsigned _)
  · exact hvalue

variable (hj : j.isIntegral = true) (hk : k.isIntegral = true)

include hj

theorem folds_shift {op : BinaryOp} (hop : op.isShift = true) (hmoves : Constant.MovesAll a b)
    (h : Constant.binary op a b = .ok v) :
    Folds (if j = .bool then .int else j) v (n.shift op j a b) := by
  obtain ⟨hnonneg, hmoves⟩ := hmoves
  have hcount : (decide (b < 0) || decide (128 ≤ b)) = false := by simp; omega
  have hi : (if j = .bool then ArithKind.int else j).isIntegral = true := by
    split
    · rfl
    · exact hj
  have hb : (if j = .bool then ArithKind.int else j) ≠ .bool := by
    split
    · decide
    · assumption
  simp only [shift, hcount, Bool.false_eq_true, if_false]
  generalize (if j = .bool then ArithKind.int else j) = kind at hi hb ⊢
  have hvalue := folds_value hf hn (x := v) hi hb
  cases op with
  | shr =>
    cases h
    have hsame : a >>> b.toNat = a >>> Constant.shiftCount b := by
      rcases hmoves with hle | ⟨rfl, hmin, hmax⟩
      · rw [Constant.shiftCount_of_le hle]
      · exact Constant.shiftRight_last hmin hmax
    rw [if_pos rfl, hsame]
    exact hvalue
  | shl =>
    cases h
    rw [if_neg (by decide)]
    rcases hmoves with hle | ⟨rfl, hmin, hmax⟩
    · rw [Constant.shiftCount_of_le hle] at hvalue ⊢
      rw [shiftFactor_of_lt (by omega), ← coe_pow2]
      split
      · rename_i hwide
        rwa [bmod_of_holds hwide] at hvalue ⊢
      · rw [hf]
        rfl
    · -- the one place by which folding falls short takes every number but zero out of its kind
      have hlast : Wide.shiftFactor (127 : Int).toNat = -2 ^ 127 := shiftFactor_last
      rw [hlast]
      split
      · rename_i hwide
        rw [Wide.holds_iff] at hwide
        obtain rfl | rfl : a = 0 ∨ a = 1 := by omega
        · exact hvalue
        · exact folds_far hf hn hi hb (by omega)
      · rw [hf]
        rfl
  | _ => cases hop

include hk

theorem folds_binary {op : BinaryOp} {cause : OperatorFault}
    (hmoves : op.isShift = true → Constant.MovesAll a b) (h : Constant.binary op a b = .ok v) :
    Folds (op.resultKind n.limits j k) v (n.binary op cause j (.int a) k (.int b)) := by
  cases hop : op.isComparison with
  | true =>
    simp only [binary, hop, if_true, BinaryOp.resultKind_comparison hop, Number.compare?,
      test_compare hop]
    rw [Constant.eq_exact_of_isComparison hop h]
    exact ⟨rfl, rfl⟩
  | false =>
    obtain ⟨hi, hb⟩ := BinaryOp.resultKind_spec hn hop hj hk
    cases hshift : op.isShift with
    | true =>
      have hkind := BinaryOp.resultKind_shift hshift n.limits j k
      simpa [binary, hop, hshift, hkind] using folds_shift hf hn hj hshift (hmoves hshift) h
    | false =>
      rw [BinaryOp.resultKind_arithmetic hop hshift] at hi hb ⊢
      simp only [binary, hop, hshift, Bool.false_eq_true, if_false, Bool.not_false, Bool.true_and]
      generalize n.limits.promote (n.limits.widened j) (n.limits.widened k) = kind at hi hb ⊢
      have hvalue := folds_value hf hn (x := v) hi hb
      have hfloat : kind.isFloat = false := by simpa [ArithKind.isIntegral] using hi
      simp only [hfloat, Bool.false_eq_true, if_false, integerResult?_of_binary hf hop hshift h]
      exact hvalue

end Numerics

theorem BinaryOp.isIntegral_resultKind {t : LimitsTable} (ht : t.Standard) {op : BinaryOp}
    {j k : ArithKind} (hj : j.isIntegral = true) (hk : k.isIntegral = true) :
    (op.resultKind t j k).isIntegral = true := by
  cases hop : op.isComparison with
  | true => rw [resultKind_comparison hop]; rfl
  | false => exact (resultKind_spec ht hop hj hk).1

namespace OperatorM

variable (ctx : OperatorContext) (h : Heap) {d : Value} {j k : ArithKind} {x : Int}

/-- Written out, a conversion keeps the number, unless it is one to `bool` of a number that is
no truth value. -/
theorem convert_same (hf : ctx.numerics.overflow = .fault) (hn : ctx.numerics.limits.Standard)
    (hd : d.IsInt j x) (hk : k.isIntegral = true) (hb : k = .bool → x = 0 ∨ x = 1) :
    ∃ answer, convert d (.arith k) true ctx h = Operator.outcome ctx h answer ∧
      Numerics.Folds k x answer := by
  obtain ⟨min, max, hr⟩ := LimitsTable.exists_range hn hk
  have hconvert := convert_int ctx h hd hr true
  cases hz : ctx.numerics.compared? j k x with
  | none =>
    rw [hz] at hconvert
    exact ⟨.error _, hconvert, rfl⟩
  | some z =>
    rw [hz] at hconvert
    obtain ⟨v, hv, hconvert⟩ := hconvert
    obtain rfl : z = x := by
      unfold Numerics.compared? at hz
      rw [hf] at hz
      grind
    exact ⟨.ok v, hconvert, hv⟩

/-- An integer holds as a condition if it is not zero. -/
theorem condition_int (hn : ctx.numerics.limits.Standard) (hd : d.IsInt j x) :
    condition d ctx h = .ok (x != 0) h := by
  obtain ⟨min, max, hr⟩ := LimitsTable.exists_range (k := .bool) hn rfl
  have hconvert := convert_int ctx h hd hr false
  obtain ⟨z, hz, hzx⟩ : ∃ z, ctx.numerics.compared? j .bool x = some z ∧ (z = 0 ↔ x = 0) := by
    by_cases hj : j = .bool
    · exact ⟨x, if_pos hj, .rfl⟩
    · refine ⟨if x = 0 then 0 else 1, by simp [Numerics.compared?, hj], ?_⟩
      split <;> simp_all
  rw [hz] at hconvert
  obtain ⟨v, hv, hconvert⟩ := hconvert
  have hconvert : convert d .bool false ctx h = .ok v h := hconvert
  have htruthy : v.truthy = (x != 0) := by
    rw [Value.truthy, hv.data, Data.truthy, Bool.eq_iff_iff, bne_iff_ne, bne_iff_ne, Ne, hzx]
  rw [← htruthy]
  simp only [condition, Bind.bind, ReaderT.bind, EStateM.bind, hconvert]
  rfl

/-- A unary operator computes on an integer what it is folded to. -/
theorem apply_unary (hf : ctx.numerics.overflow = .fault) (hn : ctx.numerics.limits.Standard)
    (hd : d.IsInt k x) (hk : k.isIntegral = true) {op : UnaryOp} {y : Int}
    (hsigned : op = .bitNot → ∀ max,
      (ctx.numerics.limits.get (Numerics.complementKind ctx.numerics.limits k)).range ≠
        .integral 0 max)
    (hy : Constant.unary op x = .ok y) :
    ∃ answer, (RunM.unaryOperator op).1.apply d (RunM.unaryOperator op).2 ctx h =
        Operator.outcome ctx h answer ∧
      Numerics.Folds (Numerics.unaryKind ctx.numerics.limits op k x) y answer ∧
      (Numerics.unaryKind ctx.numerics.limits op k x).isIntegral = true := by
  have hoperator (op : Operator) {f : Value → Option Value → OperatorM Value}
      (hop : op.ofNumber? = some f) : op.apply d none = f d none := by
    simp only [Operator.apply, Operator.ofType?, hd.ty, hop]
  have hexcept (answer : Except OperatorFault Value) :
      ofExcept answer ctx h = Operator.outcome ctx h answer := by
    cases answer <;> rfl
  cases op with
  | neg =>
    obtain ⟨-, rfl⟩ := Constant.of_checked hy
    refine ⟨ctx.numerics.negate k (.int x), ?_, Numerics.folds_negate hf hn hk,
      (Numerics.negatedKind_spec hn hk).1⟩
    have hnegate : Operator.neg.apply d none =
        (do ofExcept ((← read).numerics.negate k (.int x))) := by
      rw [hoperator .neg rfl]
      simp [negate, hd.ty, Ty.arith?, Value.number?, hd.data, Data.number?]
    rw [RunM.unaryOperator, hnegate]
    exact hexcept _
  | plus =>
    cases hy
    refine ⟨.ok d.rvalue, ?_, ⟨hd.ty, hd.data⟩, hk⟩
    rw [RunM.unaryOperator, hoperator .plus rfl]
    rfl
  | bitNot =>
    cases hy
    refine ⟨ctx.numerics.complement k x, ?_, Numerics.folds_complement hf hn hk (hsigned rfl),
      (Numerics.complementKind_spec hn hk).1⟩
    have hcomplement : Operator.bitNot.apply d none =
        (do ofExcept ((← read).numerics.complement k x)) := by
      rw [hoperator .bitNot rfl]
      simp [complement, hd.ty, Ty.arith?, Value.number?, hd.data, Data.number?]
    rw [RunM.unaryOperator, hcomplement]
    exact hexcept _
  | not =>
    cases hy
    refine ⟨.ok (.bool (x == 0)), ?_, ⟨rfl, rfl⟩, rfl⟩
    rw [RunM.unaryOperator, hoperator .not rfl]
    simp [OperatorM.not, Value.number?, hd.data, Data.number?, Number.isZero]
    rfl
  | _ => cases hy

end OperatorM

namespace Expr

/-- The kind that the number has to which a constant expression is evaluated. -/
def numberKind (q : Config × State) : Expr → ArithKind
  | .literal _ (.int value radix unsigned long) =>
    ((Literal.kinds radix unsigned long).find? fun k => q.1.limits.holds k value).getD .int
  | .literal _ (.char code width) => Literal.charKind q.1.limits code width
  | .literal _ (.bool _) => .bool
  | .identifier _ name => ((q.2.value? name).bind fun v => v.ty.arith?).getD .int
  | .unary _ op operand =>
    match ReadM.constant operand q with
    | .ok v => Numerics.unaryKind q.1.limits op (operand.numberKind q) v
    | .error _ => .int
  | .binary _ op left right => op.resultKind q.1.limits (left.numberKind q) (right.numberKind q)
  | .conditional _ condition thenExpr elseExpr =>
    match ReadM.constant condition q with
    | .ok v => if v != 0 then thenExpr.numberKind q else elseExpr.numberKind q
    | .error _ => .int
  | .cast _ spec target _ =>
    match ReadM.typeNamed spec target q with
    | .ok (.arith k) => k
    | _ => .int
  | _ => .int

/-- Nowhere in the expression does the type of a number matter to folding: names of integers have
integral types, complements are those of two's complement, shifts move by their count, and
conversions are to integral types, and to `bool` for truth values only. -/
def Foldable (q : Config × State) : Expr → Prop
  | .identifier _ name => ∀ v x, q.2.value? name = some v → v.int? = some x →
    ∃ k : ArithKind, k.isIntegral = true ∧ v.ty = .arith k
  | .unary _ op operand => operand.Foldable q ∧ (op = .bitNot → ∀ max,
    (q.1.limits.get (Numerics.complementKind q.1.limits (operand.numberKind q))).range ≠
      .integral 0 max)
  | .binary _ op left right => left.Foldable q ∧ right.Foldable q ∧ (op.isShift = true →
    ∀ a b, ReadM.constant left q = .ok a → ReadM.constant right q = .ok b →
      Constant.MovesAll a b)
  | .conditional _ condition thenExpr elseExpr => condition.Foldable q ∧
    ∀ v, ReadM.constant condition q = .ok v →
      if v != 0 then thenExpr.Foldable q else elseExpr.Foldable q
  | .cast _ spec target operand => operand.Foldable q ∧
    ∃ k : ArithKind, k.isIntegral = true ∧ ReadM.typeNamed spec target q = .ok (.arith k) ∧
      (k = .bool → ∀ v, ReadM.constant operand q = .ok v → v = 0 ∨ v = 1)
  | _ => True

end Expr

theorem Value.data_of_int? {v : Value} {x : Int} (h : v.int? = some x) : v.data = .int x := by
  unfold int? at h
  split at h
  · rw [‹v.data = _›, Option.some.inj h]
  · cases h

namespace ReadM

variable {q : Config × State}

theorem of_ofExcept {α : Type} {x : Except FaultCause α} {a : α} (h : ofExcept x q = .ok a) :
    x = .ok a := by
  cases x with
  | ok b => exact congrArg _ (Except.ok.inj h)
  | error cause => cases h

/-- The name of a constant is that of an integer. -/
theorem exists_of_identifier {span : Span} {name : String} {x : Int}
    (h : constant (.identifier span name) q = .ok x) :
    ∃ v, q.2.value? name = some v ∧ v.int? = some x := by
  have hread (f : Config × State → ReadM Int) : (read >>= f) q = f q q := rfl
  unfold constant at h
  cases hv : (q.2.value? name).bind Value.int? with
  | some y =>
    simp only [hread, hv] at h
    cases h
    exact Option.bind_eq_some_iff.mp hv
  | none =>
    simp only [hread, hv] at h
    cases h

/-- The constant of a size is the size of the type that is named. -/
theorem exists_of_sizeofType {span : Span} {spec : TypeSpec} {target : Declarator} {x : Int}
    (h : constant (.sizeofType span spec target) q = .ok x) :
    ∃ (ty : Ty) (n : Nat), typeNamed spec target q = .ok ty ∧ byteSize ty q = .ok n ∧ x = n := by
  obtain ⟨base, hbase, h⟩ := of_bind_eq_ok h
  obtain ⟨d, hd, h⟩ := of_bind_eq_ok h
  obtain ⟨n, hn, h⟩ := of_bind_eq_ok h
  cases h
  refine ⟨d.type, n, ?_, hn, rfl⟩
  simp only [typeNamed, declared, Bind.bind, ReaderT.bind, Except.bind, hbase, hd]
  rfl

end ReadM

namespace Literal

theorem isIntegral_of_mem_kinds {radix : Nat} {unsigned long : Bool} {k : ArithKind}
    (hk : k ∈ kinds radix unsigned long) : k.isIntegral = true := by
  unfold kinds at hk
  split at hk <;> simp only [List.mem_cons, List.not_mem_nil, or_false] at hk <;>
    grind [ArithKind.isIntegral, ArithKind.isFloat]

theorem isIntegral_charKind (limits : LimitsTable) (code : Nat) (width : CharWidth) :
    (charKind limits code width).isIntegral = true := by
  cases width with
  | narrow =>
    change (if limits.holds .char code then ArithKind.char else .wchar).isIntegral = true
    split <;> rfl
  | _ => rfl

end Literal

theorem State.Steady.value? (h : s.Steady t) (name : String) : t.value? name = s.value? name := by
  rw [h]
  rfl

/-- A question is answered the same wherever the cursor is. -/
theorem State.Steady.answer {α : Type} {x : ReadM α} (hx : ∀ U, ReadM.Closed U → U α x) {a : α}
    (h : s.Steady t) (ha : x (c, s) = .ok a) : x (c, t) = .ok a := by
  refine hx _ ReadM.closed_alike (c, s) (c, t) a ⟨rfl, rfl, ?_, ?_, h.value?⟩ ha
  · rw [h]
  · rw [h]

/-- The value is the number to which the expression is folded, and nothing else has changed. -/
structure FoldedTo (c : Config) (s : State) (e : Expr) (x : Int) (v : Value) (t : State) :
    Prop where
  value : v.IsInt (e.numberKind (c, s)) x
  integral : (e.numberKind (c, s)).isIntegral = true
  steady : s.Steady t

namespace RunM

/-- The evaluation gives the number to which the expression is folded, or a fault of another kind
than that an operator has no result. -/
abbrev Follows (c : Config) (s : State) (e : Expr) (x : Int) (y : RunM (Progress .value))
    (t : State) : Prop :=
  y.Guarantees c t (FoldedTo c s e x) fun cause => cause.isUndefined = false

variable {e : Expr} {x : Int} {hint : Option StructTy}

theorem Follows.visit (h : ∀ t, s.Steady t → (evaluate e hint).Follows c s e x t)
    (ht : s.Steady t) : (visit e hint .nil).Follows c s e x t :=
  Guarantees.visit (fun node g => h _ ((ht.trans (.setCursor t node)).trans (.onConsole _ g)))
    fun _ u node hw => ⟨hw.value, hw.integral, hw.steady.trans (.setCursor u node)⟩

theorem literal_int (value radix : Nat) (unsigned long : Bool) :
    literal (.int value radix unsigned long) c t = match
      (Literal.kinds radix unsigned long).find? fun k => c.limits.holds k value with
    | some k => .ok (.int k value) t
    | none => .error ⟨.declaration (.literalTooLarge (some value)), t.cursor⟩ t := by
  have hread : (read : RunM Config) c t = .ok c t := rfl
  rw [literal, bind_ok hread]
  cases hk : (Literal.kinds radix unsigned long).find? fun k => c.limits.holds k value <;>
    simp only [hk] <;> rfl

/-- A value that is computed at once. -/
theorem Guarantees.answer {y : RunM Value} {post : Value → State → Prop}
    {raises : FaultCause → Prop} (hv : ∀ v u, y c t = .ok v u → post v u)
    (hf : ∀ fault u, y c t = .error fault u → raises fault.cause) :
    (do return .done (← y) : RunM (Progress .value)).Guarantees c t post raises := by
  cases hy : y c t with
  | ok v u => exact congr (y := return .done v) (bind_ok hy) (done (hv v u hy))
  | error fault u => exact error (bind_error hy) (hf fault u hy)

/-- An operator that computes what is folded. -/
theorem Follows.operate {y : OperatorM Value} {answer : Except OperatorFault Value}
    (hy : y ⟨c.numerics, t.tables, t.cursor⟩ t.heap =
      Operator.outcome ⟨c.numerics, t.tables, t.cursor⟩ t.heap answer)
    (ha : Numerics.Folds (e.numberKind (c, s)) x answer)
    (hi : (e.numberKind (c, s)).isIntegral = true) (ht : s.Steady t) :
    (do return .done (← operate y) : RunM (Progress .value)).Follows c s e x t := by
  cases answer with
  | ok v =>
    refine Guarantees.congr (y := return .done v) (bind_ok (operate_ok hy)) (.done ?_)
    exact ⟨ha, hi, ht⟩
  | error cause => exact Guarantees.error (bind_error (operate_error hy)) ha

/-- An expression evaluates to the number to which it is folded, one case for each form that
folding has. Evaluation moves the cursor, while folding looks at one state all the time: what both
ask for does not depend on the cursor. -/
theorem follows_constant (hf : c.numerics.overflow = .fault) (hn : c.numerics.limits.Standard) :
    (e : Expr) → ∀ {x}, ReadM.constant e (c, s) = .ok x → e.Foldable (c, s) →
      ∀ {t} hint, s.Steady t → (visit e hint .nil).Follows c s e x t
  | .literal span (.int value radix unsigned long), x, hx, _, t, hint, ht => by
    have hx : (value : Int) = x := by
      unfold ReadM.constant at hx
      split at hx
      · exact Except.ok.inj hx
      · cases hx
    refine .visit (fun t ht => ?_) ht
    refine Guarantees.answer (fun v u hv => ?_) fun fault u hv => ?_
    all_goals
      rw [literal_int] at hv
      split at hv
    · rename_i k hk
      cases hv
      have hkind : Expr.numberKind (c, s) (.literal span (.int value radix unsigned long)) = k := by
        rw [Expr.numberKind, hk, Option.getD_some]
      exact ⟨hkind ▸ ⟨rfl, congrArg Data.int hx⟩,
        hkind ▸ Literal.isIntegral_of_mem_kinds (List.mem_of_find?_eq_some hk), ht⟩
    · cases hv
    · cases hv
    · cases hv
      rfl
  | .literal _ (.char code width), x, hx, _, t, hint, ht => by
    refine .visit (fun t ht => Guarantees.answer (fun v u hv => ?_) fun fault u hv => nomatch hv) ht
    cases hx
    cases hv
    exact ⟨⟨rfl, rfl⟩, Literal.isIntegral_charKind c.limits code width, ht⟩
  | .literal _ (.bool b), x, hx, _, t, hint, ht => by
    refine .visit (fun t ht => Guarantees.answer (fun v u hv => ?_) fun fault u hv => nomatch hv) ht
    cases hx
    cases hv
    exact ⟨⟨rfl, rfl⟩, rfl, ht⟩
  | .identifier span name, x, hx, he, t, hint, ht => by
    obtain ⟨v, hname, hv⟩ := ReadM.exists_of_identifier hx
    obtain ⟨k, hk, hty⟩ := he v x hname hv
    have hkind : Expr.numberKind (c, s) (.identifier span name) = k := by
      simp only [Expr.numberKind, hname, Option.bind_some, hty, Ty.arith?, Option.getD_some]
    refine .visit (fun t ht => ?_) ht
    refine Guarantees.congr (y := return .done v) (t := t) ?_ (.done ⟨?_, hkind ▸ hk, ht⟩)
    · change (named (t.value? name) name >>= fun v =>
        (return .done v : RunM (Progress .value))) c t = _
      rw [ht.value?, hname]
      rfl
    · exact ⟨hkind ▸ hty, Value.data_of_int? hv⟩
  | .unary span op operand, x, hx, he, t, hint, ht => by
    obtain ⟨a, ha, hx⟩ := ReadM.of_bind_eq_ok hx
    obtain ⟨hoperand, hsigned⟩ := he
    have hkind : Expr.numberKind (c, s) (.unary span op operand) =
        Numerics.unaryKind c.limits op (operand.numberKind (c, s)) a := by
      simp only [Expr.numberKind, ha]
    refine .visit (fun t ht => Guarantees.visit_one
      (follows_constant hf hn operand ha hoperand hint ht) fun v u hv => ?_) ht
    obtain ⟨answer, hanswer, hfolds, hi⟩ := OperatorM.apply_unary ⟨c.numerics, u.tables, u.cursor⟩
      u.heap hf hn hv.value hv.integral hsigned (ReadM.of_ofExcept hx)
    exact Follows.operate hanswer (hkind ▸ hfolds) (hkind ▸ hi) hv.steady
  | .binary span op left right, x, hx, he, t, hint, ht => by
    obtain ⟨a, ha, hx⟩ := ReadM.of_bind_eq_ok hx
    obtain ⟨b, hb, hx⟩ := ReadM.of_bind_eq_ok hx
    obtain ⟨hleft, hright, hmoves⟩ := he
    refine .visit (fun t ht => Guarantees.visit_one (follows_constant hf hn left ha hleft hint ht)
      fun l u hl => ?_) ht
    refine Guarantees.visit_one (follows_constant hf hn right hb hright hint hl.steady)
      fun r w hr => ?_
    refine Follows.operate (Operator.apply_ints _ hl.value hr.value op w.heap) ?_ ?_ hr.steady
    · exact Numerics.folds_binary hf hn hl.integral hr.integral
        (fun hop => hmoves hop a b ha hb) (ReadM.of_ofExcept hx)
    · exact BinaryOp.isIntegral_resultKind hn hl.integral hr.integral
  | .conditional span condition thenExpr elseExpr, x, hx, he, t, hint, ht => by
    obtain ⟨a, ha, hx⟩ := ReadM.of_bind_eq_ok hx
    obtain ⟨hcondition, hchosen⟩ := he
    have hchosen := hchosen a ha
    refine .visit (fun t ht => Guarantees.visit_one
      (follows_constant hf hn condition ha hcondition hint ht) fun v u hv => ?_) ht
    have hholds : holds v c u = .ok (a != 0) u :=
      operate_ok (OperatorM.condition_int _ u.heap hn hv.value)
    refine Guarantees.congr (y := visit (if a != 0 then thenExpr else elseExpr) hint .nil)
      (bind_ok hholds) ?_
    -- the branch that is not chosen is neither folded nor evaluated
    cases hzero : a != 0 with
    | true =>
      rw [hzero] at hx hchosen
      have hkind : Expr.numberKind (c, s) (.conditional span condition thenExpr elseExpr) =
          thenExpr.numberKind (c, s) := by
        simp only [Expr.numberKind, ha, hzero, if_true]
      exact (follows_constant hf hn thenExpr hx hchosen hint hv.steady).mono fun w u hw =>
        ⟨hkind ▸ hw.value, hkind ▸ hw.integral, hw.steady⟩
    | false =>
      rw [hzero] at hx hchosen
      have hkind : Expr.numberKind (c, s) (.conditional span condition thenExpr elseExpr) =
          elseExpr.numberKind (c, s) := by
        simp only [Expr.numberKind, ha, hzero, Bool.false_eq_true, if_false]
      exact (follows_constant hf hn elseExpr hx hchosen hint hv.steady).mono fun w u hw =>
        ⟨hkind ▸ hw.value, hkind ▸ hw.integral, hw.steady⟩
  | .cast span spec target operand, x, hx, he, t, hint, ht => by
    obtain ⟨hoperand, k, hk, htype, hbool⟩ := he
    have hkind : Expr.numberKind (c, s) (.cast span spec target operand) = k := by
      simp only [Expr.numberKind, htype]
    have hx : ReadM.constant operand (c, s) = .ok x := by
      unfold ReadM.constant at hx
      exact hx
    refine .visit (fun t ht => ?_) ht
    refine Guarantees.congr (y := visit operand hint (.one (.cast (.arith k)))) (t := t) ?_ ?_
    · exact bind_ok (ask_ok (ht.answer (fun _ hU => hU.typeNamed spec target) htype))
    · refine Guarantees.visit_one (follows_constant hf hn operand hx hoperand hint ht)
        fun v u hv => ?_
      obtain ⟨answer, hanswer, hfolds⟩ := OperatorM.convert_same
        ⟨c.numerics, u.tables, u.cursor⟩ u.heap hf hn hv.value hk fun hb => hbool hb x hx
      exact Follows.operate hanswer (hkind ▸ hfolds) (hkind ▸ hk) hv.steady
  | .sizeofType span spec target, x, hx, he, t, hint, ht => by
    obtain ⟨ty, n, htype, hsize, rfl⟩ := ReadM.exists_of_sizeofType hx
    refine .visit (fun t ht => ?_) ht
    have htype := ht.answer (fun _ hU => hU.typeNamed spec target) htype
    have hsize := ht.answer (fun _ hU => hU.byteSize ty) hsize
    refine Guarantees.congr (y := return .done (.int .int n)) (t := t) ?_
      (.done ⟨⟨rfl, rfl⟩, rfl, ht⟩)
    exact (bind_ok (ask_ok htype)).trans (bind_ok (ask_ok hsize))
  | .literal _ (.float ..), _, hx, _, _, _, _ | .literal _ (.string ..), _, hx, _, _, _, _
  | .literal _ .null, _, hx, _, _, _, _ | .qualified .., _, hx, _, _, _, _
  | .logical .., _, hx, _, _, _, _ | .assign .., _, hx, _, _, _, _ | .comma .., _, hx, _, _, _, _
  | .call .., _, hx, _, _, _, _ | .index .., _, hx, _, _, _, _ | .member .., _, hx, _, _, _, _
  | .sizeofExpr .., _, hx, _, _, _, _ | .list .., _, hx, _, _, _, _ => nomatch hx

/-- Where the types of numbers do not matter to folding, an expression that is folded to a number
evaluates to this number, or fails, but for no division by zero and no invalid shift count. -/
theorem folding_agrees (hf : c.numerics.overflow = .fault) (hn : c.numerics.limits.Standard)
    (hx : ReadM.constant e (c, s) = .ok x) (he : e.Foldable (c, s)) :
    (visit e hint .nil).Guarantees c s (fun v _ => v.int? = some x)
      fun cause => cause.isUndefined = false :=
  (follows_constant hf hn e hx he hint (.refl s)).mono fun v _ hv => by
    rw [Value.int?, hv.value.data]

/-- The expression `(bool)(3 < 5) << ~-4`. -/
theorem folding_agrees_truth :
    let number (n : Nat) : Expr := .literal default (.int n 10 false false)
    let truth : Expr := .cast default ⟨[], ["bool"], default⟩
      (.mk default [] false .anonymous []) (.binary default .lt (number 3) (number 5))
    let places : Expr := .unary default .bitNot (.unary default .neg (number 4))
    let e : Expr := .binary default .shl truth places
    (ReadM.constant e ({}, {}) = .ok 8 ∧ e.Foldable ({}, {})) ∧
      (visit e none .nil).Guarantees {} {} (fun v _ => v.int? = some 8)
        fun cause => cause.isUndefined = false := by
  intro number truth places e
  have htruth : truth.Foldable ({}, {}) := by
    refine ⟨⟨trivial, trivial, nofun⟩, .bool, rfl, rfl, fun _ v hv => ?_⟩
    cases hv
    exact .inr rfl
  have hkind : Numerics.complementKind ({} : Config).limits
      ((Expr.unary default .neg (number 4)).numberKind ({}, {})) = .int := by decide +kernel
  have hplaces : places.Foldable ({}, {}) := by
    refine ⟨⟨trivial, nofun⟩, fun _ max => ?_⟩
    rw [hkind]
    exact nofun
  have he : e.Foldable ({}, {}) := by
    refine ⟨htruth, hplaces, fun _ a b ha hb => ?_⟩
    cases ha
    cases hb
    exact ⟨by decide, .inl (by decide)⟩
  exact ⟨⟨rfl, he⟩, folding_agrees rfl LimitsTable.standard_empty rfl he⟩

/-- Folding makes 5, -1 and 8 of `(bool)5`, `~0u` and `8 >> -1`, but evaluation 1, the greatest
`unsigned int`, and an invalid shift count. -/
theorem folding_disagrees :
    let number (n : Nat) (unsigned : Bool) : Expr := .literal default (.int n 10 unsigned false)
    let truth : Expr := .cast default ⟨[], ["bool"], default⟩
      (.mk default [] false .anonymous []) (number 5 false)
    let complement : Expr := .unary default .bitNot (number 0 true)
    let shift : Expr := .binary default .shr (number 8 false)
      (.unary default .neg (number 1 false))
    let run (e : Expr) := (visit e none .nil >>= drive (.replicate 4 id)) {} {}
    let evaluation (e : Expr) : Option Int :=
      match run e with
      | .ok (.done v) _ => v.int?
      | _ => none
    let refusal (e : Expr) : Option Int :=
      match run e with
      | .error ⟨.operator (.shiftCount count), _⟩ _ => some count
      | _ => none
    (ReadM.constant truth ({}, {}) = .ok 5 ∧ evaluation truth = some 1) ∧
    (ReadM.constant complement ({}, {}) = .ok (-1) ∧ evaluation complement = some 0xffffffff) ∧
    (ReadM.constant shift ({}, {}) = .ok 8 ∧ refusal shift = some (-1)) := by
  refine ⟨⟨rfl, ?_⟩, ⟨rfl, ?_⟩, rfl, ?_⟩
  · decide +kernel
  · decide +kernel
  · decide +kernel

end RunM

end Stepwise
