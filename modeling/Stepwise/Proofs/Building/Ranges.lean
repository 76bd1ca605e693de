import Mathlib
import Stepwise.Proofs.Binding.Initializing
import Stepwise.Proofs.Operator.Conversions
import Stepwise.Proofs.Operator.Operands
import Stepwise.Proofs.Operator.Sizes

/-! # Numbers that nothing was converted to

Literals and sizes are numbers that no operator has fitted to their kind. Integers and strings are
checked when they are evaluated, and the size of an object that may be created is small, but a
character may have a code that its kind does not hold, and the size of a type that has no objects
may be too large for `int`. A variable is initialized with what its initializer has if that has the
type of the variable; a number of any other type is fitted.
-/

namespace Stepwise

/-- The value is no integer outside the default limits of its kind. -/
def Value.InLimits (v : Value) : Prop :=
  ∀ k x, v.IsInt k x → ({} : LimitsTable).holds k x = true

namespace Value

variable {v w : Value} {k : ArithKind} {x : Int}

theorem inLimits_int : (Value.int k x).InLimits ↔ ({} : LimitsTable).holds k x = true := by
  constructor
  · intro hv
    exact hv k x (isInt_int k x)
  · rintro hx _ _ ⟨⟨⟩, ⟨⟩⟩
    exact hx

theorem inLimits_of_data (hd : ∀ x, v.data ≠ .int x) : v.InLimits :=
  fun _ x hv => absurd hv.data (hd x)

theorem inLimits_congr (hty : v.ty = w.ty) (hd : v.data = w.data) : v.InLimits ↔ w.InLimits := by
  have hint (k : ArithKind) (x : Int) : v.IsInt k x ↔ w.IsInt k x :=
    ⟨fun h => ⟨hty ▸ h.ty, hd ▸ h.data⟩, fun h => ⟨hty ▸ h.ty, hd ▸ h.data⟩⟩
  simp only [InLimits, hint]

theorem inLimits_withReadonly (r : Bool) : (v.withReadonly r).InLimits ↔ v.InLimits :=
  inLimits_congr rfl rfl

/-- An operand is in the limits. -/
theorem inLimits_of_holds {members : String → List Ty} {h : Heap} (hv : h.Holds members v) :
    v.InLimits := by
  rintro k x ⟨hty, hd⟩
  have hfits := hv.fits
  rw [hty, hd] at hfits
  cases hfits with
  | int _ hx => exact hx
  | pointer hp => cases hp

end Value

namespace Ty

theorem eq_arith_of_named {t : Ty} {k : ArithKind} (h : t.named = (arith k).named) : t = arith k := by
  cases t <;> simp [named] at h
  rw [h]

theorem eq_of_word? {n m : Nat} (h : word? n = some m) : n = m :=
  Option.some.inj (Option.ite_none_right_eq_some.mp h).2

mutual

/-- No scalar takes more than eight bytes. -/
theorem size?_le : ∀ (t : Ty) {n m : Nat}, size? {} t = some n → cells? t = some m → n ≤ 8 * m
  | .array element count, _, _, hn, hm => by
    obtain ⟨bytes, hbytes, hn⟩ := Option.bind_eq_some_iff.mp hn
    obtain ⟨cells, hcells, hm⟩ := Option.bind_eq_some_iff.mp hm
    have hle := Nat.mul_le_mul_left count (size?_le element hbytes hcells)
    rw [← eq_of_word? hn, ← eq_of_word? hm]
    linarith
  | .struct _ members, _, _, hn, hm => sizes?_le members (Nat.le_refl 0) hn hm
  | .arith k, _, _, hn, hm => by
    cases hn
    cases hm
    cases k <;> decide
  | .void, _, _, hn, hm | .marker, _, _, hn, hm | .pointer .., _, _, hn, hm
  | .functionPointer _, _, _, hn, hm | .function _, _, _, hn, hm => by
    cases hn
    cases hm
    decide

theorem sizes?_le : ∀ (ms : List (MemberOf Ty)) {total total' n m : Nat}, total ≤ 8 * total' →
    sizes? {} ms total = some n → memberCells? ms total' = some m → n ≤ 8 * m
  | [], _, _, _, _, hle, hn, hm => by
    cases hn
    cases hm
    exact hle
  | ⟨_, ty, _, _⟩ :: ms, total, total', n, m, hle, hn, hm => by
    unfold sizes? at hn
    unfold memberCells? at hm
    cases hbytes : size? {} ty with
    | none =>
      rw [hbytes] at hn
      cases hn
    | some bytes =>
      cases hcells : cells? ty with
      | none =>
        rw [hcells] at hm
        cases hm
      | some cells =>
        rw [hbytes] at hn
        rw [hcells] at hm
        obtain ⟨sum, hsum, hn⟩ := Option.bind_eq_some_iff.mp hn
        obtain ⟨sum', hsum', hm⟩ := Option.bind_eq_some_iff.mp hm
        have hone := size?_le ty hbytes hcells
        refine sizes?_le ms ?_ hn hm
        rw [← eq_of_word? hsum, ← eq_of_word? hsum']
        omega

end

end Ty

namespace Literal

/-- Integers and strings have ranges that are checked. Characters fit if their codes are no larger
than the numbers of their kinds. -/
def Fits : Literal → Prop
  | .char code .utf16 => code ≤ 0x7fff
  | .char code _ => code ≤ 0x7fffffff
  | _ => True

theorem holds_charKind (code : Nat) (width : CharWidth) :
    ({} : LimitsTable).holds (charKind {} code width) code = true ↔ (Literal.char code width).Fits := by
  cases width with
  | narrow =>
    simp only [charKind, Fits]
    split
    · rename_i hchar
      rw [LimitsTable.holds_iff rfl] at hchar ⊢
      omega
    · rw [LimitsTable.holds_iff rfl]
      omega
  | _ =>
    simp only [charKind, Fits]
    rw [LimitsTable.holds_iff rfl]
    omega

end Literal

namespace RunM

variable {c : Config} {s t : State}

theorem inLimits_element {k : ArithKind} {x : Int} (hx : ({} : LimitsTable).holds k x = true) :
    ((Value.int k x).withReadonly true).InLimits :=
  (Value.inLimits_withReadonly true).mpr (Value.inLimits_int.mpr hx)

/-- The characters of a string are checked one by one. -/
theorem stringCells_limits {k : ArithKind} (hk : ({} : LimitsTable).holds k 0 = true)
    (chars : List Char) : (∃ fault, stringCells {} k chars c s = .error fault s) ∨
      ∃ cells, stringCells {} k chars c s = .ok cells s ∧ ∀ cell ∈ cells, cell.InLimits := by
  induction chars with
  | nil =>
    refine .inr ⟨_, rfl, fun cell hc => ?_⟩
    rw [List.mem_singleton.mp hc]
    exact inLimits_element hk
  | cons x chars ih =>
    by_cases hx : ({} : LimitsTable).holds k x.toNat = true
    · have hcons : stringCells {} k (x :: chars) c s = (do
          return (Value.int k x.toNat).withReadonly true :: (← stringCells {} k chars)) c s := by
        simp only [stringCells, hx]
        rfl
      rw [hcons]
      rcases ih with ⟨fault, hfault⟩ | ⟨cells, hcells, hin⟩
      · exact .inl ⟨fault, bind_error hfault⟩
      · refine .inr ⟨_, bind_ok hcells, ?_⟩
        rw [List.forall_mem_cons]
        exact ⟨inLimits_element hx, hin⟩
    · refine .inl ⟨⟨.declaration (.characterRange x k), s.cursor⟩, ?_⟩
      simp only [stringCells, hx]
      rfl

/-- A value and, if it is an array, its elements are in the limits. -/
def Bounded (v : Value) (t : State) : Prop :=
  v.InLimits ∧ ∀ b i, v.data = .array (some b) i → ∀ cell ∈ t.heap.cells b, cell.InLimits

theorem bounded_int {k : ArithKind} {x : Int} :
    Bounded (.int k x) t ↔ ({} : LimitsTable).holds k x = true := by
  rw [Bounded, Value.inLimits_int, and_iff_left_iff_imp]
  intro _ b i hb
  cases hb

theorem bounded_of_data {v : Value} (hd : v.data.number? = none)
    (ha : ∀ b i, v.data = .array (some b) i → ∀ cell ∈ t.heap.cells b, cell.InLimits) :
    Bounded v t := by
  refine ⟨Value.inLimits_of_data fun x hx => ?_, ha⟩
  rw [hx] at hd
  cases hd

/-- A literal that is evaluated is in the limits, unless it is a character that does not fit. -/
theorem literal_bounded (hlimits : c.limits = {}) (l : Literal) :
    (∃ fault, literal l c s = .error fault s) ∨
      ∃ v t, literal l c s = .ok v t ∧ (Bounded v t ↔ l.Fits) := by
  have hread : (read : RunM Config) c s = .ok c s := rfl
  cases l with
  | int value radix unsigned long =>
    rw [literal, bind_ok hread, hlimits]
    cases hkind : (Literal.kinds radix unsigned long).find? fun k =>
        ({} : LimitsTable).holds k value with
    | none =>
      simp only [hkind]
      exact .inl ⟨_, rfl⟩
    | some k =>
      have hk := List.find?_some hkind
      simp only [hkind]
      exact .inr ⟨_, _, rfl, iff_of_true (bounded_int.mpr hk) trivial⟩
  | char code width =>
    rw [literal, bind_ok hread, hlimits]
    exact .inr ⟨_, _, rfl, bounded_int.trans (Literal.holds_charKind code width)⟩
  | string text width =>
    have hzero : ({} : LimitsTable).holds (Literal.stringKind width) 0 = true := by
      cases width <;> decide
    rw [literal, bind_ok hread, hlimits]
    rcases stringCells_limits (c := c) (s := s) hzero text.toList with
      ⟨fault, hfault⟩ | ⟨cells, hcells, hin⟩
    · exact .inl ⟨fault, bind_error hfault⟩
    · refine .inr ⟨_, _, bind_ok hcells, iff_of_true (bounded_of_data rfl ?_) trivial⟩
      rintro b i ⟨⟩ cell hcell
      have hblock : (s.heap.alloc cells.toArray).2.cells s.heap.blocks.size = cells.toArray :=
        (Heap.cells_alloc s.heap cells.toArray s.heap.blocks.size).trans (if_pos rfl)
      have hmem : cell ∈ cells.toArray := hblock ▸ hcell
      exact hin cell (List.mem_toArray.mp hmem)
  | bool b =>
    have hb : ({} : LimitsTable).holds .bool (if b then 1 else 0) = true := by
      cases b <;> decide
    exact .inr ⟨_, _, rfl, iff_of_true (bounded_int.mpr hb) trivial⟩
  | float value single =>
    refine .inr ⟨_, _, rfl, iff_of_true ⟨Value.inLimits_of_data nofun, nofun⟩ trivial⟩
  | null => exact .inr ⟨_, _, rfl, iff_of_true (bounded_of_data rfl nofun) trivial⟩

/-- The size of a type is in the limits below two gigabytes, and always if objects of the type may be
created. -/
theorem sizeValue_bounded (hlimits : c.limits = {}) (ty : Ty) :
    (∃ fault, ty.size? {} = none ∧ sizeValue ty c s = .error fault s) ∨
      ∃ n, ty.size? {} = some n ∧ sizeValue ty c s = .ok (.done (.int .int n)) s ∧
        (Bounded (.int .int n) s ↔ n ≤ 0x7fffffff) ∧
        ∀ m, ty.cells? = some m → m ≤ c.limits.maxCells → n ≤ 0x7fffffff := by
  have hsize := sizeValue_eq (c := c) (s := s) ty
  rw [hlimits] at hsize
  cases hn : ty.size? {} with
  | none =>
    rw [hn] at hsize
    exact .inl ⟨_, rfl, hsize⟩
  | some n =>
    rw [hn] at hsize
    refine .inr ⟨n, rfl, hsize, ?_, fun m hm hle => ?_⟩
    · rw [bounded_int, LimitsTable.holds_iff rfl]
      omega
    · have hbytes := Ty.size?_le ty hn hm
      have hcells : c.limits.maxCells = 2 ^ 24 := by rw [hlimits]; rfl
      omega

/-- A copy of a number of another kind is in the limits, and one of its own kind is what it was. -/
theorem inLimits_of_copy {ctx : OperatorContext} (hn : ctx.numerics.limits.Standard) {k : ArithKind}
    {v w : Value} {h h' : Heap} (hw : OperatorM.copy v (.arith k) ctx h = .ok w h') :
    w.ty = .arith k ∧ (w.InLimits ↔ (v.ty = .arith k → v.InLimits)) := by
  have hno (name : String) (ms : List MemberTy) : Ty.arith k ≠ .struct name ms := by
    rintro ⟨⟩
  have hconvert := OperatorM.convert_of_copy hno hw
  by_cases hty : v.ty = .arith k
  · have hsame : (v.ty == .arith k) = true := Ty.beq_iff_named.mpr (by rw [hty])
    simp only [OperatorM.convert, hsame, if_true] at hconvert
    cases hconvert
    refine ⟨hty, ?_⟩
    rw [imp_iff_right hty]
    exact Value.inLimits_congr rfl rfl
  · have hother : (v.ty == .arith k) = false := by
      rw [Bool.eq_false_iff, Ne, Ty.beq_iff_named]
      exact fun hnamed => hty (Ty.eq_arith_of_named hnamed)
    simp only [OperatorM.convert, hother, Bool.false_eq_true, if_false] at hconvert
    have hreads : OperatorM.Reads h (OperatorM.convertArith v k false)
        (OperatorM.Converted (fun _ => []) h (.arith k)) := OperatorM.reads_convertArith
    have hrun := hreads.run ctx hn
    rw [hconvert] at hrun
    obtain ⟨-, hholds, hnamed⟩ := hrun
    refine ⟨?_, iff_of_true (Value.inLimits_of_holds hholds) fun h => absurd h hty⟩
    exact Ty.eq_arith_of_named hnamed

/-- What a variable of an arithmetic kind is initialized with. -/
theorem inLimits_of_initialValue (hlimits : c.limits = {}) {name : String} {d : Declared} {e : Expr}
    {k : ArithKind} {w : Value} (htype : d.type = .arith k) (hbound : d.openBound = false)
    (h : (initialValue name d (some (.expr e))).Completes c s w t) :
    ∃ v u, (visit e (s.structOf? d.type) .nil).Completes c s v u ∧
      (w.InLimits ↔ (v.ty = d.type → v.InLimits)) := by
  have harray : d.type.isArray = false := by rw [htype]; rfl
  have hstandard : c.numerics.limits.Standard := by
    have hdefault : c.numerics.limits = {} := hlimits
    rw [hdefault]
    exact LimitsTable.standard_empty
  rw [completes_congr (initialValue_expr harray hbound name e c s), completes_visit_iff] at h
  obtain ⟨v, u, hv, hw⟩ := h
  rw [completes_congr (resumeFrame_convert d.type d.readonly v c u)] at hw
  obtain ⟨w', u', hinit, hdone⟩ := completes_bind hw
  obtain ⟨rfl, rfl⟩ := completes_done hdone
  obtain ⟨w₀, u'', hcopy, hpure⟩ := bind_eq_ok hinit
  cases hpure
  obtain ⟨heap, hcopy, -⟩ := operate_eq_ok hcopy
  rw [htype] at hcopy ⊢
  exact ⟨v, u, htype ▸ hv, (Value.inLimits_withReadonly _).trans (inLimits_of_copy hstandard hcopy).2⟩

/-- With the default limits, a literal faults or has a value in the limits, unless it is a character
with a code that its kind does not hold, and so does the size of a type, unless it is one of two
gigabytes or more, of which no object may be created. A variable of an arithmetic kind is then in
the limits if its initializer is or has another type. -/
theorem numbers_bounded (hlimits : c.limits = {}) :
    (∀ (l : Literal) (s : State), (∃ fault, literal l c s = .error fault s) ∨
      ∃ v t, literal l c s = .ok v t ∧ (Bounded v t ↔ l.Fits)) ∧
    (∀ (ty : Ty) (s : State),
      (∃ fault, ty.size? {} = none ∧ sizeValue ty c s = .error fault s) ∨
      ∃ n, ty.size? {} = some n ∧ sizeValue ty c s = .ok (.done (.int .int n)) s ∧
        (Bounded (.int .int n) s ↔ n ≤ 0x7fffffff) ∧
        ∀ m, ty.cells? = some m → m ≤ c.limits.maxCells → n ≤ 0x7fffffff) ∧
    ∀ {name : String} {d : Declared} {e : Expr} {k : ArithKind} {w : Value} {s t : State},
      d.type = .arith k → d.openBound = false →
      (initialValue name d (some (.expr e))).Completes c s w t →
      ∃ v u, (visit e (s.structOf? d.type) .nil).Completes c s v u ∧
        (w.InLimits ↔ (v.ty = d.type → v.InLimits)) :=
  ⟨fun l _ => literal_bounded hlimits l, fun ty _ => sizeValue_bounded hlimits ty,
    inLimits_of_initialValue hlimits⟩

/-- The declaration `char x = 'a'`. -/
theorem numbers_bounded_char :
    let a : Literal := .char 0x61 .narrow
    let x : Declared := ⟨some "x", .char, false, false, false, []⟩
    (∃ v t, literal a {} {} = .ok v t ∧ Bounded v t) ∧
      (∃ n : Nat, sizeValue .char {} {} = .ok (.done (.int .int n)) {} ∧ n ≤ 0x7fffffff) ∧
      ∃ w t v u, (initialValue "x" x (some (.expr (.literal default a)))).Completes {} {} w t ∧
        (visit (.literal default a) none .nil).Completes {} {} v u ∧
        (w.InLimits ↔ (v.ty = .char → v.InLimits)) := by
  intro a x
  obtain ⟨hliteral, hsize, hinitial⟩ := numbers_bounded (c := {}) rfl
  refine ⟨?_, ?_, ?_⟩
  · rcases hliteral a {} with ⟨fault, hfault⟩ | ⟨v, t, hv, hbounded⟩
    · cases hfault
    · exact ⟨v, t, hv, hbounded.mpr (show 0x61 ≤ 0x7fffffff by decide)⟩
  · rcases hsize .char {} with ⟨fault, hnone, -⟩ | ⟨n, -, hn, -, hle⟩
    · exact absurd hnone (by decide +kernel)
    · exact ⟨n, hn, hle 1 rfl (by decide)⟩
  · obtain ⟨w, t, hw⟩ := completes_of_ends
      (initialValue "x" x (some (.expr (.literal default a)))) [id, id] {} {} (by decide +kernel)
    obtain ⟨v, u, hv, hlimits⟩ := hinitial (d := x) rfl rfl hw
    exact ⟨w, t, v, u, hw, hv, hlimits⟩

/-- A source character that `char16_t` does not hold, and the size of a struct of two gigabytes. -/
theorem numbers_out_of_limits :
    let pair (ty : Ty) : Ty := .struct "" [⟨"", ty, false, none⟩, ⟨"", ty, false, none⟩]
    let halves : Ty := pair (.array (.arith .double) (2 ^ 24))
    let whole : Ty := pair (pair (pair halves))
    (scan "u'耀'").tokens =
        .ok [⟨.char 0x8000 .utf16, ⟨0, 4, 1, 1⟩⟩, ⟨.endOfFile, ⟨4, 4, 1, 5⟩⟩] ∧
      literal (.char 0x8000 .utf16) {} {} = .ok (.int .char16 0x8000) {} ∧
      ¬(Value.int .char16 0x8000).InLimits ∧
      sizeValue whole {} {} = .ok (.done (.int .int 0x80000000)) {} ∧
      ¬(Value.int .int 0x80000000).InLimits := by
  intro pair halves whole
  have hsize : whole.size? {} = some 0x80000000 := by decide +kernel
  refine ⟨by cbv, rfl, ?_, ?_, ?_⟩
  · rw [Value.inLimits_int]
    decide
  · have heq := sizeValue_eq (c := {}) (s := {}) whole
    rw [show Config.limits {} = {} from rfl, hsize] at heq
    exact heq
  · rw [Value.inLimits_int]
    decide

end RunM

end Stepwise
