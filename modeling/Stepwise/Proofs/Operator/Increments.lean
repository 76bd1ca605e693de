import Stepwise.Proofs.Operator.Atomicity
import Stepwise.Proofs.Operator.Offsets

/-! # Increments and compound assignments

An increment checks the next number against the range of its kind. The assignment `x += 1` computes
a sum of the kind in which `x` takes part and converts it back, which comes to the same: what leaves
the range of the one leaves that of the other, or has the same residue. Only truth values behave
differently, since every number but zero is converted to true.
-/

namespace Stepwise

open OperatorM

variable {n : Numerics} {ctx : OperatorContext} {h : Heap} {k : ArithKind} {l v w : Value}
  {x y : Int} {p : Place} {increment : Bool}

namespace Limits

/-- The range of a kind narrower than `int` is part of that of `int`, and its width divides it. -/
theorem exists_narrow (hrank : ({} : LimitsTable).rank k < ({} : LimitsTable).rank .int) :
    ∃ min max, (standard k).range = .integral min max ∧ min ≤ max ∧ -0x80000000 ≤ min ∧
      max ≤ 0x7fffffff ∧ max - min + 1 ∣ 2 ^ 32 := by
  cases k <;> first
    | exact ⟨_, _, rfl, by decide, by decide, by decide, Int.dvd_of_emod_eq_zero rfl⟩
    | exact absurd hrank (by decide)

end Limits

namespace Numerics

/-- A number that passes through a range becomes the same number of a part of it. -/
theorem wrapInto_wrapInto {min max min' max' : Int} (hle : min ≤ max)
    (hdvd : max - min + 1 ∣ max' - min' + 1) :
    wrapInto (wrapInto x min' max') min max = wrapInto x min max := by
  obtain ⟨hmin, hmax⟩ := wrapInto_mem (wrapInto x min' max') hle
  obtain ⟨hmin', hmax'⟩ := wrapInto_mem x hle
  refine eq_of_modEq hmin hmax hmin' hmax' ?_
  calc
    wrapInto (wrapInto x min' max') min max ≡ wrapInto x min' max' [ZMOD max - min + 1] :=
      wrapInto_modEq _ min max
    _ ≡ x [ZMOD max - min + 1] := (wrapInto_modEq x min' max').of_dvd hdvd
    _ ≡ wrapInto x min max [ZMOD max - min + 1] := (wrapInto_modEq x min max).symm

/-- A sum that is fitted to `int` on the way is fitted to a narrower kind all the same. -/
theorem fitted?_int_bind (hn : n.limits.Standard)
    (hrank : ({} : LimitsTable).rank k < ({} : LimitsTable).rank .int) :
    (n.fitted? .int x).bind (n.fitted? k) = n.fitted? k x := by
  obtain ⟨min, max, hr, hle, hmin, hmax, hdvd⟩ := Limits.exists_narrow hrank
  have hint : (n.limits.get .int).range = .integral (-0x80000000) 0x7fffffff :=
    LimitsTable.range_of_standard hn
  have hget := (LimitsTable.range_of_standard hn).trans hr
  rw [fitted?_eq hint]
  cases hp : n.overflow with
  | fault =>
    dsimp only
    by_cases hx : -0x80000000 ≤ x ∧ x ≤ 0x7fffffff
    · rw [if_pos hx]
      rfl
    · have hout : ¬(min ≤ x ∧ x ≤ max) := by omega
      rw [if_neg hx, fitted?_eq hget, hp]
      exact (if_neg hout).symm
  | wrap =>
    have hwidth : (0x7fffffff - -0x80000000 + 1 : Int) = 2 ^ 32 := by omega
    simp only [Option.bind_some, fitted?_eq hget, hp]
    rw [wrapInto_wrapInto hle (hwidth ▸ hdvd)]

/-- The next number of a truth value as a number of `int`, where it is converted as it wraps. -/
theorem fitted?_bool (hn : n.limits.Standard)
    (hx : n.limits.holds .bool x = true ∨ n.overflow = .wrap ∧ x = -1) :
    (n.fitted? .int x).bind (n.compared? .int .bool) = n.fitted? .bool x := by
  have hint : (n.limits.get .int).range = .integral (-0x80000000) 0x7fffffff :=
    LimitsTable.range_of_standard hn
  have hbool : (n.limits.get .bool).range = .integral 0 1 := LimitsTable.range_of_standard hn
  rw [fitted?_eq hint, fitted?_eq hbool]
  simp only [LimitsTable.holds, hbool, Bool.and_eq_true, decide_eq_true_eq] at hx
  rcases hx with ⟨hmin, hmax⟩ | ⟨hp, rfl⟩
  · obtain rfl | rfl : x = 0 ∨ x = 1 := by omega
    all_goals cases n.overflow <;> rfl
  · rw [hp]
    rfl

/-- The kind in which a variable takes part makes of an integer nothing else than the kind of the
variable would, apart from truth values. -/
theorem converted_widened (hn : n.limits.Standard) (hk : k.isIntegral = true)
    (hbool : k = .bool → n.limits.holds .bool x = true ∨ n.overflow = .wrap ∧ x = -1) :
    (n.fitted? (n.limits.widened k) x).bind (n.compared? (n.limits.widened k) k) =
      n.fitted? k x := by
  by_cases hrank : ({} : LimitsTable).rank k < ({} : LimitsTable).rank .int
  · have hwidened : n.limits.widened k = .int := by
      rw [LimitsTable.widened_of_standard hn, LimitsTable.widened, hk, Bool.true_and]
      exact if_pos (decide_eq_true hrank)
    rw [hwidened]
    by_cases hb : k = .bool
    · subst hb
      exact fitted?_bool hn (hbool rfl)
    · have hne : ArithKind.int ≠ k := by
        rintro rfl
        exact absurd hrank (Nat.lt_irrefl _)
      obtain ⟨min, max, hget⟩ := LimitsTable.exists_range hn hk
      have hcompared : n.compared? .int k = n.fitted? k :=
        funext fun z => compared?_eq_fitted? hne hb hget
      rw [hcompared, fitted?_int_bind hn hrank]
  · have hwidened : n.limits.widened k = k := by
      rw [LimitsTable.widened_of_standard hn, LimitsTable.widened, hk, Bool.true_and]
      exact if_neg fun hlt => hrank (of_decide_eq_true hlt)
    have hsame : n.compared? k k = some := funext fun z => if_pos rfl
    rw [hwidened, hsame, Option.bind_fun_some]

end Numerics

namespace LimitsTable

/-- A number that one is added to has the kind of the sum. -/
theorem promote_widened_int {t : LimitsTable} (ht : t.Standard) :
    t.promote (t.widened k) (t.widened .int) = t.widened k := by
  rw [widened_of_standard ht, widened_of_standard ht, promote_of_standard ht]
  cases k <;> rfl

end LimitsTable

/-- The number before or after another one. -/
def stepped (x : Int) (increment : Bool) : Int := if increment then x + 1 else x - 1

namespace Operator

/-- `++` or `--` -/
def step (increment : Bool) : Operator := if increment then .inc else .dec

/-- The operator of the sum or the difference. -/
def stepSum (increment : Bool) : BinaryOp := if increment then .add else .sub

end Operator

namespace Numerics

/-- A step fits the next number to the kind. -/
theorem step_int (hn : n.limits.Standard) (hk : k.isIntegral = true)
    (overflow : Unit → OperatorFault) : n.step k (.int x) increment overflow =
      match n.fitted? k (stepped x increment) with
      | some z => .ok (.int z)
      | none => .error (overflow ()) := by
  obtain ⟨min, max, hget⟩ := LimitsTable.exists_range hn hk
  have hstep : n.step k (.int x) increment overflow =
      if !n.limits.holds k (stepped x increment) && n.overflow == .fault then .error (overflow ())
      else return .int (← n.fitInt k (stepped x increment)) := rfl
  rw [hstep, fitted?_eq hget]
  generalize stepped x increment = y
  simp only [LimitsTable.holds, fitInt, hget]
  by_cases hy : min ≤ y ∧ y ≤ max
  · cases n.overflow <;> simp [hy, wrapInto_of_mem hy.1 hy.2]
  · cases n.overflow <;> simp [hy]

/-- The sum has the kind in which the variable takes part. -/
theorem binary_stepSum (hn : n.limits.Standard) (hk : k.isIntegral = true)
    (hwide : Wide.holds (stepped x increment) = true) (cause : OperatorFault) :
    match n.fitted? (n.limits.widened k) (stepped x increment) with
    | some z => n.binary (Operator.stepSum increment) cause k (.int x) .int (.int 1) =
        .ok (.int (n.limits.widened k) z)
    | none => ∃ fault, n.binary (Operator.stepSum increment) cause k (.int x) .int (.int 1) =
        .error fault := by
  obtain ⟨hi, hb⟩ := LimitsTable.widened_spec hn hk
  have hfloat : (n.limits.widened k).isFloat = false := by
    simpa [ArithKind.isIntegral] using hi
  have hbinary : n.binary (Operator.stepSum increment) cause k (.int x) .int (.int 1) =
      n.value (n.limits.widened k) (.int (stepped x increment)) := by
    cases increment
    · simp only [stepped, Bool.false_eq_true, if_false] at hwide
      simp [binary, Operator.stepSum, BinaryOp.isComparison, BinaryOp.isShift,
        LimitsTable.promote_widened_int hn, hfloat, integerResult?, hwide, stepped]
      rfl
    · simp only [stepped, if_true] at hwide
      simp [binary, Operator.stepSum, BinaryOp.isComparison, BinaryOp.isShift,
        LimitsTable.promote_widened_int hn, hfloat, integerResult?, hwide, stepped]
      rfl
  rw [hbinary, value_int hn hi hb, fitted?]
  cases n.fitInt (n.limits.widened k) (stepped x increment) with
  | ok z => rfl
  | error cause => exact ⟨cause, rfl⟩

end Numerics

namespace OperatorM

/-- A cell that was loaded can be written, and what it holds then is answered. -/
theorem exists_write (hload : h.load? p = some l) (v : Value) (ctx : OperatorContext) :
    ∃ stored h', write l v ctx h = .ok stored h' ∧ h'.load? p = some stored := by
  obtain ⟨cell, hcell, rfl⟩ := Option.map_eq_some_iff.mp hload
  have hlt : p.index < (h.cells p.block).size := (Array.getElem?_eq_some_iff.mp hcell).1
  have hstore : ∃ h', h.store? p v = some h' := ⟨_, if_pos hlt⟩
  obtain ⟨h', hstore⟩ := hstore
  obtain ⟨stored, hstored⟩ := Heap.load?_of_store? hstore
  refine ⟨stored, h', ?_, hstored⟩
  rw [write_apply rfl, hstore]
  dsimp only
  rw [hstored]

/-- A cell takes over the payload and its type, and nothing else. -/
theorem write_congr (hl : l.place = some p) (hty : v.ty = w.ty) (hdata : v.data = w.data) :
    write l v ctx h = write l w ctx h := by
  rw [write_apply hl, write_apply hl]
  simp only [Heap.store?, hty, hdata]

end OperatorM

namespace Operator

/-- The marker as right operand asks for the previous value. -/
def stepAnswer (l : Value) (r : Option Value) (stored : Value) : Value :=
  if r.any Value.isMarker then l.rvalue else stored

/-- The step and the assignment both fault, or both end with one write. -/
inductive EndAlike (ctx : OperatorContext) (h : Heap) (l : Value) (increment : Bool) : Prop
  | fault (hstep : ∀ r, ∃ fault, (step increment).apply l r ctx h = .error fault h)
    (hassign : ∃ fault, (compound (stepSum increment)).apply l (some (.int .int 1)) ctx h =
      .error fault h)
  | write (v : Value)
    (hstep : ∀ r, (step increment).apply l r ctx h =
      (write l v >>= fun stored => pure (stepAnswer l r stored)) ctx h)
    (hassign : (compound (stepSum increment)).apply l (some (.int .int 1)) ctx h = write l v ctx h)

section Assigning

variable (hp : l.place = some p) (hw : l.readonly = false)

include hp hw

theorem assign_apply_number (hl : l.ty = .arith k) : assign.apply l (some v) ctx h =
    (convert v (.arith k) false >>= write l) ctx h := by
  have happly : assign.apply l (some v) = assignNumber l (some v) := by
    simp [apply, ofType?, ofNumber?, hl]
  rw [happly]
  simp only [assignNumber, operand, pure_bind, hl]
  rw [bind_ok (checkWritable_ok hp hw ctx h)]

theorem assign_apply_pointer (hl : l.ty.isPointer = true) : assign.apply l (some v) ctx h =
    if l.ty.isArray then .error ⟨.operator (.arrayAssignment l.ty), ctx.node⟩ h
    else (convert v l.ty false >>= write l) ctx h := by
  have happly : assign.apply l (some v) = assignPointer l (some v) := by
    simp only [apply, ofType?_of_isPointer hl, ofPointer?]
  rw [happly]
  simp only [assignPointer, operand, pure_bind]
  rw [bind_ok (checkWritable_ok hp hw ctx h)]
  split <;> rfl

end Assigning

section Numbers

variable (ctx h increment)

variable (hn : ctx.numerics.limits.Standard) (hp : l.place = some p) (hw : l.readonly = false)
  (hl : l.IsInt k x) (hk : k.isIntegral = true)

include hn hp hw hl hk

theorem step_apply_int (r : Option Value) : (step increment).apply l r ctx h =
    match ctx.numerics.fitted? k (stepped x increment) with
    | some z => (write l (.int k z) >>= fun stored => pure (stepAnswer l r stored)) ctx h
    | none => .error ⟨.operator
        (.stepOverflow (r.any Value.isMarker) increment (h.text l)), ctx.node⟩ h := by
  have hstep : (step increment).apply l r = stepNumber l r increment := by
    cases increment <;> simp [apply, step, ofType?, ofNumber?, hl.ty]
  rw [hstep]
  simp only [stepNumber, hl.ty, Ty.arith?, Value.number?, hl.data, Data.number?]
  rw [bind_ok (checkWritable_ok hp hw ctx h)]
  change (ofExcept (ctx.numerics.step k (.int x) increment fun _ => _) >>= fun data =>
    write l (.fresh (.arith k) data) >>= fun stored =>
      pure (if r.any Value.isMarker then l.rvalue else stored)) ctx h = _
  rw [Numerics.step_int hn hk]
  cases ctx.numerics.fitted? k (stepped x increment) <;> rfl

/-- The assignment converts the sum, if there is one, to the kind of the variable. -/
theorem assign_apply_int (hwide : Wide.holds (stepped x increment) = true) :
    match (ctx.numerics.fitted? (ctx.numerics.limits.widened k) (stepped x increment)).bind
        (ctx.numerics.compared? (ctx.numerics.limits.widened k) k) with
    | some z => (compound (stepSum increment)).apply l (some (.int .int 1)) ctx h =
        write l (.int k z) ctx h
    | none => ∃ fault, (compound (stepSum increment)).apply l (some (.int .int 1)) ctx h =
        .error fault h := by
  have hsum := Numerics.binary_stepSum hn hk hwide
    (unsupportedCause (.binary (stepSum increment)) l (some (.int .int 1)))
  have happly := apply_ints ctx hl (Value.isInt_int .int 1) (stepSum increment) h
  rw [apply_compound]
  cases hy : ctx.numerics.fitted? (ctx.numerics.limits.widened k) (stepped x increment) with
  | none =>
    simp only [hy] at hsum
    obtain ⟨cause, hcause⟩ := hsum
    rw [hcause] at happly
    exact ⟨_, bind_error happly⟩
  | some y =>
    simp only [hy] at hsum
    rw [hsum] at happly
    obtain ⟨min, max, hget⟩ := LimitsTable.exists_range hn hk
    have hconvert := convert_int ctx h
      (Value.isInt_int (ctx.numerics.limits.widened k) y) hget false
    rw [bind_ok happly, assign_apply_number hp hw hl.ty, Option.bind_some]
    cases hz : ctx.numerics.compared? (ctx.numerics.limits.widened k) k y with
    | none =>
      simp only [hz] at hconvert
      exact ⟨_, bind_error hconvert⟩
    | some z =>
      simp only [hz] at hconvert
      obtain ⟨v, hv, hconvert⟩ := hconvert
      rw [bind_ok hconvert]
      exact write_congr hp hv.ty hv.data

theorem endAlike_int (hwide : Wide.holds (stepped x increment) = true)
    (hbool : k = .bool → ctx.numerics.limits.holds .bool (stepped x increment) = true ∨
      ctx.numerics.overflow = .wrap ∧ stepped x increment = -1) :
    EndAlike ctx h l increment := by
  have hstep := step_apply_int ctx h increment hn hp hw hl hk
  have hassign := assign_apply_int ctx h increment hn hp hw hl hk hwide
  rw [Numerics.converted_widened hn hk hbool] at hassign
  cases hz : ctx.numerics.fitted? k (stepped x increment) with
  | none =>
    simp only [hz] at hstep hassign
    exact .fault (fun r => ⟨_, hstep r⟩) hassign
  | some z =>
    simp only [hz] at hstep hassign
    exact .write _ hstep hassign

end Numbers

section Pointers

variable (ctx h increment)

/-- The sum of a pointer and a number is an offset. -/
theorem stepSum_apply_pointer (hl : l.ty.isPointer = true) :
    ∃ sign : Int, sign ≠ 0 ∧ Position.holds (sign * 1) = true ∧
      (∀ i, i + sign * 1 = stepped i increment) ∧
      (binary (stepSum increment)).apply l (some (.int .int 1)) = offset l (.int .int 1) sign := by
  cases increment with
  | true => exact ⟨1, by decide, by decide, fun i => rfl, apply_add_pointer hl⟩
  | false => exact ⟨-1, by decide, by decide, fun i => rfl, apply_sub_count hl (b := 1) ⟨rfl, rfl⟩⟩

variable (hp : l.place = some p) (hw : l.readonly = false) (hl : l.ty.isPointer = true)

include hp hw hl

theorem step_apply_pointer (r : Option Value) : (step increment).apply l r ctx h =
    (match l.data with
    | .array store i => do
      if l.ty.isArray then fail (.arrayAssignment l.ty)
      let moved ← position (stepped i increment)
      let stored ← write l (.fresh l.ty (.array store moved))
      return stepAnswer l r stored
    | _ => fail (.notArrayPointer l.ty) : OperatorM Value) ctx h := by
  have hstep : (step increment).apply l r = stepPointer l r increment := by
    cases increment <;> simp only [step, apply, ofType?_of_isPointer hl, ofPointer?] <;> rfl
  rw [hstep, stepPointer, bind_ok (checkWritable_ok hp hw ctx h)]
  rfl

/-- A pointer that is moved in place: the sum has its type, and its conversion does nothing. -/
theorem endAlike_array {s : Option BlockId} {i : Int} (hd : l.data = .array s i) :
    EndAlike ctx h l increment := by
  have hstep := step_apply_pointer ctx h increment hp hw hl
  obtain ⟨sign, -, hsign, hstepped, hsum⟩ := stepSum_apply_pointer increment hl
  have hone : (Value.int .int 1).Counts 1 := ⟨rfl, rfl⟩
  have hoffset := offset_array ctx h hd hone sign
  rw [hstepped, ← hsum] at hoffset
  have happly : (compound (stepSum increment)).apply l (some (.int .int 1)) = _ :=
    apply_compound _ _ _
  simp only [hd] at hstep
  by_cases harray : l.ty.isArray = true
  · simp only [harray, if_true] at hstep
    refine .fault (fun r => ⟨_, hstep r⟩) ?_
    rw [happly]
    split at hoffset
    · rw [bind_ok hoffset, assign_apply_pointer hp hw hl, if_pos harray]
      exact ⟨_, rfl⟩
    · exact ⟨_, bind_error hoffset⟩
  · simp only [harray] at hstep
    by_cases hpos : Position.holds (stepped i increment) = true
    · rw [if_pos ⟨hsign, hpos⟩] at hoffset
      refine .write (.fresh l.ty (.array s (stepped i increment))) (fun r => ?_) ?_
      · rw [hstep r]
        exact (position_bind ctx h _ _).trans (if_pos hpos)
      · have hmoved : movedType l.ty = l.ty := movedType_of_isArray (by simpa using harray)
        have hsame : (l.ty == l.ty) = true := Ty.beq_iff_named.mpr rfl
        rw [happly, bind_ok hoffset, assign_apply_pointer hp hw hl, if_neg harray, hmoved]
        simp only [convert, Value.fresh, hsame, if_true, pure_bind]
        rfl
    · rw [if_neg fun hc => hpos hc.2] at hoffset
      refine .fault (fun r => ?_) ?_
      · rw [hstep r]
        exact ⟨_, (position_bind ctx h _ _).trans (if_neg hpos)⟩
      · rw [happly]
        exact ⟨_, bind_error hoffset⟩

/-- What is no position in an array cannot be moved by one. -/
theorem endAlike_pointer (hd : ∀ store i, l.data ≠ .pointer (some ⟨.element, store, i⟩)) :
    EndAlike ctx h l increment := by
  by_cases harray : ∃ s i, l.data = .array s i
  · obtain ⟨s, i, hdata⟩ := harray
    exact endAlike_array ctx h increment hp hw hl hdata
  have hno : ∀ s i, l.data ≠ .array s i := fun s i hdata => harray ⟨s, i, hdata⟩
  obtain ⟨sign, hne, -, -, hsum⟩ := stepSum_apply_pointer increment hl
  have hone : (Value.int .int 1).Counts 1 := ⟨rfl, rfl⟩
  have hdelta : sign * 1 ≠ 0 := by omega
  refine .fault (fun r => ?_) ?_
  · have hstep := step_apply_pointer ctx h increment hp hw hl r
    cases hdata : l.data with
    | array s i => exact absurd hdata (hno s i)
    | _ =>
      rw [hdata] at hstep
      exact ⟨_, hstep⟩
  · rw [apply_compound, hsum]
    obtain ⟨fault, hfault⟩ := offset_refused ctx h hno hd hone hdelta
    exact ⟨fault, bind_error hfault⟩

end Pointers

/-- Where increments and assignments agree. A truth value has to step to another one, though under
the wrapping policy false may step below itself, and no pointer may address an array element as
a cell of its own. -/
inductive Steppable (n : Numerics) (increment : Bool) (l : Value) : Prop
  | int {k : ArithKind} {x : Int} (hk : k.isIntegral = true) (hl : l.IsInt k x)
    (hwide : Wide.holds (stepped x increment) = true)
    (hbool : k = .bool → n.limits.holds .bool (stepped x increment) = true ∨
      n.overflow = .wrap ∧ stepped x increment = -1)
  | pointer (hl : l.ty.isPointer = true)
    (hd : ∀ store i, l.data ≠ .pointer (some ⟨.element, store, i⟩))

/-- `++x`, `x++` and `x += 1` all fault and leave the heap as it is, or all succeed and leave the
same value in the cell of `x`; so do `--x`, `x--` and `x -= 1`. The postfix forms answer with the
value before, the others with the one in the cell. -/
theorem step_eq_assign {ctx : OperatorContext} (hn : ctx.numerics.limits.Standard) {h : Heap}
    {p : Place} {l : Value} (hload : h.load? p = some l) (hw : l.readonly = false)
    {increment : Bool} (hs : Steppable ctx.numerics increment l) :
    (∃ e₁ e₂ e₃, (step increment).apply l none ctx h = .error e₁ h ∧
      (step increment).apply l (some .marker) ctx h = .error e₂ h ∧
      (compound (stepSum increment)).apply l (some (.int .int 1)) ctx h = .error e₃ h) ∨
    ∃ stored h', h'.load? p = some stored ∧
      (step increment).apply l none ctx h = .ok stored h' ∧
      (step increment).apply l (some .marker) ctx h = .ok l.rvalue h' ∧
      (compound (stepSum increment)).apply l (some (.int .int 1)) ctx h = .ok stored h' := by
  have hp : l.place = some p := by
    obtain ⟨cell, -, rfl⟩ := Option.map_eq_some_iff.mp hload
    rfl
  have hend : EndAlike ctx h l increment := by
    cases hs with
    | int hk hl hwide hbool => exact endAlike_int ctx h increment hn hp hw hl hk hwide hbool
    | pointer hl hd => exact endAlike_pointer ctx h increment hp hw hl hd
  cases hend with
  | fault hstep hassign =>
    obtain ⟨e₁, he₁⟩ := hstep none
    obtain ⟨e₂, he₂⟩ := hstep (some .marker)
    obtain ⟨e₃, he₃⟩ := hassign
    exact .inl ⟨e₁, e₂, e₃, he₁, he₂, he₃⟩
  | write v hstep hassign =>
    obtain ⟨stored, h', hwrite, hstored⟩ := exists_write hload v ctx
    have hanswer (r : Option Value) :
        (step increment).apply l r ctx h = .ok (stepAnswer l r stored) h' := by
      rw [hstep r, bind_ok hwrite]
      rfl
    exact .inr ⟨stored, h', hstored, hanswer none, hanswer (some .marker), hassign.trans hwrite⟩

/-- A `char` at the end of its range, where both fault. -/
theorem step_eq_assign_char :
    let ctx : OperatorContext := ⟨{}, [], none⟩
    let l : Value := { Value.int .char 127 with place := some (.slot 0) }
    let h : Heap := ⟨#[#[.int .char 127]]⟩
    (∃ e₁ e₂ e₃, inc.apply l none ctx h = .error e₁ h ∧
      inc.apply l (some .marker) ctx h = .error e₂ h ∧
      (compound .add).apply l (some (.int .int 1)) ctx h = .error e₃ h) ∨
    ∃ stored h', h'.load? (.slot 0) = some stored ∧ inc.apply l none ctx h = .ok stored h' ∧
      inc.apply l (some .marker) ctx h = .ok l.rvalue h' ∧
      (compound .add).apply l (some (.int .int 1)) ctx h = .ok stored h' := by
  intro ctx l h
  have hs : Steppable ctx.numerics true l := .int (k := .char) rfl ⟨rfl, rfl⟩ (by decide) nofun
  have hload : h.load? (.slot 0) = some l := rfl
  exact step_eq_assign (LimitsTable.standard_empty : ctx.numerics.limits.Standard) hload rfl hs

/-- An increment of true overflows, but true and one are true. -/
theorem step_bool_overflows :
    let ctx : OperatorContext := ⟨{}, [], none⟩
    let l : Value := { Value.bool true with place := some (.slot 0) }
    let h : Heap := ⟨#[#[.bool true]]⟩
    inc.apply l none ctx h = .error ⟨.operator (.stepOverflow false true "true"), none⟩ h ∧
      (compound .add).apply l (some (.int .int 1)) ctx h = .ok l h := by
  intro ctx l h
  have hl : l.IsInt .bool 1 := ⟨rfl, rfl⟩
  constructor
  · exact step_apply_int ctx h true LimitsTable.standard_empty rfl rfl hl rfl none
  · exact assign_apply_int ctx h true LimitsTable.standard_empty rfl rfl hl rfl (by decide)

end Operator

end Stepwise
