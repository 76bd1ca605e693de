import Stepwise.Proofs.Operator.Offsets

/-! # The laws of pointer arithmetic

Integers act on the pointers into an array: moving by a sum is moving twice, and moving back
leads to an equal pointer. The distance of two pointers and their order are those of the integers
that they were moved by. A pointer leads to the element at its position and to no other, and taking
the address of what it leads to leads back.
-/

namespace Stepwise

open OperatorM

variable (ctx : OperatorContext) (h : Heap) {l m n p q s : Value} {r : Option Value}
  {store t : BlockId} {pos i j a b : Int} {op : BinaryOp}

namespace Operator

section Moving

variable (hp : p.Addresses store pos) (hn : n.Counts b)

include hp hn

theorem yields_add (hb : Position.holds b = true) (hsum : Position.holds (pos + b) = true) :
    (binary .add).Yields ctx h p (some n) (moved p store (pos + b)) := by
  rw [Yields, apply_add_pointer hp.isPointer, offset_apply ctx h hp hn, Int.one_mul]
  exact if_pos ⟨hb, hsum⟩

theorem yields_sub (hb : Position.holds (-b) = true) (hsum : Position.holds (pos - b) = true) :
    (binary .sub).Yields ctx h p (some n) (moved p store (pos - b)) := by
  rw [Yields, apply_sub_count hp.isPointer hn, offset_apply ctx h hp hn, Int.neg_one_mul,
    ← Int.sub_eq_add_neg]
  exact if_pos ⟨hb, hsum⟩

theorem add_overflows (hout : ¬(Position.holds b = true ∧ Position.holds (pos + b) = true)) :
    (binary .add).apply p (some n) ctx h = overflowed ctx h := by
  rw [apply_add_pointer hp.isPointer, offset_apply ctx h hp hn, Int.one_mul]
  exact if_neg hout

theorem sub_overflows (hout : ¬(Position.holds (-b) = true ∧ Position.holds (pos - b) = true)) :
    (binary .sub).apply p (some n) ctx h = overflowed ctx h := by
  rw [apply_sub_count hp.isPointer hn, offset_apply ctx h hp hn, Int.neg_one_mul,
    ← Int.sub_eq_add_neg]
  exact if_neg hout

end Moving

section Comparing

variable (hp : p.Addresses store i) (hq : q.Addresses t j)

include hp hq

theorem yields_eq : (binary .eq).Yields ctx h p (some q)
    (.bool (comparable p.ty q.ty && (store, i) == (t, j))) := by
  rw [Yields, apply_binary_pointer hp.isPointer (.inr (.inr rfl))]
  exact bind_ok (equal_apply ctx h hp.position hq.position)

theorem yields_ne : (binary .ne).Yields ctx h p (some q)
    (.bool !(comparable p.ty q.ty && (store, i) == (t, j))) := by
  rw [Yields, apply_binary_pointer hp.isPointer (.inr (.inr rfl))]
  exact bind_ok (equal_apply ctx h hp.position hq.position)

end Comparing

section OneArray

variable (hp : p.Addresses store i) (hq : q.Addresses store j)

include hp hq

theorem commonPositions_apply (across : OperatorFault) :
    commonPositions p q across ctx h = .ok (i, j) h := by
  unfold commonPositions
  rw [hp.position, hq.position]
  simp only [if_true]
  rfl

theorem yields_distance {min max : Int}
    (hint : (ctx.numerics.limits.get .int).range = .integral min max) (hmin : min ≤ i - j)
    (hmax : i - j ≤ max) : (binary .sub).Yields ctx h p (some q) (.int .int (i - j)) := by
  have hno : q.ty.isArith = false := by
    have hpointer := hq.isPointer
    cases hty : q.ty <;> rw [hty] at hpointer <;> first | rfl | cases hpointer
  have hnumber : number .int (.int (i - j)) ctx h = .ok (.int .int (i - j)) h := by
    change ofExcept (ctx.numerics.value .int (.int (i - j))) ctx h = _
    simp only [Numerics.value, Numerics.fit, hint, Numerics.fitInt, hmin, hmax]
    rfl
  rw [Yields, apply_binary_pointer hp.isPointer (.inr (.inl rfl))]
  simp only [pointerBinary, operand, pure_bind, hno]
  exact (bind_ok (commonPositions_apply ctx h hp hq _)).trans hnumber

/-- Pointers of one type into one array are compared as their positions. -/
theorem yields_comparison (hop : op.isComparison = true) (hty : p.ty = q.ty) :
    (binary op).Yields ctx h p (some q) (.int .bool (op.exact i j)) := by
  have heq : (comparable p.ty q.ty && (store, i) == (store, j)) =
      Number.test .eq (some (compare i j)) := by
    rw [hty, comparable_self, Bool.true_and, Bool.eq_iff_iff, beq_iff_eq]
    simp [Number.test]
  have horder (hop' : op = .lt ∨ op = .le ∨ op = .gt ∨ op = .ge) :
      (binary op).Yields ctx h p (some q) (.bool (Number.test op (some (compare i j)))) := by
    have hcommon := commonPositions_apply ctx h hp hq .compareAcrossArrays
    rw [Yields, apply_binary_pointer hp.isPointer (.inr (.inr hop))]
    rcases hop' with rfl | rfl | rfl | rfl
    all_goals exact bind_ok hcommon
  rw [← Numerics.test_compare hop]
  cases op with
  | eq => exact heq ▸ yields_eq ctx h hp hq
  | ne =>
    have hne : (!Number.test .eq (some (compare i j))) = Number.test .ne (some (compare i j)) := by
      simp [Number.test, bne]
    exact hne ▸ heq ▸ yields_ne ctx h hp hq
  | lt => exact horder (.inl rfl)
  | le => exact horder (.inr (.inl rfl))
  | gt => exact horder (.inr (.inr (.inl rfl)))
  | ge => exact horder (.inr (.inr (.inr rfl)))
  | _ => cases hop

end OneArray

/-- Integers of any kinds are compared as numbers. -/
theorem yields_comparison_counts (hm : m.Counts a) (hn : n.Counts b) (hop : op.isComparison = true) :
    (binary op).Yields ctx h m (some n) (.int .bool (op.exact a b)) := by
  obtain ⟨j, -, hj⟩ := hm.isInt
  obtain ⟨k, -, hk⟩ := hn.isInt
  rw [Yields, apply_ints ctx hj hk]
  simp [Numerics.binary, hop, Number.compare?, outcome, Numerics.test_compare hop]

theorem exact_add_left (hop : op.isComparison = true) (pos a b : Int) :
    op.exact (pos + a) (pos + b) = op.exact a b := by
  cases op <;> first | exact absurd hop (by decide) | simp [BinaryOp.exact]

section Accessing

/-- The computation answers with the element at the position as an lvalue. Outside the array it
faults. -/
structure Accesses (h : Heap) (store : BlockId) (pos : Int)
    (x : EStateM.Result Fault Heap Value) : Prop where
  inside : 0 ≤ pos → pos < (h.cells store).size → ∃ v, h.load? (.element store pos.toNat) = some v ∧
    v.place = some (.element store pos.toNat) ∧ x = .ok v h
  outside : ¬(0 ≤ pos ∧ pos < (h.cells store).size) → ∃ fault, x = .error fault h

theorem load?_apply (p : Place) : load? p ctx h = .ok (h.load? p) h := rfl

/-- What loads an element and faults where there is none. -/
theorem accesses_of_load? {k : Nat} {x : EStateM.Result Fault Heap Value}
    (hsome : ∀ v, h.load? (.element store k) = some v → x = .ok v h)
    (hnone : h.load? (.element store k) = none → ∃ fault, x = .error fault h) :
    Accesses h store k x := by
  have hcell : h.load? (.element store k) =
      (h.cells store)[k]?.map fun v => { v with place := some (.element store k) } := rfl
  constructor
  · intro _ hlt
    rw [Array.getElem?_eq_getElem (Int.ofNat_lt.mp hlt), Option.map_some] at hcell
    exact ⟨_, hcell, rfl, hsome _ hcell⟩
  · intro hout
    have hsize : (h.cells store).size ≤ k := by omega
    rw [Array.getElem?_eq_none hsize, Option.map_none] at hcell
    exact hnone hcell

theorem accesses_element : Accesses h store pos (element store pos ctx h) := by
  cases pos with
  | negSucc k =>
    constructor
    · intro hnonneg
      exact absurd hnonneg (Int.not_le.mpr (Int.negSucc_lt_zero k))
    · intro _
      exact ⟨_, rfl⟩
  | ofNat k =>
    have hload := load?_apply ctx h (.element store k)
    apply accesses_of_load? h
    · intro v hv
      rw [hv] at hload
      exact bind_ok hload
    · intro hv
      rw [hv] at hload
      exact ⟨_, bind_ok hload⟩

theorem apply_deref_pointer (hp : p.ty.isPointer = true) :
    deref.apply p none = OperatorM.deref p none := by
  simp only [apply, ofType?_of_isPointer hp, ofPointer?]

theorem apply_index_pointer (hp : p.ty.isPointer = true) :
    index.apply p (some n) = (do OperatorM.deref (← offset p n 1) none) := by
  simp only [apply, ofType?_of_isPointer hp, ofPointer?, OperatorM.index, operand, pure_bind]

theorem deref_array {v : Value} (hd : v.data = .array (some store) pos) :
    OperatorM.deref v none ctx h = element store pos ctx h := by
  unfold OperatorM.deref
  simp only [hd]
  rfl

theorem accesses_deref (hp : p.Addresses store pos) :
    Accesses h store pos (deref.apply p none ctx h) := by
  rw [apply_deref_pointer hp.isPointer]
  rcases hp.data_cases with hd | ⟨k, hd, rfl, -⟩
  · rw [deref_array ctx h hd]
    exact accesses_element ctx h
  · have hload := load?_apply ctx h (.element store k)
    unfold OperatorM.deref
    simp only [hd]
    apply accesses_of_load? h
    · intro v hv
      rw [hv] at hload
      exact bind_ok hload
    · intro hv
      rw [hv] at hload
      exact ⟨_, bind_ok hload⟩

/-- An index moves the pointer and leads to the element there. -/
theorem index_apply (hp : p.Addresses store pos) (hn : n.Counts b) :
    index.apply p (some n) ctx h =
      if Position.holds b ∧ Position.holds (pos + b) then element store (pos + b) ctx h
      else overflowed ctx h := by
  have hmoved := offset_apply ctx h hp hn 1
  rw [Int.one_mul] at hmoved
  rw [apply_index_pointer hp.isPointer]
  split
  · rename_i hin
    rw [if_pos hin] at hmoved
    rw [bind_ok hmoved]
    exact deref_array ctx h rfl
  · rename_i hout
    rw [if_neg hout] at hmoved
    exact bind_error hmoved

section Addresses

variable {v : Value} {place : Place}

/-- The type of the pointer to a left value. -/
def addressType (v : Value) : Ty := if v.readonly then .constPointerTo v.ty else .pointerTo v.ty

theorem exists_addressType (hv : v.ty.isObject = true) : ∃ c, addressType v = .pointer v.ty c := by
  unfold addressType
  split
  · exact ⟨true, rfl⟩
  · refine ⟨false, ?_⟩
    cases hty : v.ty <;> rw [hty] at hv <;> first | rfl | cases hv

theorem apply_addrOf_object (hv : v.ty.isObject = true) :
    addrOf.apply v none = addressOf v none := by
  have hof : ofType? v.ty addrOf = some addressOf := by
    cases hty : v.ty <;> rw [hty] at hv <;> first | rfl | cases hv
  simp only [apply, hof]

theorem addressOf_apply (hplace : v.place = some place) :
    addressOf v none ctx h = match place.role with
      | .element =>
        if Position.holds place.index then
          .ok (.fresh (addressType v) (.array (some place.block) place.index)) h
        else overflowed ctx h
      | _ => .ok (.fresh (addressType v) (.pointer (some place))) h := by
  unfold addressOf OperatorM.place
  rw [hplace]
  cases hrole : place.role with
  | element =>
    simp only [Option.isSome_none, Bool.false_eq_true, if_false, pure_bind, hrole,
      position_bind]
    rfl
  | _ =>
    simp only [Option.isSome_none, Bool.false_eq_true, if_false, pure_bind, hrole]
    rfl

theorem yields_addrOf_element (hv : v.ty.isObject = true)
    (hplace : v.place = some (.element store pos.toNat)) (hnonneg : 0 ≤ pos)
    (hpos : Position.holds pos = true) :
    addrOf.Yields ctx h v none (.fresh (addressType v) (.array (some store) pos)) := by
  have hi : (pos.toNat : Int) = pos := Int.toNat_of_nonneg hnonneg
  rw [Yields, apply_addrOf_object hv, addressOf_apply ctx h hplace]
  simp only [Place.element, hi, hpos, if_true]

/-- What the address of an object leads to is the object. -/
theorem yields_deref_addrOf (hload : h.load? place = some v) (hv : v.ty.isObject = true)
    (hpos : place.role = .element → Position.holds place.index = true) :
    ∃ w, addrOf.Yields ctx h v none w ∧ deref.Yields ctx h w none v := by
  obtain ⟨c, hty⟩ := exists_addressType hv
  have hplace : v.place = some place := by
    obtain ⟨cell, -, rfl⟩ := Option.map_eq_some_iff.mp hload
    rfl
  have hfound := load?_apply ctx h place
  rw [hload] at hfound
  have haddress := addressOf_apply ctx h hplace
  rw [← apply_addrOf_object hv] at haddress
  have hderef (w : Value) (hw : w.ty = addressType v) :
      deref.apply w none = OperatorM.deref w none :=
    apply_deref_pointer (by rw [hw, hty]; rfl)
  obtain ⟨_ | _ | _, store, i⟩ := place
  case element =>
    simp only [hpos rfl, if_true] at haddress
    refine ⟨_, haddress, ?_⟩
    rw [Yields, hderef _ rfl, deref_array ctx h rfl]
    exact bind_ok hfound
  all_goals
    refine ⟨_, haddress, ?_⟩
    rw [Yields, hderef _ rfl]
    exact bind_ok hfound

end Addresses

end Accessing

section Types

theorem pointerTo_eq_pointer {t : Ty} (ht : ∀ f, t ≠ .function f) : t.pointerTo = .pointer t false := by
  cases t with
  | function f => exact absurd rfl (ht f)
  | _ => rfl

theorem sameShape_function {t : Ty} (ht : t.isFunction = false) (f : FunctionTy) :
    t.sameShape (.function f) = false := by
  cases t with
  | function g => cases ht
  | _ => simp [Ty.sameShape, Bool.eq_false_iff, Ty.beq_iff_named, Ty.named]

/-- A pointer that was moved can be compared with the original, unless that is an array of functions,
which becomes a function pointer. -/
theorem comparable_movedType {t : Ty} (ht : ∀ f k, t ≠ .array (.function f) k) :
    comparable (movedType t) t = true := by
  cases t with
  | array element k =>
    have helement (f : FunctionTy) : element ≠ .function f := by
      rintro rfl
      exact ht f k rfl
    rw [movedType, pointerTo_eq_pointer helement]
    simp [comparable, Ty.sameShape, Ty.sameShape_refl]
  | _ => exact comparable_self _

/-- A pointer to an object can be compared with what arithmetic makes of a pointer if that one leads
to objects of this shape, or to `void`. -/
theorem comparable_pointer_movedType {t u : Ty} (c : Bool) (hu : u.isObject = true)
    (ht : t.isPointer = true) : comparable (.pointer u c) (movedType t) =
      t.pointee?.any fun e => u.sameShape e || e.isVoid := by
  have hvoid : u.isVoid = false := by cases u <;> first | rfl | cases hu
  have hfunction : u.isFunction = false := by cases u <;> first | rfl | cases hu
  have hpointer (e : Ty) (d : Bool) : comparable (.pointer u c) (.pointer e d) =
      (u.sameShape e || e.isVoid) := by
    simp [comparable, Ty.sameShape, pointsToVoid, Ty.pointee?, hvoid]
  have hnone (f : FunctionTy) : comparable (.pointer u c) (.functionPointer f) = false := by
    have hshape : (Ty.pointer u c).sameShape (.functionPointer f) = false := by
      simp [Ty.sameShape, Bool.eq_false_iff, Ty.beq_iff_named, Ty.named]
    simp [comparable, hshape, pointsToVoid, Ty.pointee?, hvoid]
  cases t with
  | pointer e d => exact hpointer e d
  | array e k =>
    by_cases he : ∃ f, e = .function f
    · obtain ⟨f, rfl⟩ := he
      simp only [movedType, Ty.pointerTo, hnone, Ty.pointee?, Option.any_some,
        sameShape_function hfunction f]
      rfl
    · rw [movedType, pointerTo_eq_pointer fun f hf => he ⟨f, hf⟩, hpointer]
      rfl
  | functionPointer f => exact hnone f
  | _ => cases ht

end Types

/-- The address of the element at an index is the pointer moved by that index, as far as their
types can be compared. -/
theorem yields_addrOf_index {v : Value} (hp : p.Addresses store pos) (hn : n.Counts b)
    (hv : index.Yields ctx h p (some n) v) (hobject : v.ty.isObject = true) :
    ∃ w q, addrOf.Yields ctx h v none w ∧ (binary .add).Yields ctx h p (some n) q ∧
      (binary .eq).Yields ctx h w (some q)
        (.bool (p.ty.pointee?.any fun e => v.ty.sameShape e || e.isVoid)) := by
  rw [Yields, index_apply ctx h hp hn] at hv
  split at hv
  · rename_i hin
    obtain ⟨hb, hpb⟩ := hin
    have haccess : Accesses h store (pos + b) (element store (pos + b) ctx h) :=
      accesses_element ctx h
    by_cases hinside : 0 ≤ pos + b ∧ pos + b < (h.cells store).size
    · obtain ⟨u, -, hplace, hu⟩ := haccess.inside hinside.1 hinside.2
      rw [hu] at hv
      cases hv
      obtain ⟨c, hty⟩ := exists_addressType hobject
      have haddress := yields_addrOf_element ctx h hobject hplace hinside.1 hpb
      have hw : (Value.fresh (addressType v) (.array (some store) (pos + b))).Addresses store
          (pos + b) := ⟨by rw [Value.fresh, hty]; rfl, rfl, hpb, fun _ => rfl⟩
      have hq : (moved p store (pos + b)).Addresses store (pos + b) :=
        addresses_moved hp.isPointer hpb
      refine ⟨_, _, haddress, yields_add ctx h hp hn hb hpb, ?_⟩
      have heq := yields_eq ctx h hw hq
      simpa [moved, Value.fresh, hty, comparable_pointer_movedType c hobject hp.isPointer] using heq
    · obtain ⟨fault, hfault⟩ := haccess.outside hinside
      rw [hfault] at hv
      cases hv
  · cases hv

/-- The laws of arithmetic at a pointer that addresses the position `pos` of `store`. Sums and
differences that occur have the 64 bits of a position. -/
structure PointerLaws (ctx : OperatorContext) (h : Heap) (p : Value) (store : BlockId) (pos : Int) :
    Prop where
  /-- `(p + m) + n` is `p + s` for every integer `s` that is the sum of the two, so it is
  `p + (m + n)` unless that sum leaves its kind. -/
  assoc : ∀ {m n s : Value} {a b : Int}, m.Counts a → n.Counts b → s.Counts (a + b) →
    Position.holds a = true → Position.holds b = true → Position.holds (a + b) = true →
    Position.holds (pos + a) = true → Position.holds (pos + (a + b)) = true →
    ∃ q q', (binary .add).Yields ctx h p (some m) q ∧ (binary .add).Yields ctx h q (some n) q' ∧
      (binary .add).Yields ctx h p (some s) q' ∧
      (binary .eq).Yields ctx h q' (some q') (.bool true)
  /-- `(p + n) - n == p`, unless the type of `p` is an array of functions. -/
  cancel : ∀ {n : Value} {b : Int}, (∀ f k, p.ty ≠ .array (.function f) k) → n.Counts b →
    Position.holds b = true → Position.holds (-b) = true → Position.holds (pos + b) = true →
    ∃ q q', (binary .add).Yields ctx h p (some n) q ∧ (binary .sub).Yields ctx h q (some n) q' ∧
      (binary .eq).Yields ctx h q' (some p) (.bool true)
  /-- `p + n` and `n + p` are the same, even if they fault. -/
  comm : ∀ {n : Value} {b : Int}, n.Counts b →
    (binary .add).apply p (some n) ctx h = (binary .add).apply n (some p) ctx h
  /-- `(p + n) - p` is `n` if `int` holds it. -/
  distance : ∀ {n : Value} {b min max : Int}, n.Counts b → Position.holds b = true →
    Position.holds (pos + b) = true → (ctx.numerics.limits.get .int).range = .integral min max →
    min ≤ b → b ≤ max → ∃ q, (binary .add).Yields ctx h p (some n) q ∧
      (binary .sub).Yields ctx h q (some p) (.int .int b)
  /-- `p + m` and `p + n` are compared as `m` and `n`. -/
  order : ∀ {op : BinaryOp} {m n : Value} {a b : Int}, op.isComparison = true → m.Counts a →
    n.Counts b → Position.holds a = true → Position.holds b = true →
    Position.holds (pos + a) = true → Position.holds (pos + b) = true →
    ∃ q q' v, (binary .add).Yields ctx h p (some m) q ∧ (binary .add).Yields ctx h p (some n) q' ∧
      (binary op).Yields ctx h q (some q') v ∧ (binary op).Yields ctx h m (some n) v
  /-- `*p` is the element that `p` addresses. -/
  target : Accesses h store pos (deref.apply p none ctx h)
  /-- `p[n]` is the element that `p + n` addresses. -/
  element : ∀ {n : Value} {b : Int}, n.Counts b → Position.holds b = true →
    Position.holds (pos + b) = true → Accesses h store (pos + b) (index.apply p (some n) ctx h)
  /-- `&p[n] == p + n` if the element has the type that `p` leads to, or `p` leads to `void`. -/
  address : ∀ {n v : Value} {b : Int}, n.Counts b → index.Yields ctx h p (some n) v →
    v.ty.isObject = true → ∃ w q, addrOf.Yields ctx h v none w ∧
      (binary .add).Yields ctx h p (some n) q ∧ (binary .eq).Yields ctx h w (some q)
        (.bool (p.ty.pointee?.any fun e => v.ty.sameShape e || e.isVoid))
  /-- An offset or a position of more than 64 bits is a fault of `p + n`, `n + p` and `p[n]`. -/
  overflow : ∀ {n : Value} {b : Int}, n.Counts b →
    ¬(Position.holds b = true ∧ Position.holds (pos + b) = true) →
    (binary .add).apply p (some n) ctx h = overflowed ctx h ∧
      (binary .add).apply n (some p) ctx h = overflowed ctx h ∧
      index.apply p (some n) ctx h = overflowed ctx h
  /-- It is one of `p - n`, too. -/
  underflow : ∀ {n : Value} {b : Int}, n.Counts b →
    ¬(Position.holds (-b) = true ∧ Position.holds (pos - b) = true) →
    (binary .sub).apply p (some n) ctx h = overflowed ctx h

/-- The laws hold at every pointer into an array, and `*&x` is `x` for every object `x` in the
heap. -/
theorem pointer_laws (ctx : OperatorContext) (h : Heap) :
    (∀ {p : Value} {store : BlockId} {pos : Int}, p.Addresses store pos →
      PointerLaws ctx h p store pos) ∧
    ∀ {x : Value} {place : Place}, h.load? place = some x → x.ty.isObject = true →
      (place.role = .element → Position.holds place.index = true) →
      ∃ w, addrOf.Yields ctx h x none w ∧ deref.Yields ctx h w none x := by
  refine ⟨fun {p store pos} hp => ?_, yields_deref_addrOf ctx h⟩
  have hmoved {i : Int} (hi : Position.holds i = true) : (moved p store i).Addresses store i :=
    addresses_moved hp.isPointer hi
  have hcomm {n : Value} {b : Int} (hn : n.Counts b) :
      (binary .add).apply p (some n) ctx h = (binary .add).apply n (some p) ctx h := by
    rw [apply_add_pointer hp.isPointer, apply_add_count hp.isPointer hn]
  constructor
  case assoc =>
    intro m n s a b hm hn hs ha hb hab hpa hpab
    have hassoc : pos + a + b = pos + (a + b) := Int.add_assoc pos a b
    have hsecond := yields_add ctx h (hmoved hpa) hn hb (hassoc ▸ hpab)
    rw [hassoc, moved_moved] at hsecond
    refine ⟨_, _, yields_add ctx h hp hm ha hpa, hsecond, yields_add ctx h hp hs hab hpab, ?_⟩
    simpa [comparable_self] using yields_eq ctx h (hmoved hpab) (hmoved hpab)
  case cancel =>
    intro n b hty hn hb hneg hpb
    have hback : pos + b - b = pos := Int.add_sub_cancel pos b
    have hsecond := yields_sub ctx h (hmoved hpb) hn hneg (hback.symm ▸ hp.holds)
    rw [hback, moved_moved] at hsecond
    refine ⟨_, _, yields_add ctx h hp hn hb hpb, hsecond, ?_⟩
    have heq := yields_eq ctx h (hmoved hp.holds) hp
    simpa [moved, Value.fresh, comparable_movedType hty] using heq
  case comm => exact hcomm
  case distance =>
    intro n b min max hn hb hpb hint hmin hmax
    have hback : pos + b - pos = b := by omega
    have hdistance := yields_distance ctx h (hmoved hpb) hp hint
      (hback.symm ▸ hmin) (hback.symm ▸ hmax)
    rw [hback] at hdistance
    exact ⟨_, yields_add ctx h hp hn hb hpb, hdistance⟩
  case order =>
    intro op m n a b hop hm hn ha hb hpa hpb
    have hcompare := yields_comparison ctx h (hmoved hpa) (hmoved hpb) hop rfl
    rw [exact_add_left hop] at hcompare
    exact ⟨_, _, _, yields_add ctx h hp hm ha hpa, yields_add ctx h hp hn hb hpb, hcompare,
      yields_comparison_counts ctx h hm hn hop⟩
  case target => exact accesses_deref ctx h hp
  case element =>
    intro n b hn hb hpb
    rw [index_apply ctx h hp hn, if_pos ⟨hb, hpb⟩]
    exact accesses_element ctx h
  case address => exact fun hn hv hobject => yields_addrOf_index ctx h hp hn hv hobject
  case overflow =>
    intro n b hn hout
    have hadd := add_overflows ctx h hp hn hout
    refine ⟨hadd, hcomm hn ▸ hadd, ?_⟩
    rw [index_apply ctx h hp hn, if_neg hout]
  case underflow => exact fun hn hout => sub_overflows ctx h hp hn hout

/-- An array of two numbers. -/
theorem pointer_laws_ints :
    let ctx : OperatorContext := ⟨{}, [], none⟩
    let h : Heap := ⟨#[#[.int .int 1, .int .int 2]]⟩
    let p : Value := .fresh (.array .int 2) (.array (some 0) 0)
    let v : Value := { Value.int .int 2 with place := some (.element 0 1) }
    let far : Value := .int .unsignedLongLong (2 ^ 63)
    (∃ q q', (binary .add).Yields ctx h p (some (.int .short 2)) q ∧
      (binary .add).Yields ctx h q (some (.int .int (-1))) q' ∧
      (binary .add).Yields ctx h p (some (.int .int 1)) q' ∧
      (binary .eq).Yields ctx h q' (some q') (.bool true)) ∧
    (∃ w q, addrOf.Yields ctx h v none w ∧ (binary .add).Yields ctx h p (some (.bool true)) q ∧
      (binary .eq).Yields ctx h w (some q) (.bool true)) ∧
    (binary .add).apply p (some far) ctx h = overflowed ctx h ∧
    ∃ w, addrOf.Yields ctx h v none w ∧ deref.Yields ctx h w none v := by
  intro ctx h p v far
  have hp : p.Addresses 0 0 := ⟨rfl, rfl, rfl, fun _ => rfl⟩
  have hcounts {k : ArithKind} (hk : k.isIntegral = true) (x : Int) : (Value.int k x).Counts x :=
    ⟨hk, rfl⟩
  have hlaws := (pointer_laws ctx h).1 hp
  refine ⟨?_, ?_, ?_, ?_⟩
  · exact hlaws.assoc (hcounts rfl 2) (hcounts rfl (-1)) (hcounts rfl 1) rfl rfl rfl rfl rfl
  · have hsame : (p.ty.pointee?.any fun e => v.ty.sameShape e || e.isVoid) = true := by
      decide +kernel
    have haddress := hlaws.address (v := v) (hcounts (k := .bool) rfl 1) rfl rfl
    rwa [hsame] at haddress
  · exact (hlaws.overflow (hcounts rfl (2 ^ 63)) (by decide)).1
  · have hload : h.load? (.element 0 1) = some v := rfl
    exact (pointer_laws ctx h).2 hload rfl fun _ => by decide

/-- A pointer that was cast differs from the address of what it leads to, a sum of integers may
overflow where moving twice does not, and an array of functions differs from what it is moved to. -/
theorem pointer_laws_fail :
    let ctx : OperatorContext := ⟨{}, [], none⟩
    let h : Heap := ⟨#[#[.int .int 1, .int .int 2]]⟩
    let cast : Value := .fresh (.pointer (.arith .double) false) (.array (some 0) 0)
    let v : Value := { Value.int .int 1 with place := some (.element 0 0) }
    let p : Value := .fresh (.array .int 2) (.array (some 0) 0)
    let functions : Value := .fresh (.array (.function ⟨.int, [], false⟩) 1) (.array (some 0) 0)
    let zero : Value := .int .int 0
    (index.Yields ctx h cast (some zero) v ∧ ∃ w, addrOf.Yields ctx h v none w ∧
      (binary .add).Yields ctx h cast (some zero) cast ∧
      (binary .eq).Yields ctx h w (some cast) (.bool false)) ∧
    ((∃ q q', (binary .add).Yields ctx h p (some (.int .int (2 ^ 31 - 1))) q ∧
      (binary .add).Yields ctx h q (some (.int .int 1)) q') ∧
      (binary .add).apply (.int .int (2 ^ 31 - 1)) (some (.int .int 1)) ctx h =
        .error ⟨.operator (.overflow .int "2147483648"), none⟩ h) ∧
    ∃ q q', (binary .add).Yields ctx h functions (some zero) q ∧
      (binary .sub).Yields ctx h q (some zero) q' ∧
      (binary .eq).Yields ctx h q' (some functions) (.bool false) := by
  intro ctx h cast v p functions zero
  have hcast : cast.Addresses 0 0 := ⟨rfl, rfl, rfl, nofun⟩
  have hfunctions : functions.Addresses 0 0 := ⟨rfl, rfl, rfl, fun _ => rfl⟩
  have haddress : addrOf.Yields ctx h v none (.fresh (.pointer .int false) (.array (some 0) 0)) :=
    yields_addrOf_element ctx h rfl rfl (Int.le_refl 0) rfl
  refine ⟨⟨rfl, _, haddress, rfl, ?_⟩, ?_, ?_⟩
  · have hw : (Value.fresh (.pointer .int false) (.array (some 0) 0)).Addresses 0 0 :=
      ⟨rfl, rfl, rfl, nofun⟩
    have hno : comparable (.pointer .int false) cast.ty = false := by decide +kernel
    have heq := yields_eq ctx h hw hcast
    rwa [Value.fresh, hno] at heq
  · exact ⟨⟨_, _, rfl, rfl⟩, rfl⟩
  · have hq : (moved functions 0 0).Addresses 0 0 := addresses_moved rfl rfl
    have hno : comparable (moved functions 0 0).ty functions.ty = false := by decide +kernel
    have heq := yields_eq ctx h hq hfunctions
    rw [hno] at heq
    exact ⟨_, _, rfl, rfl, heq⟩

end Operator

end Stepwise
