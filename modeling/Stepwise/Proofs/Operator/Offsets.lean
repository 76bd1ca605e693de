import Stepwise.Proofs.Operator.Conversions
import Stepwise.Proofs.Operator.Operands

/-! # Pointer arithmetic

A pointer into an array is moved by integers of any kind. The integers act on positions, which
may leave the array but not the 64 bits of a position, and a position is checked against the array
only when it is dereferenced. Two pointers are equal if they address the same position and their
types can be compared.
-/

namespace Stepwise

namespace Ty

/-- Objects are what variables, array elements and members can be. -/
def isObject : Ty → Bool
  | arith _ | pointer .. | array .. | functionPointer _ | struct .. => true
  | _ => false

theorem sameShape_refl : ∀ t : Ty, t.sameShape t = true
  | .pointer target _ => sameShape_refl target
  | .array element _ => sameShape_refl element
  | .void | .marker | .arith _ | .functionPointer _ | .function _ | .struct .. => by
    simp [sameShape, beq_iff_named]

end Ty

/-- The value is an integer of some kind. -/
structure Value.Counts (v : Value) (x : Int) : Prop where
  isIntegral : v.ty.isIntegral = true
  data : v.data = .int x

/-- The value addresses a position of an array. It is the array, or a pointer into it. -/
structure Value.Addresses (p : Value) (store : BlockId) (pos : Int) : Prop where
  isPointer : p.ty.isPointer = true
  position : p.data.arrayPosition? = some (store, pos)
  holds : Position.holds pos = true
  whole : p.ty.isArray = true → p.data = .array (some store) pos

theorem Value.Counts.isInt {v : Value} {x : Int} (hv : v.Counts x) :
    ∃ k : ArithKind, k.isIntegral = true ∧ v.IsInt k x := by
  obtain ⟨hty, hdata⟩ := hv
  cases hv : v.ty with
  | arith k =>
    rw [hv] at hty
    exact ⟨k, by simpa [Ty.isIntegral, Ty.arith?] using hty, hv, hdata⟩
  | _ =>
    rw [hv] at hty
    simp [Ty.isIntegral, Ty.arith?] at hty

/-- A position is addressed by the payload of an array, or by that of a pointer to one element. -/
theorem Data.arrayPosition?_cases {d : Data} {store : BlockId} {pos : Int}
    (hd : d.arrayPosition? = some (store, pos)) : d = .array (some store) pos ∨
      ∃ i : Nat, d = .pointer (some ⟨.element, store, i⟩) ∧ pos = i := by
  cases d with
  | array s i =>
    cases s <;> cases hd
    exact .inl rfl
  | pointer q =>
    obtain _ | ⟨_ | _ | _, s, i⟩ := q <;> cases hd
    exact .inr ⟨i, rfl, rfl⟩
  | _ => cases hd

/-- A pointer to one element is no array. -/
theorem Value.Addresses.data_cases {p : Value} {store : BlockId} {pos : Int}
    (hp : p.Addresses store pos) : p.data = .array (some store) pos ∨
      ∃ i : Nat, p.data = .pointer (some ⟨.element, store, i⟩) ∧ pos = i ∧ p.ty.isArray = false := by
  rcases Data.arrayPosition?_cases hp.position with hd | ⟨i, hd, hi⟩
  · exact .inl hd
  · refine .inr ⟨i, hd, hi, ?_⟩
    by_contra harray
    have hwhole := hp.whole (by simpa using harray)
    rw [hd] at hwhole
    cases hwhole

namespace OperatorM

section Moving

variable (ctx : OperatorContext) (h : Heap) {l n p : Value} {store : BlockId} {pos b : Int}

/-- The fault of an offset or a position that 64 bits do not hold. -/
def overflowed (ctx : OperatorContext) (h : Heap) : EStateM.Result Fault Heap Value :=
  .error ⟨.operator .pointerOverflow, ctx.node⟩ h

theorem position_bind (v : Int) (f : Int → OperatorM Value) : (position v >>= f) ctx h =
    if Position.holds v then f v ctx h else overflowed ctx h := by
  unfold position
  split <;> rfl

theorem movedType_movedType (t : Ty) : movedType (movedType t) = movedType t := by
  cases t with
  | array element _ => cases element <;> rfl
  | _ => rfl

theorem movedType_of_isArray {t : Ty} (ht : t.isArray = false) : movedType t = t := by
  cases t with
  | array _ _ => cases ht
  | _ => rfl

/-- The pointer is moved by an offset that is a position. -/
def movedBy (l : Value) (delta : Int) : OperatorM Value := do
  match l.data with
  | .array store i => return .fresh (movedType l.ty) (.array store (← position (i + delta)))
  | .pointer (some ⟨.element, store, i⟩) =>
    let start ← position i
    return .fresh l.ty (.array (some store) (← position (start + delta)))
  | .pointer _ => if delta = 0 then return l.rvalue else fail (.notArrayPointer l.ty)
  | _ => fail (.notArrayPointer l.ty)

/-- The offset is a position itself, whichever way the pointer is moved. -/
theorem offset_of_counts (hn : n.Counts b) (sign : Int) :
    offset l n sign = position (sign * b) >>= movedBy l := by
  simp only [offset, Value.number?, hn.data, Data.number?, hn.isIntegral, if_true]
  rfl

theorem offset_array {s : Option BlockId} {i : Int} (hd : l.data = .array s i) (hn : n.Counts b)
    (sign : Int) : offset l n sign ctx h =
      if Position.holds (sign * b) ∧ Position.holds (i + sign * b) then
        .ok (.fresh (movedType l.ty) (.array s (i + sign * b))) h
      else overflowed ctx h := by
  rw [offset_of_counts hn, position_bind]
  simp only [movedBy, hd, position_bind, ite_and]
  rfl

theorem offset_element {i : Nat} (hd : l.data = .pointer (some ⟨.element, store, i⟩))
    (hi : Position.holds i = true) (hn : n.Counts b) (sign : Int) :
    offset l n sign ctx h =
      if Position.holds (sign * b) ∧ Position.holds (i + sign * b) then
        .ok (.fresh l.ty (.array (some store) (i + sign * b))) h
      else overflowed ctx h := by
  rw [offset_of_counts hn, position_bind]
  simp only [movedBy, hd, position_bind, ite_and, hi, if_true]
  rfl

/-- What is no position in an array stays where it is. -/
theorem offset_refused (ha : ∀ s i, l.data ≠ .array s i)
    (he : ∀ store i, l.data ≠ .pointer (some ⟨.element, store, i⟩)) (hn : n.Counts b) {sign : Int}
    (hb : sign * b ≠ 0) : ∃ fault, offset l n sign ctx h = .error fault h := by
  rw [offset_of_counts hn, position_bind]
  split
  · unfold movedBy
    cases hd : l.data with
    | array s i => exact absurd hd (ha s i)
    | pointer q =>
      obtain _ | ⟨_ | _ | _, store, i⟩ := q
      case some.element => exact absurd hd (he store i)
      all_goals
        simp only [hb, if_false]
        exact ⟨_, rfl⟩
    | _ => exact ⟨_, rfl⟩
  · exact ⟨_, rfl⟩

/-- The pointer that arithmetic makes of one into the array. -/
def moved (p : Value) (store : BlockId) (pos : Int) : Value :=
  .fresh (movedType p.ty) (.array (some store) pos)

theorem addresses_moved (hp : p.ty.isPointer = true) (hpos : Position.holds pos = true) :
    (moved p store pos).Addresses store pos :=
  ⟨isPointer_movedType hp, rfl, hpos, fun _ => rfl⟩

theorem moved_moved (i : Int) : moved (moved p store pos) store i = moved p store i := by
  simp only [moved, Value.fresh, movedType_movedType]

/-- Moving a pointer adds to its position, and both the offset and the sum need 64 bits. -/
theorem offset_apply (hp : p.Addresses store pos) (hn : n.Counts b) (sign : Int) :
    offset p n sign ctx h =
      if Position.holds (sign * b) ∧ Position.holds (pos + sign * b) then
        .ok (moved p store (pos + sign * b)) h
      else overflowed ctx h := by
  rcases hp.data_cases with hd | ⟨i, hd, rfl, harray⟩
  · exact offset_array ctx h hd hn sign
  · rw [offset_element ctx h hd hp.holds hn sign, moved, movedType_of_isArray harray]

end Moving

section Comparing

variable {p q : Value} {s t : BlockId} {i j : Int}

/-- Pointers of these types can be equal. -/
def comparable (t u : Ty) : Bool := t.sameShape u || pointsToVoid t || pointsToVoid u

theorem comparable_self (t : Ty) : comparable t t = true := by simp [comparable, Ty.sameShape_refl]

theorem place_beq_element (i j : Nat) : ((⟨.element, s, i⟩ : Place) == ⟨.element, t, j⟩) =
    ((s, (i : Int)) == (t, (j : Int))) := by
  rw [Bool.eq_iff_iff, beq_iff_eq, beq_iff_eq]
  simp

/-- Pointers into arrays are equal if their types can be compared and they address one position. -/
theorem equal_apply (ctx : OperatorContext) (h : Heap) (hp : p.data.arrayPosition? = some (s, i))
    (hq : q.data.arrayPosition? = some (t, j)) :
    equal p q ctx h = .ok (comparable p.ty q.ty && (s, i) == (t, j)) h := by
  have htypes : (p.ty.sameShape q.ty || pointsToVoid p.ty || pointsToVoid q.ty) =
      comparable p.ty q.ty := rfl
  have hrest : equal p q =
      if comparable p.ty q.ty then return (s, i) == (t, j) else return false := by
    rcases Data.arrayPosition?_cases hp with hpd | ⟨m, hpd, rfl⟩ <;>
      rcases Data.arrayPosition?_cases hq with hqd | ⟨n, hqd, rfl⟩ <;>
      cases hc : comparable p.ty q.ty <;>
      simp [equal, hpd, hqd, Data.isPointer, Data.isNull, htypes, hc, Data.arrayPosition?,
        place_beq_element, -Bool.not_or, -Bool.or_eq_true]
  rw [hrest]
  cases comparable p.ty q.ty <;> rfl

end Comparing

end OperatorM

namespace Operator

open OperatorM

/-- The operator answers with the value and leaves the heap as it is. -/
def Yields (ctx : OperatorContext) (h : Heap) (op : Operator) (l : Value) (r : Option Value)
    (v : Value) : Prop :=
  op.apply l r ctx h = .ok v h

variable {n p : Value} {r : Option Value} {b : Int}

section Applying

theorem ofType?_of_isPointer {t : Ty} (ht : t.isPointer = true) (op : Operator) :
    ofType? t op = op.ofPointer? := by
  cases t <;> first | rfl | cases ht

theorem apply_binary_pointer (hp : p.ty.isPointer = true) {op : BinaryOp}
    (hop : op = .add ∨ op = .sub ∨ op.isComparison = true) :
    (binary op).apply p r = pointerBinary op p r := by
  have hof : (binary op).ofPointer? = some (pointerBinary op) := by
    rcases hop with rfl | rfl | hop
    · rfl
    · rfl
    · simp [ofPointer?, hop]
  simp only [apply, ofType?_of_isPointer hp, hof]

theorem apply_add_pointer (hp : p.ty.isPointer = true) :
    (binary .add).apply p (some n) = offset p n 1 :=
  apply_binary_pointer hp (.inl rfl)

/-- An integer may stand before the pointer. -/
theorem apply_add_count (hp : p.ty.isPointer = true) (hn : n.Counts b) :
    (binary .add).apply n (some p) = offset p n 1 := by
  obtain ⟨k, -, hk⟩ := hn.isInt
  have hof : ofType? n.ty (binary .add) = some (arithBinary .add) := by rw [hk.ty]; rfl
  simp [apply, hof, arithBinary, hp, hn.isIntegral]

theorem apply_sub_count (hp : p.ty.isPointer = true) (hn : n.Counts b) :
    (binary .sub).apply p (some n) = offset p n (-1) := by
  obtain ⟨k, -, hk⟩ := hn.isInt
  rw [apply_binary_pointer hp (.inr (.inl rfl))]
  simp [pointerBinary, operand, hk.ty, Ty.isArith, Ty.arith?]

end Applying

end Operator

end Stepwise
