import Stepwise.Proofs.Constants.Writes
import Stepwise.Proofs.Operator.Layout
import Stepwise.Proofs.Operator.Results

/-! # Payloads of results

Operators make new payloads of numbers, and derive others from those of their operands: pointers
move inside an array, and functions decay to pointers. Whatever is kept by that, results have if the
operands do. Binary operators have numbers and pointers as results, never structs, whatever their
operands are. A conversion has no struct as its result either, unless it is one to the type that the
struct has.
-/

namespace Stepwise

/-- The payload is not that of a struct. -/
def Data.Simple (d : Data) : Prop := ∀ b, d ≠ .struct b

/-- Only values of struct types have payloads of structs. -/
def Value.Regular (v : Value) : Prop := v.data.Simple ∨ ∃ name ms, v.ty = .struct name ms

/-- The property is kept by what operators derive payloads from. -/
structure Data.Derivable (P : Data → Prop) : Prop where
  number : ∀ {d : Data}, d.number?.isSome = true → P d
  null : ∀ ty, P (.null ty)
  void : P .void
  moved : ∀ {store i} j, P (.array store i) → P (.array store j)
  element : ∀ {store index} j, P (.pointer (some ⟨.element, store, index⟩)) →
    P (.array (some store) j)
  function : ∀ {f}, P (.function f) → P (.functionPointer (some f))

/-- No cell holds the value, and its payload is as `P` says. -/
structure Value.Derived (P : Data → Prop) (v : Value) : Prop where
  detached : v.Detached
  payload : P v.data

namespace Data

theorem simple_number {x : Data} (hx : x.number?.isSome = true) : x.Simple := by
  rintro b rfl
  cases hx

theorem simple_pointer {x : Data} (hx : x.isPointer = true) : x.Simple := by
  rintro b rfl
  cases hx

theorem derivable_simple : Derivable Simple where
  number := simple_number
  null ty := simple_pointer (by cases ty <;> rfl)
  void := nofun
  moved _ _ := simple_pointer rfl
  element _ _ := simple_pointer rfl
  function _ := simple_pointer rfl

end Data

namespace Numerics

variable {n : Numerics} {k : ArithKind} {x y : Number} {v : Value} {d : Data}

/-- A number has the payload of a number. -/
theorem number_of_fit (hd : n.fit k x = .ok d) : d.number?.isSome = true := by
  have hint {w : Int} (hw : (do return .int (← n.fitInt k w)) = Except.ok d) :
      d.number?.isSome = true := by
    obtain ⟨w, -, hd⟩ := exists_of_bind_eq_ok hw
    cases hd
    rfl
  unfold fit at hd
  split at hd
  · cases hd
    rfl
  · split at hd
    · exact hint hd
    · split at hd
      · exact hint hd
      · cases hd
    · dsimp only at hd
      split at hd
      · cases hd
      · cases hd
        rfl

theorem number_of_step {increment : Bool} {overflow : Unit → OperatorFault}
    (hd : n.step k x increment overflow = .ok d) : d.number?.isSome = true := by
  cases x with
  | float f => exact number_of_fit hd
  | int v =>
    simp only [step] at hd
    generalize (if increment = true then v + 1 else v - 1) = next at hd
    split at hd
    · cases hd
    · obtain ⟨w, -, hd⟩ := exists_of_bind_eq_ok hd
      cases hd
      rfl

section Derived

variable {P : Data → Prop} (hP : Data.Derivable P)

include hP

theorem derived_of_value (hv : n.value k x = .ok v) : v.Derived P := by
  obtain ⟨d, hd, hv⟩ := exists_of_bind_eq_ok hv
  cases hv
  exact ⟨rfl, hP.number (number_of_fit hd)⟩

theorem derived_of_shift {op : BinaryOp} {a b : Int} (hv : n.shift op k a b = .ok v) :
    v.Derived P := by
  unfold shift at hv
  dsimp only at hv
  split at hv
  · cases hv
  · split at hv
    · exact derived_of_value hP hv
    · split at hv
      · exact derived_of_value hP hv
      · split at hv
        · exact derived_of_value hP hv
        · cases hv

theorem derived_of_binary {op : BinaryOp} {cause : OperatorFault} {j : ArithKind}
    (hv : n.binary op cause j x k y = .ok v) : v.Derived P := by
  unfold binary at hv
  dsimp only at hv
  split at hv
  · cases hv
    exact ⟨rfl, hP.number rfl⟩
  · split at hv
    · split at hv
      · exact derived_of_value hP hv
      · cases hv
    · split at hv
      · split at hv
        · exact derived_of_shift hP hv
        · split at hv
          · obtain ⟨w, -, hv⟩ := exists_of_bind_eq_ok hv
            exact derived_of_value hP hv
          · cases hv
      · cases hv

theorem derived_of_negate (hv : n.negate k x = .ok v) : v.Derived P := by
  cases x with
  | float f => exact derived_of_value hP hv
  | int i => exact derived_of_value hP hv

end Derived

end Numerics

namespace OperatorM

namespace Gives

variable {h : Heap} {α : Type} {post : α → Prop} (v l : Value) {target : Ty}

theorem of_leaves {x : OperatorM α} (hx : x.Leaves) : Gives h x fun _ => True := by
  intro ctx a h' ha
  have hx := hx ctx h
  rw [ha] at hx
  exact ⟨hx, trivial⟩

theorem ofExcept {x : Except OperatorFault α} (hx : ∀ a, x = .ok a → post a) :
    Gives h (ofExcept x) post := by
  cases x with
  | ok a => exact pure (hx a rfl)
  | error cause => exact fail cause

variable {P : Data → Prop} (hP : Data.Derivable P)

include hP

theorem derived_number (k : ArithKind) (x : Number) :
    Gives h (OperatorM.number k x) (Value.Derived P) :=
  read_bind fun _ => ofExcept fun _ => Numerics.derived_of_value hP

theorem derived_bool (b : Bool) : Gives h (Pure.pure (Value.bool b)) (Value.Derived P) :=
  pure ⟨rfl, hP.number rfl⟩

theorem derived_null : Gives h (Pure.pure (Value.null target)) (Value.Derived P) :=
  pure ⟨rfl, hP.null target⟩

theorem derived_convertArith (k : ArithKind) (explicit : Bool) :
    Gives h (OperatorM.convertArith v k explicit) (Value.Derived P) := by
  unfold OperatorM.convertArith
  split
  · exact derived_number hP k _
  · exact ite (derived_bool hP _) (ite (derived_number hP k _) (cannotConvert v _))

section Operand

variable (hv : v.data.Simple → P v.data)

include hv

theorem derived_convertPointer (explicit : Bool) :
    Gives h (OperatorM.convertPointer v target explicit) (Value.Derived P) := by
  have hchecked (hd : v.data.isPointer = true) (compatible : Bool) :
      Gives h (if explicit || compatible then return .fresh target v.data else
        OperatorM.cannotConvert v target) (Value.Derived P) :=
    ite (pure ⟨rfl, hv (Data.simple_pointer hd)⟩) (cannotConvert v target)
  unfold OperatorM.convertPointer
  split
  · exact cannotConvert v target
  · have hd : v.data.isPointer = true := by rw [‹v.data = _›]; rfl
    exact ite (hchecked hd true) (bind (converts _ _) fun compatible _ => hchecked hd compatible)
  · have hd : v.data.isPointer = true := by rw [‹v.data = _›]; rfl
    exact ite (hchecked hd true) (bind (converts _ _) fun compatible _ => hchecked hd compatible)
  · exact ite (derived_null hP) (cannotConvert v target)
  · exact cannotConvert v target

theorem derived_convertFunctionPointer :
    Gives h (OperatorM.convertFunctionPointer v target) (Value.Derived P) := by
  have hnull {p : Prop} [Decidable p] : Gives h (if p then return .null target else
      OperatorM.cannotConvert v target) (Value.Derived P) :=
    ite (derived_null hP) (cannotConvert v target)
  unfold OperatorM.convertFunctionPointer
  split
  · have hd := hv (by rw [‹v.data = _›]; exact nofun)
    rw [‹v.data = _›] at hd
    exact pure ⟨rfl, hP.function hd⟩
  · have hd := hv (by rw [‹v.data = _›]; exact nofun)
    rw [‹v.data = _›] at hd
    exact pure ⟨rfl, hd⟩
  · exact hnull
  · exact hnull
  · exact hnull
  · exact cannotConvert v target

theorem derived_convert (hs : (v.ty == target) = true → P v.data) (explicit : Bool) :
    Gives h (OperatorM.convert v target explicit) (Value.Derived P) := by
  unfold OperatorM.convert
  split
  · exact pure ⟨rfl, hs ‹_›⟩
  · split
    · exact pure ⟨rfl, hP.void⟩
    · exact derived_convertArith v hP _ explicit
    · exact derived_convertPointer v hP hv explicit
    · exact derived_convertPointer v hP hv explicit
    · exact derived_convertFunctionPointer v hP hv
    · split
      · exact pure ⟨rfl, hv (by rw [‹v.data = _›]; exact nofun)⟩
      · exact cannotConvert v _
    · exact cannotConvert v _
    · exact cannotConvert v _

end Operand

theorem derived_offset (hl : l.data.Simple → P l.data) (n : Value) (sign : Int) :
    Gives h (offset l n sign) (Value.Derived P) := by
  have hposition (i : Int) := of_leaves (h := h) (reading_leaves.position i)
  unfold offset
  extract_lets rest
  have hrest (delta : Int) : Gives h (rest delta) (Value.Derived P) := by
    dsimp only [rest]
    split
    · have hd := hl (by rw [‹l.data = _›]; exact nofun)
      rw [‹l.data = _›] at hd
      exact bind (hposition _) fun _ _ => pure ⟨rfl, hP.moved _ hd⟩
    · have hd := hl (by rw [‹l.data = _›]; exact nofun)
      rw [‹l.data = _›] at hd
      refine bind (hposition _) fun _ _ => bind (hposition _) fun _ _ => ?_
      exact pure ⟨rfl, hP.element _ hd⟩
    · exact ite (pure ⟨rfl, hl (by rw [‹l.data = _›]; exact nofun)⟩) (fail _)
    · exact fail _
  split
  · exact ite (bind (hposition _) fun delta _ => hrest delta) (stop _)
  · exact stop _

theorem derived_pointerBinary (hl : l.data.Simple → P l.data) (r : Option Value) (op : BinaryOp) :
    Gives h (pointerBinary op l r) (Value.Derived P) := by
  have hT := reading_leaves
  have hcompare (n : Value) : Gives h (commonPositions l n .compareAcrossArrays >>= fun p =>
      return Value.bool (Number.test op (some (compare p.1 p.2)))) (Value.Derived P) :=
    bind (of_leaves (hT.commonPositions l n _)) fun _ _ => derived_bool hP _
  refine bind (operand (.binary op) l r) fun n _ => ?_
  cases op with
  | add => exact derived_offset l hP hl n 1
  | sub =>
    refine ite (derived_offset l hP hl n (-1)) ?_
    exact bind (of_leaves (hT.commonPositions l n _)) fun _ _ => derived_number hP _ _
  | eq => exact bind (of_leaves (hT.equal l n)) fun _ _ => derived_bool hP _
  | ne => exact bind (of_leaves (hT.equal l n)) fun _ _ => derived_bool hP _
  | lt | le | gt | ge => exact hcompare n
  | _ => exact fail _

theorem derived_arithBinary {r : Option Value} (hr : ∀ v, r = some v → v.data.Simple → P v.data)
    (op : BinaryOp) : Gives h (arithBinary op l r) (Value.Derived P) := by
  cases r with
  | none => exact fail _
  | some v =>
    have hv := hr v rfl
    refine ite (derived_offset v hP hv l 1) (ite (derived_pointerBinary v hP hv (some l) op) ?_)
    split
    · exact read_bind fun _ => ofExcept fun _ => Numerics.derived_of_binary hP
    · exact fail _

end Gives

end OperatorM

/-- A binary operator derives its result from its operands. -/
theorem Operator.derived_applyOwn {P : Data → Prop} (hP : Data.Derivable P) (op : BinaryOp)
    {l : Value} {r : Option Value} (hl : l.data.Simple → P l.data)
    (hr : ∀ v, r = some v → v.data.Simple → P v.data) {h : Heap} :
    OperatorM.Gives h (applyOwn (.binary op) l r) (Value.Derived P) := by
  unfold applyOwn
  split
  · rename_i f hf
    have hpointer (hf : ofPointer? (.binary op) = some f) :
        OperatorM.Gives h (f l r) (Value.Derived P) := by
      obtain ⟨-, hf⟩ := Option.ite_none_right_eq_some.mp hf
      cases hf
      exact .derived_pointerBinary l hP hl r op
    cases hty : l.ty <;> rw [hty] at hf
    case arith => cases hf; exact .derived_arithBinary l hP hr op
    case pointer | array | functionPointer => exact hpointer hf
    all_goals cases hf
  · exact .fail _

/-- A binary operator has no struct as its result. -/
theorem Operator.simple_applyOwn (op : BinaryOp) (l : Value) (r : Option Value) {h : Heap} :
    OperatorM.Gives h (applyOwn (.binary op) l r) (Value.Derived Data.Simple) :=
  derived_applyOwn Data.derivable_simple op id fun _ _ => id

/-- What is converted to a type that is not that of a struct has no payload of a struct. -/
theorem OperatorM.Gives.simple_convert {v : Value} {target : Ty} (hv : v.Regular)
    (ht : ∀ name ms, target ≠ .struct name ms) (explicit : Bool) {h : Heap} :
    Gives h (OperatorM.convert v target explicit) (Value.Derived Data.Simple) := by
  refine derived_convert v Data.derivable_simple id (fun hsame => hv.resolve_right ?_) explicit
  rintro ⟨name, ms, hty⟩
  have hnamed := Ty.beq_iff_named.mp hsame
  rw [hty] at hnamed
  obtain ⟨ms', rfl⟩ := named_eq_struct hnamed.symm
  exact ht name ms' rfl

end Stepwise
