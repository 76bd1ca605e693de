import Stepwise.Operator.Convert
import Stepwise.Proofs.Binding.Shapes
import Stepwise.Proofs.Operator.Layout

/-! # Conversions of shapes and of types

Whether an argument is accepted is decided on shapes, and what becomes of it on types. A shape
gives its type back up to the places of arrays and constants, and data pointers whose shapes
convert have targets that convert as well.
-/

namespace Stepwise

namespace Shape

mutual

theorem beq_iff : ∀ a b : Shape, beq a b = true ↔ a = b
  | .name .., b | .struct .., b | .template .., b | .result, b => by cases b <;> simp [beq]
  | .pointer a, b => by cases b <;> simp [beq, beq_iff a]
  | .reference a, b => by cases b <;> simp [beq, beq_iff a]
  | .function ret params _, b => by
    cases b <;> simp [beq, beq_iff ret, beqParams_iff params, and_assoc]

theorem beqParams_iff : ∀ ps qs : List (Shape × Bool), beqParams ps qs = true ↔ ps = qs
  | [], qs => by cases qs <;> simp [beqParams]
  | p :: ps, qs => by cases qs <;> simp [beqParams, beqParam_iff p, beqParams_iff ps]

theorem beqParam_iff : ∀ p q : Shape × Bool, beqParam p q = true ↔ p = q
  | (a, _), (_, _) => by simp [beqParam, beq_iff a]

end

instance : LawfulBEq Shape where
  eq_of_beq h := (beq_iff _ _).mp h
  rfl := (beq_iff _ _).mpr rfl

instance : DecidableEq Shape := fun a b => decidable_of_iff _ (beq_iff a b)

/-- The shape without the mark of a constant under its pointer marks. -/
def plain : Shape → Shape
  | name a _ => name a false
  | struct a _ => struct a false
  | template slot _ => template slot false
  | pointer s => pointer (plain s)
  | s => s

/-- A function under pointer marks. -/
def isCallable : Shape → Bool
  | pointer s => s.isCallable
  | function .. => true
  | _ => false

theorem plain_unqualified (s : Shape) : s.unqualified.plain = s.plain := by cases s <;> rfl

theorem eq_of_unqualified {s t : Shape} (h : s.unqualified = t.unqualified) :
    match t with
    | .name a _ => ∃ r, s = .name a r
    | .struct a _ => ∃ r, s = .struct a r
    | .template slot _ => ∃ r, s = .template slot r
    | t => s = t := by
  cases t <;> cases s <;> simp [unqualified] at h ⊢ <;> exact h

theorem isVoid_plain (s : Shape) : s.plain.isVoid = s.isVoid := by cases s <;> rfl

theorem isCallable_plain : ∀ s : Shape, s.plain.isCallable = s.isCallable
  | pointer s => isCallable_plain s
  | name .. | struct .. | template .. | result | reference _ | function .. => rfl

end Shape

namespace Ty

open Shape

variable {t u : Ty} {c d : Bool} {s s' : Shape}

theorem functionShape?_eq_some {f : FunctionOf Ty} (h : functionShape? f = some s) :
    ∃ ret params, s = .function ret params f.variadic := by
  obtain ⟨ret, params, variadic⟩ := f
  simp only [functionShape?, Option.bind_eq_bind, Option.bind_eq_some_iff] at h
  obtain ⟨r, -, ps, -, h⟩ := h
  cases h
  exact ⟨r, ps, rfl⟩

theorem shape?_pointer {target : Ty} {isConst : Bool} (h : (pointer target isConst).shape? c = some s) :
    ∃ s', s = .pointer s' ∧ target.shape? (c || isConst) = some s' := by
  rw [shape?] at h
  split at h
  · cases h
  · obtain ⟨s', hs, rfl⟩ := Option.map_eq_some_iff.mp h
    exact ⟨s', rfl, hs⟩

/-- The types that a shape is spelled by. -/
theorem of_shape? (h : t.shape? c = some s) :
    match s with
    | .name a r => r = c ∧ (t = .void ∧ a = "void" ∨ t = .marker ∧ a = "dummy" ∨
        ∃ k, t = .arith k ∧ a = k.name)
    | .struct a r => r = c ∧ ∃ members, t = .struct a members
    | .pointer s => (∃ target isConst, t = .pointer target isConst ∧
        target.shape? (c || isConst) = some s) ∨
      (∃ element n, t = .array element n ∧ element.shape? c = some s) ∨
      ∃ f, t = .functionPointer f ∧ functionShape? f = some s
    | .function .. => ∃ f, t = .function f ∧ functionShape? f = some s
    | _ => False := by
  cases t with
  | void | marker | arith _ =>
    cases h
    simp
  | struct name members =>
    cases h
    exact ⟨rfl, members, rfl⟩
  | pointer target isConst =>
    obtain ⟨s, rfl, hs⟩ := shape?_pointer h
    exact .inl ⟨target, isConst, rfl, hs⟩
  | array element n =>
    obtain ⟨s, hs, rfl⟩ := Option.map_eq_some_iff.mp h
    exact .inr (.inl ⟨element, n, rfl, hs⟩)
  | functionPointer f =>
    obtain ⟨s, hs, rfl⟩ := Option.map_eq_some_iff.mp h
    exact .inr (.inr ⟨f, rfl, hs⟩)
  | function f =>
    obtain ⟨ret, params, rfl⟩ := functionShape?_eq_some h
    exact ⟨f, rfl, h⟩

/-- Without the mark in front of a type, its shape has another mark at most. -/
theorem shape?_false (c : Bool) : ∀ (t : Ty) {s : Shape}, t.shape? c = some s →
    ∃ s', t.shape? false = some s' ∧ s'.plain = s.plain ∧ (s.isCallable = true → s' = s)
  | .void, _, h | .marker, _, h | .arith _, _, h | .struct .., _, h => by
    cases h
    exact ⟨_, rfl, rfl, nofun⟩
  | .functionPointer _, s, h | .function _, s, h => ⟨s, h, rfl, fun _ => rfl⟩
  | .array element n, _, h => by
    obtain ⟨s, hs, rfl⟩ := Option.map_eq_some_iff.mp h
    obtain ⟨s', hs', hplain, hcall⟩ := shape?_false c element hs
    refine ⟨.pointer s', ?_, congrArg Shape.pointer hplain, fun hc => congrArg Shape.pointer (hcall hc)⟩
    rw [shape?, hs', Option.map_some]
  | .pointer target isConst, s, h => by
    cases c with
    | false => exact ⟨s, h, rfl, fun _ => rfl⟩
    | true =>
      cases isConst with
      | true => cases h
      | false =>
        obtain ⟨s, hs, rfl⟩ := Option.map_eq_some_iff.mp h
        obtain ⟨s', hs', hplain, hcall⟩ := shape?_false true target hs
        refine ⟨.pointer s', ?_, congrArg Shape.pointer hplain, fun hc => congrArg Shape.pointer (hcall hc)⟩
        rw [shape?, Bool.and_false, if_neg Bool.false_ne_true, Bool.or_false, hs', Option.map_some]

theorem beq_self (t : Ty) : (t == t) = true := beq_iff_named.mpr rfl

theorem beq_of_shape? {t u : Ty} {a : String} {r r' : Bool} (ht : t.shape? c = some (.name a r))
    (hu : u.shape? d = some (.name a r')) : (t == u) = true := by
  have hne (k : ArithKind) : k.name ≠ "void" ∧ k.name ≠ "dummy" := by cases k <;> decide
  obtain ⟨-, ⟨rfl, rfl⟩ | ⟨rfl, rfl⟩ | ⟨k, rfl, rfl⟩⟩ := of_shape? ht
  · obtain ⟨-, ⟨rfl, -⟩ | ⟨rfl, h⟩ | ⟨j, rfl, h⟩⟩ := of_shape? hu
    · exact beq_self _
    · exact absurd h (by decide)
    · exact absurd h.symm (hne j).1
  · obtain ⟨-, ⟨rfl, h⟩ | ⟨rfl, -⟩ | ⟨j, rfl, h⟩⟩ := of_shape? hu
    · exact absurd h (by decide)
    · exact beq_self _
    · exact absurd h.symm (hne j).2
  · obtain ⟨-, ⟨rfl, h⟩ | ⟨rfl, h⟩ | ⟨j, rfl, h⟩⟩ := of_shape? hu
    · exact absurd h (hne k).1
    · exact absurd h (hne k).2
    · have hkj := congrArg ArithKind.ofName? h
      rw [ArithKind.ofName?_name, ArithKind.ofName?_name, Option.some.injEq] at hkj
      rw [hkj]
      exact beq_self _

theorem plain_eq_pointer {s s' : Shape} (h : s.plain = .pointer s') :
    ∃ s₁, s = .pointer s₁ ∧ s₁.plain = s' := by
  cases s <;> simp [plain] at h
  exact ⟨_, rfl, h⟩

theorem plain_eq_name {s : Shape} {a : String} (h : s.plain = .name a false) :
    ∃ r, s = .name a r := by
  cases s <;> simp [plain] at h
  exact ⟨_, congrArg (Shape.name · _) h⟩

theorem plain_eq_struct {s : Shape} {a : String} (h : s.plain = .struct a false) :
    ∃ r, s = .struct a r := by
  cases s <;> simp [plain] at h
  exact ⟨_, congrArg (Shape.struct · _) h⟩

theorem isCallable_of_plain {f : FunctionOf Ty} (hf : functionShape? f = some s')
    (h : s'.plain = s.plain) : s.isCallable = true := by
  obtain ⟨ret, params, rfl⟩ := functionShape?_eq_some hf
  rw [← isCallable_plain, ← h]
  rfl

/-- Shapes that differ in marks of constants at most have types of the same shape, unless they are
of functions. -/
theorem sameShape_of_plain : ∀ (t u : Ty) {c d : Bool} {s s' : Shape}, t.shape? c = some s →
    u.shape? d = some s' → s'.plain = s.plain → s.isCallable = false → t.sameShape u = true
  | .void, u, c, d, _, _, ht, hu, h, _ | .marker, u, c, d, _, _, ht, hu, h, _
  | .arith _, u, c, d, _, _, ht, hu, h, _ => by
    have hname := ht
    cases ht
    obtain ⟨r, rfl⟩ := plain_eq_name h
    have hbeq := beq_of_shape? hname hu
    cases u <;> exact hbeq
  | .struct _ members, u, _, _, _, _, ht, hu, h, _ => by
    cases ht
    obtain ⟨r, rfl⟩ := plain_eq_struct h
    obtain ⟨-, members', rfl⟩ := of_shape? hu
    exact beq_iff_named.mpr rfl
  | .functionPointer f, _, _, _, _, _, ht, _, _, hcall => by
    obtain ⟨s, hs, rfl⟩ := Option.map_eq_some_iff.mp ht
    obtain ⟨ret, params, rfl⟩ := functionShape?_eq_some hs
    cases hcall
  | .function f, _, _, _, _, _, ht, _, _, hcall => by
    obtain ⟨ret, params, rfl⟩ := functionShape?_eq_some ht
    cases hcall
  | .pointer target isConst, u, c, d, _, _, ht, hu, h, hcall => by
    obtain ⟨s, rfl, hs⟩ := shape?_pointer ht
    obtain ⟨s', rfl, hp⟩ := plain_eq_pointer h
    obtain ⟨target', isConst', rfl, hs'⟩ | ⟨element, n, rfl, hs'⟩ | ⟨f, rfl, hf⟩ := of_shape? hu
    · exact sameShape_of_plain target target' hs hs' hp hcall
    · exact sameShape_of_plain target element hs hs' hp hcall
    · exact absurd (isCallable_of_plain hf hp) (Bool.eq_false_iff.mp hcall)
  | .array element n, u, c, d, _, _, ht, hu, h, hcall => by
    obtain ⟨s, hs, rfl⟩ := Option.map_eq_some_iff.mp ht
    obtain ⟨s', rfl, hp⟩ := plain_eq_pointer h
    obtain ⟨target', isConst', rfl, hs'⟩ | ⟨element', n', rfl, hs'⟩ | ⟨f, rfl, hf⟩ := of_shape? hu
    · exact sameShape_of_plain element target' hs hs' hp hcall
    · exact sameShape_of_plain element element' hs hs' hp hcall
    · exact absurd (isCallable_of_plain hf hp) (Bool.eq_false_iff.mp hcall)

end Ty

namespace Matcher

open Shape

variable (m : Matcher) {t u : Ty} {c d : Bool} {s : Shape}

/-- The shapes of types have no template slots. -/
theorem convertValue_of_shape? (h : t.shape? c = some s) (bindings : List Shape) (a : Shape) :
    m.convertValue bindings a s = m.convertShape a s := by
  have hs : substitute bindings s = some (some s) := by
    cases s with
    | template => exact (Ty.of_shape? h).elim
    | _ => rfl
  rw [convertValue, hs]

theorem converts_ofType {a b : Shape} (ht : t.shape? false = some a) (hu : u.shape? false = some b) :
    m.converts (.ofType t) (.ofType u) = (m.convertShape a b).isSome := by
  rw [converts, ofType?_ofType, ofType?_ofType, ht, hu]
  exact congrArg Option.isSome (m.convertValue_of_shape? hu [] a)

/-- How pointers convert. -/
theorem convertShape_pointer (a p : Shape) :
    m.convertShape (.pointer a) (.pointer p) =
      if a = p then some .copy
      else if a.isVoid || p.isVoid then some .cast
      else if a.unqualified = p.unqualified ∧ p.isReadonly = true then some .cast
      else none := by
  have hself (s : Shape) : (Shape.pointer s).unqualified = .pointer s := rfl
  unfold convertShape
  simp only [hself, arith?, beq_iff_eq, Shape.pointer.injEq, Bool.and_eq_true]

/-- Data pointers whose shapes convert have targets of one shape, or their types convert. -/
theorem compatible_of_convertShape {a p : Shape} (ht : t.shape? c = some (.pointer a))
    (hu : u.shape? d = some (.pointer p))
    (h : (m.convertShape (.pointer a) (.pointer p)).isSome = true) :
    t.sameShape u = true ∨ m.converts (.ofType t) (.ofType u) = true := by
  obtain ⟨s, hs, hplain, hcall⟩ := Ty.shape?_false c t ht
  obtain ⟨s', hs', hplain', hcall'⟩ := Ty.shape?_false d u hu
  obtain ⟨a', rfl, ha⟩ := Ty.plain_eq_pointer hplain
  obtain ⟨p', rfl, hp⟩ := Ty.plain_eq_pointer hplain'
  rw [converts_ofType m hs hs']
  rw [convertShape_pointer] at h
  by_cases hap : a = p
  · subst hap
    cases hc : a.isCallable with
    | true =>
      -- functions have no marks, and nothing was taken away in front of them
      rw [hcall hc, hcall' hc, convertShape_pointer, if_pos rfl]
      exact .inr rfl
    | false => exact .inl (Ty.sameShape_of_plain t u ht hu rfl hc)
  · rw [if_neg hap] at h
    by_cases hvoid : (a.isVoid || p.isVoid) = true
    · have hvoid' : (a'.isVoid || p'.isVoid) = true := by
        rwa [← isVoid_plain a', ← isVoid_plain p', ha, hp, isVoid_plain, isVoid_plain]
      rw [convertShape_pointer, if_pos hvoid']
      refine .inr ?_
      split <;> rfl
    · rw [if_neg hvoid] at h
      by_cases hq : a.unqualified = p.unqualified ∧ p.isReadonly = true
      · have hplain : p.plain = a.plain := by
          rw [← plain_unqualified p, ← hq.1, plain_unqualified]
        have hpc : p.isCallable = false := by
          obtain ⟨-, hr⟩ := hq
          cases p <;> first | rfl | cases hr
        have hac : a.isCallable = false := by
          rw [← isCallable_plain, ← hplain, isCallable_plain, hpc]
        exact .inl (Ty.sameShape_of_plain t u ht hu (congrArg Shape.pointer hplain) hac)
      · rw [if_neg hq] at h
        cases h

/-- What converts is equal up to its own constness, or goes between numbers, between pointers or from
a function to its pointer. -/
theorem cases_of_convertShape {a p : Shape} (h : (m.convertShape a p).isSome = true) :
    a.unqualified = p.unqualified ∨ (∃ j k, a.arith? = some j ∧ p.arith? = some k) ∨
      (∃ a' p', a = .pointer a' ∧ p = .pointer p') ∨
      ∃ ret params variadic, a = .function ret params variadic ∧ p = .pointer a := by
  unfold convertShape at h
  split at h
  · exact .inl (beq_iff_eq.mp ‹_›)
  · split at h
    · exact .inr (.inl ⟨_, _, ‹_›, ‹_›⟩)
    · split at h
      · exact .inr (.inr (.inl ⟨_, _, rfl, rfl⟩))
      · split at h
        · rename_i heq
          exact .inr (.inr (.inr ⟨_, _, _, rfl, (beq_iff_eq.mp heq).symm⟩))
        · cases h
      · cases h

/-- What becomes a pointer is a pointer or a function. -/
theorem of_convertShape_pointer {a p : Shape} (h : (m.convertShape a (.pointer p)).isSome = true) :
    (∃ a', a = .pointer a') ∨ ∃ ret params variadic, a = .function ret params variadic := by
  obtain h | ⟨-, k, -, h⟩ | ⟨a', -, rfl, -⟩ | ⟨ret, params, variadic, rfl, -⟩ :=
    m.cases_of_convertShape h
  · exact .inl ⟨p, eq_of_unqualified h⟩
  · cases h
  · exact .inl ⟨a', rfl⟩
  · exact .inr ⟨ret, params, variadic, rfl⟩

/-- What becomes neither a number nor a pointer is equal up to its own constness. -/
theorem unqualified_eq_of_convertShape {a p : Shape} (h : (m.convertShape a p).isSome = true)
    (hnumber : p.arith? = none) (hpointer : ∀ p', p ≠ .pointer p') :
    a.unqualified = p.unqualified := by
  obtain h | ⟨-, k, -, hk⟩ | ⟨-, p', -, hp⟩ | ⟨-, -, -, -, hp⟩ := m.cases_of_convertShape h
  · exact h
  · cases hnumber.symm.trans hk
  · exact absurd hp (hpointer p')
  · exact absurd hp (hpointer a)

end Matcher

end Stepwise
