import Stepwise.Proofs.Syntax.Grammar

/-! # Parsing a level at a time

Most levels are loops: they parse an expression of the next level and let it grow. Binary
operators share one routine, which climbs from a least tightness; parsing from one tightness
is parsing from the next one and then growing.
-/

namespace Stepwise

namespace BinaryOp

theorem eq_of_ofSymbol? {x : Symbol} {op : BinaryOp} {k : Nat} (h : ofSymbol? x = some (op, k)) :
    x = op.symbol ∧ k = op.tightness := by
  cases x <;> cases h <;> exact ⟨rfl, rfl⟩

theorem ofSymbol?_symbol (op : BinaryOp) :
    ofSymbol? op.symbol = some (op, op.tightness.val) := by
  cases op <;> rfl

theorem ofAssignment?_of_assignSymbol? {op : Option BinaryOp} {x : Symbol}
    (h : assignSymbol? op = some x) : ofAssignment? x = some op := by
  cases op with
  | none => cases h; rfl
  | some op => cases op <;> cases h <;> rfl

theorem joins?_of_ofAssignment? {x : Symbol} {op : Option BinaryOp}
    (h : ofAssignment? x = some op) : x.joins? = some .assignment := by
  cases x <;> cases h <;> rfl

end BinaryOp

theorem UnaryOp.joins?_of_ofTrailingSymbol? {x : Symbol} {op : UnaryOp}
    (h : ofTrailingSymbol? x = some op) : x.joins? = some .trailing := by
  cases x <;> cases h <;> rfl

namespace Tokens

variable {s : Tokens} {least : Nat} {types : List String} {ls : List Lexeme}

theorem binaryOperator?_of_succ {p : Parsed s (BinaryOp × Nat)}
    (h : s.binaryOperator? (least + 1) = some p) : s.binaryOperator? least = some p := by
  obtain ⟨rest, finish, previous, typeNames⟩ := s
  cases rest with
  | nil => cases h
  | cons tok toks =>
    simp only [binaryOperator?, take?, Option.map_eq_some_iff, Option.filter_eq_some_iff,
      decide_eq_true_eq] at h ⊢
    obtain ⟨a, ⟨ha, hle⟩, rfl⟩ := h
    exact ⟨a, ⟨ha, by omega⟩, rfl⟩

/-- No operator binds more tightly than the multiplicative ones. -/
theorem binaryOperator?_eight (s : Tokens) : s.binaryOperator? 8 = none := by
  obtain ⟨rest, finish, previous, typeNames⟩ := s
  cases rest with
  | nil => rfl
  | cons tok toks =>
    simp only [binaryOperator?, take?, Option.map_eq_none_iff, Option.filter_eq_none_iff,
      Option.bind_eq_some_iff, decide_eq_true_eq]
    rintro ⟨op, k⟩ ⟨x, -, hx⟩
    obtain ⟨-, rfl⟩ := BinaryOp.eq_of_ofSymbol? hx
    omega

theorem Holds.binaryOperator?_eq_some {op : BinaryOp} (h : s.Holds types (.symbol op.symbol :: ls))
    (hle : least ≤ op.tightness.val) :
    ∃ t ht, s.binaryOperator? least = some ⟨(op, op.tightness.val), t, ht⟩ ∧ t.Holds types ls :=
  h.take?_eq_some (by
    simp only [Lexeme.symbol?, Option.bind_some, BinaryOp.ofSymbol?_symbol, Option.filter_some, hle,
      decide_true, if_true])

theorem Holds.binaryOperator?_eq_none {n : Fin 8} (h : s.Holds types ls)
    (hs : (Level.binary n).Stops ls) : s.binaryOperator? n = none := by
  refine h.take?_eq_none fun l hl => ?_
  simp only [Option.filter_eq_none_iff, Option.bind_eq_some_iff, decide_eq_true_eq]
  rintro ⟨op, k⟩ ⟨x, hx, hop⟩ hle
  obtain ⟨rfl, rfl⟩ := BinaryOp.eq_of_ofSymbol? hop
  have hjoins : l.joins? = some (.binary op.tightness) := by
    rw [Lexeme.joins?, hx, Option.bind_some]
    exact (Chain.binary op).joins?_symbol
  have hlt := hs l hl _ hjoins
  simp only [Level.rank] at hlt
  omega

theorem Holds.take?_assignment_eq_none (h : s.Holds types ls) (hs : Level.assignment.Stops ls) :
    s.take? (fun l => l.symbol?.bind BinaryOp.ofAssignment?) = none := by
  refine h.take?_eq_none fun l hl => Option.bind_eq_none_iff.mpr fun x hx => ?_
  refine Option.eq_none_iff_forall_ne_some.mpr fun op hop => ?_
  have hjoins : l.joins? = some .assignment := by
    rw [Lexeme.joins?, hx, Option.bind_some, BinaryOp.joins?_of_ofAssignment? hop]
  exact absurd (hs l hl _ hjoins) (Nat.lt_irrefl _)

end Tokens

namespace Parse

/-- From the next tightness on, then growing, is the same as from a tightness on. -/
theorem binaryTail_climb (least : Nat) (s₀ : Tokens) (left : Expr) (s : Tokens)
    (h : s.Shorter s₀) :
    binaryTail least s₀ left s h =
      binaryTail (least + 1) s₀ left s h >>= fun p =>
        binaryTail least s₀ p.value p.next p.shorter := by
  cases hop : s.binaryOperator? (least + 1) with
  | none =>
    rw [binaryTail.eq_def (least + 1), hop]
    rfl
  | some p =>
    obtain ⟨⟨op, level⟩, s₁, h₁⟩ := p
    rw [binaryTail.eq_def least, binaryTail.eq_def (least + 1), hop,
      Tokens.binaryOperator?_of_succ hop]
    cases hright : binary (level + 1) s₁ with
    | error e => simp only [hright]; rfl
    | ok right =>
      simp only [hright]
      exact binaryTail_climb least s₀ _ right.next _
termination_by s.rest.length
decreasing_by exact Nat.lt_trans right.shorter h₁

theorem binary_climb (least : Nat) (s : Tokens) :
    binary least s = binary (least + 1) s >>= fun p =>
      binaryTail least s p.value p.next p.shorter := by
  rw [binary, binary]
  cases unary s with
  | error e => rfl
  | ok p => exact binaryTail_climb least s p.value p.next p.shorter

theorem binary_eight (s : Tokens) : binary 8 s = unary s := by
  rw [binary]
  cases unary s with
  | error e => rfl
  | ok p =>
    show binaryTail 8 s p.value p.next p.shorter = _
    rw [binaryTail, Tokens.binaryOperator?_eight]

end Parse

namespace Level

open Parse

/-- The routine that parses a level. -/
def parse : Level → (s : Tokens) → Attempt (Parsed s Expr)
  | expression => Parse.expression
  | assignment => Parse.assignment
  | disjunction => Parse.disjunction
  | conjunction => Parse.conjunction
  | binary n => Parse.binary n
  | unary => Parse.unary
  | trailing => Parse.trailing
  | primary => Parse.primary

/-- How an expression that was parsed from `s₀` on grows at a level. -/
def grow : Level → (s₀ : Tokens) → Expr → (s : Tokens) → s.Shorter s₀ → Attempt (Parsed s₀ Expr)
  | expression => commaTail
  | disjunction => disjunctionTail
  | conjunction => conjunctionTail
  | binary n => binaryTail n
  | trailing => trailingTail
  | _ => fun _ e s h => .ok ⟨e, s, h⟩

/-- The level is a loop around the next one. -/
def loops : Level → Bool
  | assignment | unary | primary => false
  | _ => true

theorem parse_next_binary (n : Fin 8) (s : Tokens) :
    (binary n).next.parse s = Parse.binary (n + 1) s := by
  simp only [next]
  split
  · rfl
  · have hn : n.val = 7 := by omega
    rw [hn]
    exact (binary_eight s).symm

theorem parse_of_loops {n : Level} (hn : n.loops = true) (s : Tokens) :
    n.parse s = n.next.parse s >>= fun p => n.grow s p.value p.next p.shorter := by
  cases n with
  | binary n => rw [parse_next_binary]; exact binary_climb n s
  | expression => exact Parse.expression.eq_def s
  | disjunction => exact Parse.disjunction.eq_def s
  | conjunction => exact Parse.conjunction.eq_def s
  | trailing => exact Parse.trailing.eq_def s
  | _ => cases hn

/-- An expression does not grow where its phrase stops. -/
theorem grow_of_stops {n : Level} {s₀ s : Tokens} {types : List String} {ls : List Lexeme}
    (hs : s.Holds types ls) (hn : n.Stops ls) (e : Expr) (h : s.Shorter s₀) :
    n.grow s₀ e s h = .ok ⟨e, s, h⟩ := by
  have hnone {x : Symbol} {m : Level} (hx : x.joins? = some m) (hm : n.rank ≤ m.rank) :
      s.accept? x = none := hs.accept?_eq_none (hn.ne_symbol hx hm)
  cases n with
  | expression => rw [grow, commaTail, hnone rfl (Nat.le_refl _)]
  | disjunction => rw [grow, disjunctionTail, hnone rfl (Nat.le_refl _)]
  | conjunction => rw [grow, conjunctionTail, hnone rfl (Nat.le_refl _)]
  | binary n => rw [grow, binaryTail, hs.binaryOperator?_eq_none hn]
  | trailing =>
    have hmember : s.take? (fun l => if l.isSymbol .dot then some false
        else if l.isSymbol .arrow then some true else none) = none := by
      refine hs.take?_eq_none fun l hl => ?_
      rw [Lexeme.isSymbol_eq_false (hn.ne_symbol rfl (Nat.le_refl _) l hl),
        Lexeme.isSymbol_eq_false (hn.ne_symbol rfl (Nat.le_refl _) l hl)]
      rfl
    have hstep : s.take? (fun l => l.symbol?.bind UnaryOp.ofTrailingSymbol?) = none := by
      refine hs.take?_eq_none fun l hl => Option.bind_eq_none_iff.mpr fun x hx => ?_
      refine Option.eq_none_iff_forall_ne_some.mpr fun op hop => ?_
      have hjoins : l.joins? = some .trailing := by
        rw [Lexeme.joins?, hx, Option.bind_some, UnaryOp.joins?_of_ofTrailingSymbol? hop]
      exact absurd (hn l hl _ hjoins) (Nat.lt_irrefl _)
    rw [grow, trailingTail, hnone rfl (Nat.le_refl _), hnone rfl (Nat.le_refl _), hmember, hstep]
  | _ => rfl

/-- An operator makes an expression grow by what the next level parses behind it. -/
theorem grow_of_chain (op : Chain) (left : Expr) {s₀ s : Tokens} {types : List String}
    {ls : List Lexeme} (h : s.Shorter s₀) (hs : s.Holds types (.symbol op.symbol :: ls)) :
    ∃ s₁, ∃ h₁ : s₁.Shorter s, s₁.Holds types ls ∧ op.level.grow s₀ left s h =
      op.level.next.parse s₁ >>= fun p => op.level.grow s₀
        (op.join (s₀.spanTo p.next) left p.value) p.next (p.shorter.trans (h₁.trans h)) := by
  cases op with
  | comma =>
    obtain ⟨s₁, h₁, heq, hs₁⟩ := Tokens.Holds.accept?_eq_some (x := .comma) hs
    refine ⟨s₁, h₁, hs₁, ?_⟩
    rw [Chain.level, grow, commaTail, heq]
    simp only
    show _ = Parse.assignment s₁ >>= _
    cases Parse.assignment s₁ <;> rfl
  | or =>
    obtain ⟨s₁, h₁, heq, hs₁⟩ := Tokens.Holds.accept?_eq_some (x := .orOr) hs
    refine ⟨s₁, h₁, hs₁, ?_⟩
    rw [Chain.level, grow, disjunctionTail, heq]
    simp only
    show _ = Parse.conjunction s₁ >>= _
    cases Parse.conjunction s₁ <;> rfl
  | and =>
    obtain ⟨s₁, h₁, heq, hs₁⟩ := Tokens.Holds.accept?_eq_some (x := .andAnd) hs
    refine ⟨s₁, h₁, hs₁, ?_⟩
    rw [Chain.level, grow, conjunctionTail, heq]
    simp only
    show _ = Parse.binary 0 s₁ >>= _
    cases Parse.binary 0 s₁ <;> rfl
  | binary op =>
    obtain ⟨s₁, h₁, heq, hs₁⟩ :=
      Tokens.Holds.binaryOperator?_eq_some hs (Nat.le_refl op.tightness.val)
    refine ⟨s₁, h₁, hs₁, ?_⟩
    rw [Chain.level, grow, binaryTail, heq, parse_next_binary]
    simp only
    cases Parse.binary (op.tightness + 1) s₁ <;> rfl

end Level

end Stepwise
