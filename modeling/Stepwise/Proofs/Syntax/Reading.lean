import Stepwise.Proofs.Syntax.Climbing
import Stepwise.Proofs.Syntax.TypeNames

/-! # Reading phrases

A phrase of a level is read by the routine of the level, which returns the tree of the
phrase and stops where the phrase does. Where a looser level goes on, the routine of a loop
has come to grow that tree, so that the left operand of a chain is ready when its operator
comes.
-/

namespace Stepwise

open Lexeme

/-- What a lexeme has to be to begin an expression. -/
def Lexeme.Opens (types : List String) : Lexeme → Prop
  | int .. => True
  | identifier name => name ∉ types
  | keyword k => k = .sizeofWord
  | symbol x => x = .leftParen ∨ (UnaryOp.ofLeadingSymbol? x).isSome = true
  | _ => False

theorem Lexeme.Opens.ne_symbol {types : List String} {l : Lexeme} (h : l.Opens types) {x : Symbol}
    (hx : x ≠ .leftParen) (hop : UnaryOp.ofLeadingSymbol? x = none) : l ≠ .symbol x := by
  rintro rfl
  obtain rfl | h := h
  · exact hx rfl
  · rw [hop] at h
    cases h

/-- The first of the lexemes begins an expression. -/
def OpensExpression (types : List String) (ls : List Lexeme) : Prop :=
  ∃ l us, ls = l :: us ∧ l.Opens types

/-- The lexemes begin an expression without a leading operator, a cast or `sizeof`. -/
inductive OpensOperand (types : List String) : List Lexeme → Prop
  | int {value radix : Nat} {unsigned long : Bool} {ls : List Lexeme} :
    OpensOperand types (.int value radix unsigned long :: ls)
  | name {name : String} {ls : List Lexeme} : OpensOperand types (identifier name :: ls)
  | parens {l : Lexeme} {ls : List Lexeme} : l.Opens types →
    OpensOperand types (symbol .leftParen :: l :: ls)

/-- What begins an expression does not begin a type. -/
theorem Tokens.Holds.parenStartsType_eq_false {types : List String} {s : Tokens} {k l : Lexeme}
    {ls : List Lexeme} (h : s.Holds types (k :: l :: ls)) (hl : l.Opens types) :
    s.parenStartsType = false := by
  have hahead : s.ahead 1 = l := h.ahead_eq 1
  rw [parenStartsType, hahead]
  cases l with
  | identifier name =>
    have hname : name ∉ types := hl
    have htype : s.isType name = false := by
      rw [isType, h.typeNames]
      simpa using hname
    simp only [htype, Bool.false_and]
  | keyword k => obtain rfl : k = .sizeofWord := hl; rfl
  | typeWord | specifier => cases hl
  | _ => rfl

/-- Such lexemes are read past the routine for leading operators, casts and `sizeof`. -/
theorem Tokens.Holds.unary_eq {types : List String} {s : Tokens} {ls : List Lexeme}
    (h : s.Holds types ls) (ho : OpensOperand types ls) : Parse.unary s = Parse.trailing s := by
  have hcast : (if s.parenStartsType then s.accept? .leftParen else none) = none := by
    cases ho with
    | int | name => rw [h.accept?_cons_eq_none rfl, ite_self]
    | parens hl => rw [h.parenStartsType_eq_false hl]; rfl
  have hoperator : s.take? (fun l => l.symbol?.bind UnaryOp.ofLeadingSymbol?) = none := by
    cases ho <;> exact h.take?_cons_eq_none rfl
  have hsizeof : s.acceptKeyword? .sizeofWord = none := by
    cases ho <;> exact h.take?_cons_eq_none rfl
  rw [Parse.unary]
  simp only [hoperator, hcast, hsizeof]

namespace Phrase

variable {types : List String} {n : Level} {e : Expr} {ws : List Lexeme}

/-- Every phrase begins as an expression does. -/
theorem opens (h : Phrase types n e ws) : OpensExpression types ws := by
  induction h with
  | int => exact ⟨_, _, rfl, trivial⟩
  | name _ hname => exact ⟨_, _, rfl, hname⟩
  | parens => exact ⟨_, _, rfl, .inl rfl⟩
  | @before _ op => exact ⟨_, _, rfl, .inr (by cases op <;> rfl)⟩
  | cast => exact ⟨_, _, rfl, .inl rfl⟩
  | sizeofType => exact ⟨_, _, rfl, rfl⟩
  | next _ ih => exact ih
  | index _ _ _ ih | call _ _ _ ih | member _ _ _ _ ih | behind _ _ _ ih | chain _ _ _ _ ih
  | conditional _ _ _ _ ih | assign _ _ _ _ ih =>
    obtain ⟨l, ls, rfl, hl⟩ := ih
    exact ⟨l, _, rfl, hl⟩

/-- A phrase of one of the two tightest levels begins with its operand. -/
theorem opensOperand (h : Phrase types n e ws) (hn : Level.trailing.rank ≤ n.rank)
    (ls : List Lexeme) : OpensOperand types (ws ++ ls) := by
  induction h generalizing ls with
  | int => exact .int
  | name => exact .name
  | parens h =>
    obtain ⟨l, us, rfl, hl⟩ := h.opens
    exact .parens hl
  | index _ _ _ ih | call _ _ _ ih | member _ _ _ _ ih | behind _ _ _ ih =>
    simp only [List.append_assoc]
    exact ih (Nat.le_refl _) _
  | next _ ih => exact ih (Nat.le_trans hn (Level.rank_le_rank_next _)) ls
  | chain _ op => exact absurd hn (by cases op <;> simp only [Chain.level, Level.rank] <;> omega)
  | before | cast | sizeofType | conditional | assign => exact absurd hn (by decide)

end Phrase

/-- The attempt gives a tree that is like `e` up to spans, and leaves the lexemes. -/
def Yields (types : List String) {s : Tokens} (a : Attempt (Parsed s Expr)) (e : Expr)
    (ls : List Lexeme) : Prop :=
  ∃ e' t ht, a = .ok ⟨e', t, ht⟩ ∧ e'.bare = e.bare ∧ t.Holds types ls

/-- The routine of the level reads `e` from the lexemes, wherever they are followed by something
that stops the level; and a loop comes to grow `e` where they are followed by something that stops
the next level. -/
structure Reads (types : List String) (n : Level) (e : Expr) (ws : List Lexeme) : Prop where
  whole : ∀ (s : Tokens) (ls : List Lexeme), s.Holds types (ws ++ ls) → n.Stops ls →
    Yields types (n.parse s) e ls
  start : n.loops = true → ∀ (s : Tokens) (ls : List Lexeme), s.Holds types (ws ++ ls) →
    n.next.Stops ls →
    ∃ e' t ht, n.parse s = n.grow s e' t ht ∧ e'.bare = e.bare ∧ t.Holds types ls

/-- The lexemes are read as an argument of a call, up to the comma or the parenthesis after it. -/
structure ReadsArgument (types : List String) (e : Expr) (ws : List Lexeme) : Prop where
  whole : ∀ (s : Tokens) (x : Symbol) (ls : List Lexeme), x ∈ [.comma, .rightParen] →
    s.Holds types (ws ++ symbol x :: ls) → Yields types (Parse.assignment s) e (symbol x :: ls)
  opens : ∃ l us, ws = l :: us ∧ l ≠ symbol .rightParen

/-- A comma or a parenthesis ends an assignment. -/
theorem Level.stops_of_endsArgument {x : Symbol} (hx : x ∈ [.comma, .rightParen])
    (ls : List Lexeme) : Level.assignment.Stops (symbol x :: ls) := by
  simp only [List.mem_cons, List.not_mem_nil, or_false] at hx
  obtain rfl | rfl := hx
  · exact Level.stops_of_joins? rfl (by decide)
  · exact Level.stops_of_joins?_eq_none rfl

namespace Parse

variable {types : List String} {s t : Tokens} {e : Expr} {ht : t.Shorter s} {ls : List Lexeme}

theorem conditional_of_disjunction (h : disjunction s = .ok ⟨e, t, ht⟩)
    (hquestion : t.accept? .question = none) : conditional s = .ok ⟨e, t, ht⟩ := by
  rw [conditional, h]
  simp only [Attempt.ok_bind, hquestion, since_none]

theorem assignment_of_conditional (h : conditional s = .ok ⟨e, t, ht⟩) (hh : t.Holds types ls)
    (hstop : Level.assignment.Stops ls) : assignment s = .ok ⟨e, t, ht⟩ := by
  rw [assignment, h]
  simp only [Attempt.ok_bind, hh.take?_assignment_eq_none hstop, since_none]

end Parse

namespace Reads

variable {types : List String} {n : Level} {e : Expr} {ws : List Lexeme}

/-- What a loop comes to grow is what it reads, where the lexemes stop it. -/
theorem of_start (h : ∀ (s : Tokens) (ls : List Lexeme), s.Holds types (ws ++ ls) →
    n.next.Stops ls →
    ∃ e' t ht, n.parse s = n.grow s e' t ht ∧ e'.bare = e.bare ∧ t.Holds types ls) :
    Reads types n e ws where
  start _ := h
  whole s ls hs hstop := by
    obtain ⟨e', t, ht, heq, hbare, hh⟩ := h s ls hs hstop.next
    exact ⟨e', t, ht, by rw [heq, Level.grow_of_stops hh hstop], hbare, hh⟩

theorem of_whole (hn : n.loops = false) (h : ∀ (s : Tokens) (ls : List Lexeme),
    s.Holds types (ws ++ ls) → n.Stops ls → Yields types (n.parse s) e ls) :
    Reads types n e ws where
  start hloops := by rw [hn] at hloops; cases hloops
  whole := h

/-- A loop reads what the next level reads. -/
theorem of_next_of_loops (hn : n.loops = true) (h : Reads types n.next e ws) :
    Reads types n e ws := by
  refine of_start fun s ls hs hstop => ?_
  obtain ⟨e', t, ht, heq, hbare, hh⟩ := h.whole s ls hs hstop
  exact ⟨e', t, ht, by rw [Level.parse_of_loops hn, heq]; rfl, hbare, hh⟩

/-- Where no assignment or conditional goes on, an assignment is a chain of `||`. -/
theorem assignment_of_disjunction (h : Reads types .disjunction e ws) :
    Reads types .assignment e ws := by
  refine of_whole rfl fun s ls hs hstop => ?_
  obtain ⟨e', t, ht, heq, hbare, hh⟩ := h.whole s ls hs hstop.next
  have hquestion : t.accept? .question = none :=
    hh.accept?_eq_none (hstop.ne_symbol rfl (Nat.le_refl _))
  exact ⟨e', t, ht, Parse.assignment_of_conditional (Parse.conditional_of_disjunction heq hquestion)
    hh hstop, hbare, hh⟩

/-- Where no operator, cast or `sizeof` leads, a unary expression is a trailing one. -/
theorem unary_of_trailing (h : Reads types .trailing e ws)
    (hws : ∀ ls, OpensOperand types (ws ++ ls)) : Reads types .unary e ws := by
  refine of_whole rfl fun s ls hs hstop => ?_
  obtain ⟨e', t, ht, heq, hbare, hh⟩ := h.whole s ls hs hstop.next
  exact ⟨e', t, ht, (hs.unary_eq (hws ls)).trans heq, hbare, hh⟩

/-- A literal is a primary expression. -/
theorem int (span : Span) (value radix : Nat) (unsigned long : Bool) :
    Reads types .primary (.literal span (.int value radix unsigned long))
      [.int value radix unsigned long] := by
  refine of_whole rfl fun s ls hs _ => ?_
  obtain ⟨t, ht, heq, hh⟩ := hs.take?_eq_some (f := Lexeme.literal?) rfl
  refine ⟨.literal (s.spanTo t) (.int value radix unsigned long), t, ht, ?_, rfl, hh⟩
  rw [Level.parse, Parse.primary, Tokens.literal?, heq]

/-- A name is a primary expression. -/
theorem name (span : Span) (name : String) :
    Reads types .primary (.identifier span name) [.identifier name] := by
  refine of_whole rfl fun s ls hs hstop => ?_
  have hliteral : s.literal? = none := hs.literal?_eq_none rfl rfl
  obtain ⟨t, ht, heq, hh⟩ := hs.take?_eq_some (f := Lexeme.identifier?) rfl
  have hcolons : t.accept? .doubleColon = none :=
    hh.accept?_eq_none (hstop.ne_symbol rfl (Nat.le_refl _))
  refine ⟨.identifier (s.spanTo t) name, t, ht, ?_, rfl, hh⟩
  have hpath : s.path = .ok ⟨[name], t, ht⟩ := by
    rw [Tokens.path, Tokens.expectIdentifier, heq]
    simp only [Attempt.ok_bind]
    rw [Tokens.pathTail, hcolons]
    rfl
  rw [Level.parse, Parse.primary]
  simp only [hliteral, hs.peek_eq, hpath, Attempt.ok_bind]
  rfl

/-- An expression in parentheses is a primary expression. -/
theorem parens (h : Reads types .expression e ws) : Reads types .primary e (parens ws) := by
  refine of_whole rfl fun s ls hs _ => ?_
  rw [Lexeme.parens, List.append_assoc] at hs
  obtain ⟨s₁, h₁, heq₁, hs₁⟩ := hs.accept?_eq_some
  obtain ⟨e', s₂, h₂, heq₂, hbare, hs₂⟩ := h.whole s₁ _ hs₁ (Level.stops_of_joins?_eq_none rfl)
  obtain ⟨t, ht, heq₃, hh⟩ := hs₂.expect_eq "after expression"
  refine ⟨e', t, ht.trans (h₂.trans h₁), ?_, hbare, hh⟩
  have hliteral : s.literal? = none := hs.literal?_eq_none rfl rfl
  have hcolons : s.accept? .doubleColon = none := hs.accept?_cons_eq_none rfl
  have hexpression : Parse.expression s₁ = _ := heq₂
  rw [Level.parse, Parse.primary]
  simp only [hliteral, hs.peek_eq, hcolons, heq₁, hexpression, heq₃, since_ok, Attempt.ok_bind]
  rfl

/-- An operator in front of its operand. -/
theorem before (span : Span) {op : UnaryOp} (hop : op.trails = false)
    (h : Reads types .unary e ws) :
    Reads types .unary (.unary span op e) (symbol op.symbol :: ws) := by
  refine of_whole rfl fun s ls hs hstop => ?_
  have hsymbol : UnaryOp.ofLeadingSymbol? op.symbol = some op := by
    cases op <;> first | rfl | cases hop
  obtain ⟨s₁, h₁, heq₁, hs₁⟩ := hs.take?_eq_some
    (f := fun l => l.symbol?.bind UnaryOp.ofLeadingSymbol?) hsymbol
  obtain ⟨e', t, ht, heq, hbare, hh⟩ := h.whole s₁ ls hs₁ hstop
  have hunary : Parse.unary s₁ = _ := heq
  refine ⟨.unary (s.spanTo t) op e', t, ht.trans h₁, ?_, by rw [Expr.bare, hbare, Expr.bare], hh⟩
  rw [Level.parse, Parse.unary, heq₁]
  simp only [hunary, since_ok, Attempt.ok_bind]

/-- A built-in type in parentheses in front of its operand. -/
theorem cast (span span' : Span) {spec : TypeSpec} (hspec : spec.IsBuiltin) (marks : List Bool)
    (reference : Bool) (h : Reads types .unary e ws) :
    Reads types .unary (.cast span spec (.mk span' marks reference .anonymous []) e)
      (Lexeme.parens (ofType spec marks reference) ++ ws) := by
  refine of_whole rfl fun s ls hs hstop => ?_
  simp only [Lexeme.parens, List.cons_append, List.append_assoc] at hs
  have hparen := hs.parenStartsType_eq_true hspec.words_ne_nil
  have hoperator : s.take? (fun l => l.symbol?.bind UnaryOp.ofLeadingSymbol?) = none :=
    hs.take?_cons_eq_none rfl
  obtain ⟨s₁, h₁, heq₁, hs₁⟩ := hs.accept?_eq_some
  obtain ⟨spec', span'', s₂, h₂, heq₂, hspec', hs₂⟩ :=
    Parse.typeName_ofType hspec marks reference hs₁
  obtain ⟨s₃, h₃, heq₃, hs₃⟩ := hs₂.expect_eq "after cast type"
  obtain ⟨e', t, ht, heq, hbare, hh⟩ := h.whole s₃ ls hs₃ hstop
  have hunary : Parse.unary s₃ = _ := heq
  refine ⟨.cast (s.spanTo t) spec' (.mk span'' marks reference .anonymous []) e', t,
    ht.trans (h₃.trans (h₂.trans h₁)), ?_, ?_, hh⟩
  · rw [Level.parse, Parse.unary]
    simp only [hoperator, hparen, if_true, heq₁, heq₂, heq₃, hunary, since_ok, Attempt.ok_bind]
  · simp only [Expr.bare, Declarator.bare, hspec', hbare]

/-- The size of a built-in type. -/
theorem sizeofType (span span' : Span) {spec : TypeSpec} (hspec : spec.IsBuiltin)
    (marks : List Bool) (reference : Bool) :
    Reads types .unary (.sizeofType span spec (.mk span' marks reference .anonymous []))
      (keyword .sizeofWord :: Lexeme.parens (ofType spec marks reference)) := by
  refine of_whole rfl fun s ls hs _ => ?_
  simp only [Lexeme.parens, List.cons_append, List.append_assoc] at hs
  have hoperator : s.take? (fun l => l.symbol?.bind UnaryOp.ofLeadingSymbol?) = none :=
    hs.take?_cons_eq_none rfl
  have hcast : s.accept? .leftParen = none := hs.accept?_cons_eq_none rfl
  obtain ⟨s₁, h₁, heq₁, hs₁⟩ : ∃ t ht, s.acceptKeyword? .sizeofWord = some ⟨(), t, ht⟩ ∧ _ :=
    hs.take?_eq_some rfl
  have hparen := hs₁.parenStartsType_eq_true hspec.words_ne_nil
  obtain ⟨s₂, h₂, heq₂, hs₂⟩ := hs₁.accept?_eq_some
  obtain ⟨spec', span'', s₃, h₃, heq₃, hspec', hs₃⟩ :=
    Parse.typeName_ofType hspec marks reference hs₂
  obtain ⟨t, ht, heq, hh⟩ := hs₃.expect_eq "after sizeof type"
  refine ⟨.sizeofType (s.spanTo t) spec' (.mk span'' marks reference .anonymous []), t,
    ht.trans (h₃.trans (h₂.trans h₁)), ?_, ?_, hh⟩
  · rw [Level.parse, Parse.unary]
    simp only [hoperator, hcast, ite_self, heq₁, hparen, if_true, heq₂, heq₃, heq, since_some,
      since_ok, Attempt.ok_bind]
  · simp only [Expr.bare, Declarator.bare, hspec']

/-- A conditional expression, whose branches group to the right. -/
theorem conditional (span : Span) {c t e : Expr} {ws vs us : List Lexeme}
    (hc : Reads types .disjunction c ws) (ht : Reads types .expression t vs)
    (he : Reads types .assignment e us) :
    Reads types .assignment (.conditional span c t e)
      (ws ++ symbol .question :: vs ++ symbol .colon :: us) := by
  refine of_whole rfl fun s ls hs hstop => ?_
  simp only [List.cons_append, List.append_assoc] at hs
  obtain ⟨c', s₁, h₁, heq₁, hbare₁, hs₁⟩ :=
    hc.whole s _ hs (Level.stops_of_joins? rfl (by decide))
  obtain ⟨s₂, h₂, heq₂, hs₂⟩ := hs₁.accept?_eq_some
  obtain ⟨t', s₃, h₃, heq₃, hbare₃, hs₃⟩ := ht.whole s₂ _ hs₂ (Level.stops_of_joins?_eq_none rfl)
  obtain ⟨s₄, h₄, heq₄, hs₄⟩ := hs₃.expect_eq "in ternary expression"
  obtain ⟨e', s₅, h₅, heq₅, hbare₅, hs₅⟩ := he.whole s₄ ls hs₄ hstop
  have hdisjunction : Parse.disjunction s = _ := heq₁
  have hexpression : Parse.expression s₂ = _ := heq₃
  have hassignment : Parse.assignment s₄ = _ := heq₅
  have hconditional : Parse.conditional s = .ok ⟨.conditional (s.spanTo s₅) c' t' e', s₅,
      h₅.trans (h₄.trans (h₃.trans (h₂.trans h₁)))⟩ := by
    rw [Parse.conditional]
    simp only [hdisjunction, heq₂, hexpression, heq₄, hassignment, since_some, since_ok,
      Attempt.ok_bind]
  exact ⟨_, s₅, _, Parse.assignment_of_conditional hconditional hs₅ hstop,
    by simp only [Expr.bare, hbare₁, hbare₃, hbare₅], hs₅⟩

/-- An assignment, whose value groups to the right. -/
theorem assign (span : Span) {op : Option BinaryOp} {x : Symbol} {target value : Expr}
    {ws vs : List Lexeme} (hop : BinaryOp.assignSymbol? op = some x)
    (htarget : Reads types .disjunction target ws) (hvalue : Reads types .assignment value vs)
    (hopens : OpensExpression types vs) :
    Reads types .assignment (.assign span op target value) (ws ++ symbol x :: vs) := by
  refine of_whole rfl fun s ls hs hstop => ?_
  simp only [List.cons_append, List.append_assoc] at hs
  have hjoins := BinaryOp.joins?_of_assignSymbol? hop
  obtain ⟨target', s₁, h₁, heq₁, hbare₁, hs₁⟩ :=
    htarget.whole s _ hs (Level.stops_of_joins? hjoins (by decide))
  have hquestion : s₁.accept? .question = none := by
    refine hs₁.accept?_cons_eq_none (isSymbol_eq_false fun hx => ?_)
    obtain rfl := symbol.inj hx
    cases op with
    | none => cases hop
    | some op => cases op <;> cases hop
  obtain ⟨s₂, h₂, heq₂, hs₂⟩ := hs₁.take?_eq_some
    (f := fun l => l.symbol?.bind BinaryOp.ofAssignment?)
    (BinaryOp.ofAssignment?_of_assignSymbol? hop)
  obtain ⟨value', t, ht, heq, hbare, hh⟩ := hvalue.whole s₂ ls hs₂ hstop
  have hbrace : s₂.sees .leftBrace = false := by
    obtain ⟨l, us, rfl, hl⟩ := hopens
    rw [hs₂.sees_eq, isSymbol_eq_false (hl.ne_symbol (by decide) rfl)]
  have hassignment : Parse.assignment s₂ = _ := heq
  refine ⟨.assign (s.spanTo t) op target' value', t, ht.trans (h₂.trans h₁), ?_,
    by simp only [Expr.bare, hbare₁, hbare], hh⟩
  rw [Level.parse, Parse.assignment, Parse.conditional_of_disjunction heq₁ hquestion]
  simp only [heq₂, hbrace, hassignment, since_some, since_ok, Attempt.ok_bind]
  rfl

/-- A chain, whose operands group to the left. -/
theorem chain (span : Span) (op : Chain) {left right : Expr} {ws vs : List Lexeme}
    (hleft : Reads types op.level left ws) (hright : Reads types op.level.next right vs) :
    Reads types op.level (op.join span left right) (ws ++ symbol op.symbol :: vs) := by
  refine of_start fun s ls hs hstop => ?_
  have hloops : op.level.loops = true := by cases op <;> rfl
  have htighter : op.level.rank < op.level.next.rank := by
    rw [Level.rank_next (by cases op <;> simp [Chain.level])]
    exact Nat.lt_succ_self _
  rw [List.append_assoc, List.cons_append] at hs
  obtain ⟨left', s₁, h₁, heq₁, hbare₁, hs₁⟩ :=
    hleft.start hloops s _ hs (Level.stops_of_joins? op.joins?_symbol htighter)
  obtain ⟨s₂, h₂, hs₂, hgrow⟩ := Level.grow_of_chain op left' h₁ hs₁
  obtain ⟨right', t, ht, heq, hbare, hh⟩ := hright.whole s₂ ls hs₂ hstop
  refine ⟨op.join (s.spanTo t) left' right', t, ht.trans (h₂.trans h₁), ?_, ?_, hh⟩
  · rw [heq₁, hgrow, heq, Attempt.ok_bind]
  · cases op <;> simp only [Chain.join, Expr.bare, hbare₁, hbare]

/-- An index in brackets. -/
theorem index (span : Span) {base index : Expr} {ws vs : List Lexeme}
    (hbase : Reads types .trailing base ws) (hindex : Reads types .expression index vs) :
    Reads types .trailing (.index span base index)
      (ws ++ symbol .leftBracket :: vs ++ [symbol .rightBracket]) := by
  refine of_start fun s ls hs _ => ?_
  simp only [List.cons_append, List.append_assoc] at hs
  obtain ⟨base', s₁, h₁, heq₁, hbare₁, hs₁⟩ :=
    hbase.start rfl s _ hs (Level.stops_of_joins? rfl (by decide))
  obtain ⟨s₂, h₂, heq₂, hs₂⟩ := hs₁.accept?_eq_some
  obtain ⟨index', s₃, h₃, heq₃, hbare₃, hs₃⟩ :=
    hindex.whole s₂ _ hs₂ (Level.stops_of_joins?_eq_none rfl)
  obtain ⟨t, ht, heq, hh⟩ := hs₃.expect_eq "after index"
  have hexpression : Parse.expression s₂ = _ := heq₃
  refine ⟨.index (s.spanTo t) base' index', t, ht.trans (h₃.trans (h₂.trans h₁)), ?_,
    by simp only [Expr.bare, hbare₁, hbare₃], hh⟩
  rw [heq₁, Level.grow, Parse.trailingTail, heq₂]
  simp only [hexpression, heq, since_ok, Attempt.ok_bind]

/-- A member of what stands before it. -/
theorem member (span : Span) {object : Expr} (name : String) (throughPointer : Bool)
    (h : Reads types .trailing object ws) :
    Reads types .trailing (.member span object name throughPointer)
      (ws ++ [symbol (if throughPointer then .arrow else .dot), identifier name]) := by
  refine of_start fun s ls hs _ => ?_
  simp only [List.cons_append, List.append_assoc, List.nil_append] at hs
  have hjoins : (if throughPointer then Symbol.arrow else .dot).joins? = some .trailing := by
    cases throughPointer <;> rfl
  obtain ⟨object', s₁, h₁, heq₁, hbare₁, hs₁⟩ :=
    h.start rfl s _ hs (Level.stops_of_joins? hjoins (by decide))
  have hbracket : s₁.accept? .leftBracket = none := by
    cases throughPointer <;> exact hs₁.accept?_cons_eq_none rfl
  have hparen : s₁.accept? .leftParen = none := by
    cases throughPointer <;> exact hs₁.accept?_cons_eq_none rfl
  obtain ⟨s₂, h₂, heq₂, hs₂⟩ := hs₁.take?_eq_some (a := throughPointer)
    (f := fun l => if l.isSymbol .dot then some false
      else if l.isSymbol .arrow then some true else none) (by cases throughPointer <;> rfl)
  obtain ⟨t, ht, heq, hh⟩ := hs₂.take?_eq_some (f := Lexeme.identifier?) rfl
  have hname : s₂.expectIdentifier = .ok ⟨name, t, ht⟩ := by rw [Tokens.expectIdentifier, heq]
  refine ⟨.member (s.spanTo t) object' name throughPointer, t, ht.trans (h₂.trans h₁), ?_,
    by simp only [Expr.bare, hbare₁], hh⟩
  rw [heq₁, Level.grow, Parse.trailingTail, hbracket, hparen, heq₂]
  simp only [hname, since_ok, Attempt.ok_bind]

/-- An operator behind its operand. -/
theorem behind (span : Span) {op : UnaryOp} {operand : Expr} (hop : op.trails = true)
    (h : Reads types .trailing operand ws) :
    Reads types .trailing (.unary span op operand) (ws ++ [symbol op.symbol]) := by
  refine of_start fun s ls hs _ => ?_
  rw [List.append_assoc, List.singleton_append] at hs
  have hsymbol : op.symbol.joins? = some .trailing ∧
      UnaryOp.ofTrailingSymbol? op.symbol = some op := by
    cases op <;> first | exact ⟨rfl, rfl⟩ | cases hop
  obtain ⟨operand', s₁, h₁, heq₁, hbare₁, hs₁⟩ :=
    h.start rfl s _ hs (Level.stops_of_joins? hsymbol.1 (by decide))
  have hother : s₁.accept? .leftBracket = none ∧ s₁.accept? .leftParen = none ∧
      s₁.take? (fun l => if l.isSymbol .dot then some false
        else if l.isSymbol .arrow then some true else none) = none := by
    cases op <;> exact ⟨hs₁.accept?_cons_eq_none rfl, hs₁.accept?_cons_eq_none rfl,
      hs₁.take?_cons_eq_none rfl⟩
  obtain ⟨t, ht, heq, hh⟩ := hs₁.take?_eq_some
    (f := fun l => l.symbol?.bind UnaryOp.ofTrailingSymbol?) hsymbol.2
  refine ⟨.unary (s.spanTo t) op operand', t, ht.trans h₁, ?_,
    by simp only [Expr.bare, hbare₁], hh⟩
  rw [heq₁, Level.grow, Parse.trailingTail, hother.1, hother.2.1, hother.2.2, heq]

theorem readsArgument (h : Reads types .assignment e ws) (hopens : OpensExpression types ws) :
    ReadsArgument types e ws where
  whole s _ ls hx hs := h.whole s _ hs (Level.stops_of_endsArgument hx ls)
  opens := by
    obtain ⟨l, us, hus, hl⟩ := hopens
    exact ⟨l, us, hus, hl.ne_symbol (by decide) rfl⟩

/-- The arguments of a call are read up to its parenthesis. -/
theorem argumentsTail_eq {args : List (Expr × List Lexeme)} {s₀ s : Tokens} {ls : List Lexeme}
    (hargs : ∀ a ∈ args, ReadsArgument types a.1 a.2) (before : List Expr) (h : s.Shorter s₀)
    (hs : s.Holds types
      ([symbol .comma].intercalate (args.map Prod.snd) ++ symbol .rightParen :: ls)) :
    ∃ args' t ht, Parse.argumentsTail s₀ before s h = .ok ⟨before.reverse ++ args', t, ht⟩ ∧
      args'.map Expr.bare = (args.map Prod.fst).map Expr.bare ∧ t.Holds types ls := by
  induction args generalizing before s with
  | nil =>
    rw [List.map_nil, List.intercalate_nil, List.nil_append] at hs
    obtain ⟨t, ht, heq, hh⟩ := hs.expect_eq "after call arguments"
    have hsees : s.sees .rightParen = true := hs.sees_eq _
    refine ⟨[], t, ht.trans h, ?_, rfl, hh⟩
    rw [Parse.argumentsTail]
    simp only [hsees, if_true, heq, Attempt.ok_bind, List.append_nil]
  | cons a args ih =>
    obtain ⟨ha, hargs⟩ := List.forall_mem_cons.mp hargs
    obtain ⟨l, us, hus, hl⟩ := ha.opens
    have hsees {ls : List Lexeme} (hs : s.Holds types (a.2 ++ ls)) :
        s.sees .rightParen = false := by
      rw [hus] at hs
      rw [hs.sees_eq, isSymbol_eq_false hl]
    cases args with
    | nil =>
      rw [List.map_singleton, List.intercalate_singleton] at hs
      obtain ⟨a', s₁, h₁, hassignment, hbare, hs₁⟩ := ha.whole s .rightParen _ (by decide) hs
      have hcomma : s₁.accept? .comma = none := hs₁.accept?_cons_eq_none rfl
      obtain ⟨t, ht, heq, hh⟩ := hs₁.expect_eq "after call arguments"
      refine ⟨[a'], t, (ht.trans h₁).trans h, ?_, by simp [hbare], hh⟩
      rw [Parse.argumentsTail]
      simp only [hsees hs, Bool.false_eq_true, if_false, hassignment, hcomma, heq, since_none,
        since_ok, Attempt.ok_bind, List.reverse_cons]
    | cons b args =>
      rw [List.map_cons, List.map_cons, List.intercalate_cons_cons, List.append_assoc,
        List.append_assoc] at hs
      obtain ⟨a', s₁, h₁, hassignment, hbare, hs₁⟩ := ha.whole s .comma _ (by decide) hs
      obtain ⟨s₂, h₂, heq₂, hs₂⟩ := hs₁.accept?_eq_some
      obtain ⟨args', t, ht, heq, hmap, hh⟩ := ih hargs (a' :: before) ((h₂.trans h₁).trans h) hs₂
      refine ⟨a' :: args', t, ht, ?_, by rw [List.map_cons, hbare, hmap]; rfl, hh⟩
      rw [Parse.argumentsTail]
      simp only [hsees hs, Bool.false_eq_true, if_false, hassignment, heq₂, heq, since_some,
        Attempt.ok_bind, List.reverse_cons, List.append_assoc, List.singleton_append]

/-- A call of what stands before its arguments. -/
theorem call (span : Span) {callee : Expr} {args : List (Expr × List Lexeme)}
    (hcallee : Reads types .trailing callee ws)
    (hargs : ∀ a ∈ args, ReadsArgument types a.1 a.2) :
    Reads types .trailing (.call span callee (args.map Prod.fst))
      (ws ++ Lexeme.parens ([symbol .comma].intercalate (args.map Prod.snd))) := by
  refine of_start fun s ls hs _ => ?_
  simp only [Lexeme.parens, List.cons_append, List.append_assoc] at hs
  obtain ⟨callee', s₁, h₁, heq₁, hbare₁, hs₁⟩ :=
    hcallee.start rfl s _ hs (Level.stops_of_joins? rfl (by decide))
  have hbracket : s₁.accept? .leftBracket = none := hs₁.accept?_cons_eq_none rfl
  obtain ⟨s₂, h₂, heq₂, hs₂⟩ := hs₁.accept?_eq_some
  obtain ⟨args', t, ht, heq, hmap, hh⟩ := argumentsTail_eq hargs [] h₂ hs₂
  refine ⟨.call (s.spanTo t) callee' args', t, ht.trans h₁, ?_,
    by simp only [Expr.bare, hbare₁, Expr.bareAll_eq_map, hmap], hh⟩
  rw [heq₁, Level.grow, Parse.trailingTail, hbracket, heq₂]
  simp only [heq, Attempt.ok_bind, List.reverse_nil, List.nil_append]

end Reads

/-- Every phrase is read. -/
theorem Phrase.reads {types : List String} {n : Level} {e : Expr} {ws : List Lexeme}
    (h : Phrase types n e ws) : Reads types n e ws := by
  induction h with
  | int span value radix unsigned long => exact .int span value radix unsigned long
  | name span => exact .name span _
  | parens _ ih => exact ih.parens
  | index span _ _ ihBase ihIndex => exact .index span ihBase ihIndex
  | call span _ hargs ihCallee ihArgs =>
    exact .call span ihCallee fun a ha => (ihArgs a ha).readsArgument (hargs a ha).opens
  | member span name throughPointer _ ih => exact .member span name throughPointer ih
  | behind span hop _ ih => exact .behind span hop ih
  | before span hop _ ih => exact .before span hop ih
  | cast span span' marks reference hspec _ ih => exact .cast span span' hspec marks reference ih
  | sizeofType span span' marks reference hspec =>
    exact .sizeofType span span' hspec marks reference
  | chain span op _ _ ihLeft ihRight => exact .chain span op ihLeft ihRight
  | conditional span _ _ _ ihC ihT ihE => exact .conditional span ihC ihT ihE
  | assign span hop _ hvalue ihTarget ihValue =>
    exact .assign span hop ihTarget ihValue hvalue.opens
  | @next n e ws h ih =>
    by_cases hn : n.loops = true
    · exact .of_next_of_loops hn ih
    · cases n with
      | assignment => exact ih.assignment_of_disjunction
      | unary => exact ih.unary_of_trailing fun ls => h.opensOperand (Nat.le_refl _) ls
      | primary => exact ih
      | _ => exact absurd rfl hn

/-- The lexemes of a phrase derive one expression only, up to spans. -/
theorem Phrase.bare_eq {types : List String} {n : Level} {e e' : Expr} {ws : List Lexeme}
    (h : Phrase types n e ws) (h' : Phrase types n e' ws) : e.bare = e'.bare := by
  let s : Tokens := ⟨ws.map fun l => ⟨l, default⟩, default, default, types⟩
  have hs : s.Holds types (ws ++ []) := ⟨by simp [s, Function.comp_def], rfl⟩
  obtain ⟨a, t, ht, heq, hbare, -⟩ := h.reads.whole s [] hs (Level.stops_nil n)
  obtain ⟨a', t', ht', heq', hbare', -⟩ := h'.reads.whole s [] hs (Level.stops_nil n)
  rw [heq] at heq'
  cases heq'
  rw [← hbare, hbare']

end Stepwise
