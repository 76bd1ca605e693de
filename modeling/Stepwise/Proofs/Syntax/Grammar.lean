import Stepwise.Syntax.Parse.Expression
import Stepwise.Syntax.Tree

/-! # Trees without their spans

Two trees are the same up to spans if they agree once every span is replaced by one that
says nothing.
-/

namespace Stepwise

def TypeSpec.bare (s : TypeSpec) : TypeSpec := { s with span := default }

mutual

def Expr.bare : Expr → Expr
  | .literal _ value => .literal default value
  | .identifier _ name => .identifier default name
  | .qualified _ path => .qualified default path
  | .binary _ op left right => .binary default op left.bare right.bare
  | .logical _ op left right => .logical default op left.bare right.bare
  | .assign _ op target value => .assign default op target.bare value.bare
  | .comma _ left right => .comma default left.bare right.bare
  | .unary _ op operand => .unary default op operand.bare
  | .conditional _ c t e => .conditional default c.bare t.bare e.bare
  | .call _ callee args => .call default callee.bare (Expr.bareAll args)
  | .index _ base index => .index default base.bare index.bare
  | .member _ object name throughPointer => .member default object.bare name throughPointer
  | .cast _ spec target operand => .cast default spec.bare target.bare operand.bare
  | .sizeofType _ spec target => .sizeofType default spec.bare target.bare
  | .sizeofExpr _ operand => .sizeofExpr default operand.bare
  | .list _ items => .list default (Initializer.bareAll items)

def Expr.bareAll : List Expr → List Expr
  | [] => []
  | e :: es => e.bare :: Expr.bareAll es

def Expr.bareOption : Option Expr → Option Expr
  | none => none
  | some e => some e.bare

def Initializer.bare : Initializer → Initializer
  | .expr value => .expr value.bare
  | .list _ items => .list default (Initializer.bareAll items)

def Initializer.bareAll : List Initializer → List Initializer
  | [] => []
  | i :: is => i.bare :: Initializer.bareAll is

def Declarator.bare : Declarator → Declarator
  | .mk _ pointers reference base suffixes =>
    .mk default pointers reference base.bare (DeclaratorSuffix.bareAll suffixes)

def DeclaratorBase.bare : DeclaratorBase → DeclaratorBase
  | .named name => .named name
  | .nested inner => .nested inner.bare
  | .anonymous => .anonymous

def DeclaratorSuffix.bare : DeclaratorSuffix → DeclaratorSuffix
  | .array size => .array (Expr.bareOption size)
  | .params params variadic => .params (Param.bareAll params) variadic

def DeclaratorSuffix.bareAll : List DeclaratorSuffix → List DeclaratorSuffix
  | [] => []
  | s :: ss => s.bare :: DeclaratorSuffix.bareAll ss

def Param.bare : Param → Param
  | .mk _ spec declarator value =>
    .mk default spec.bare declarator.bare (Expr.bareOption value)

def Param.bareAll : List Param → List Param
  | [] => []
  | p :: ps => p.bare :: Param.bareAll ps

end

attribute [simp] Expr.bare Initializer.bare Declarator.bare DeclaratorBase.bare
  DeclaratorSuffix.bare Param.bare

theorem Expr.bareAll_eq_map (es : List Expr) : Expr.bareAll es = es.map Expr.bare := by
  induction es with
  | nil => rfl
  | cons e es ih => rw [Expr.bareAll, ih, List.map_cons]

end Stepwise

/-! ## The grammar of expressions

The levels of the grammar run from comma expressions, whose operator binds loosest, to
primary ones. A phrase derives an expression from lexemes at a level; a phrase of one level
is one of every looser level, and parentheses make any phrase a primary one. Binary
operators group to the left: the left operand has the level of the operator and the right
one the next. Assignments and conditionals group to the right.
-/

namespace Stepwise

/-- How tightly an expression holds together, the loosest level first. The binary operators have
eight levels, from `|` to the multiplicative ones. -/
inductive Level
  | expression
  | assignment
  | disjunction
  | conjunction
  | binary (n : Fin 8)
  | unary
  | trailing
  | primary
  deriving DecidableEq, Repr

namespace Level

/-- The number of levels that are looser. -/
def rank : Level → Nat
  | expression => 0
  | assignment => 1
  | disjunction => 2
  | conjunction => 3
  | binary n => 4 + n
  | unary => 12
  | trailing => 13
  | primary => 14

/-- The next tighter level; primary expressions have none. -/
def next : Level → Level
  | expression => assignment
  | assignment => disjunction
  | disjunction => conjunction
  | conjunction => binary 0
  | binary n => if h : n.val < 7 then binary ⟨n + 1, by omega⟩ else unary
  | unary => trailing
  | trailing => primary
  | primary => primary

theorem rank_injective : Function.Injective rank := by
  intro m n h
  cases m <;> cases n <;> simp only [rank, Nat.reduceEqDiff, Nat.add_left_cancel_iff] at h <;>
    first | rfl | cases h | omega | skip
  exact congrArg binary (Fin.ext h)

theorem rank_next {n : Level} (h : n ≠ primary) : n.next.rank = n.rank + 1 := by
  cases n with
  | binary n =>
    simp only [next]
    split
    · rfl
    · simp only [rank]
      omega
  | primary => exact absurd rfl h
  | _ => rfl

theorem rank_le_rank_primary (n : Level) : n.rank ≤ primary.rank := by
  cases n <;> simp only [rank] <;> omega

theorem rank_le_rank_next (n : Level) : n.rank ≤ n.next.rank := by
  by_cases h : n = primary
  · rw [h]; exact Nat.le_refl _
  · rw [rank_next h]; exact Nat.le_succ _

end Level

namespace BinaryOp

/-- How an operator is written. -/
def symbol : BinaryOp → Symbol
  | add => .plus
  | sub => .minus
  | mul => .star
  | div => .slash
  | rem => .percent
  | eq => .equal
  | ne => .notEqual
  | lt => .less
  | le => .lessEqual
  | gt => .greater
  | ge => .greaterEqual
  | bitAnd => .amp
  | bitOr => .pipe
  | bitXor => .caret
  | shl => .shiftLeft
  | shr => .shiftRight

/-- How tightly an operator binds its operands. -/
def tightness : BinaryOp → Fin 8
  | bitOr => 0
  | bitXor => 1
  | bitAnd => 2
  | eq | ne => 3
  | lt | le | gt | ge => 4
  | shl | shr => 5
  | add | sub => 6
  | mul | div | rem => 7

/-- How an assignment is written that applies an operator first; the comparisons have none. -/
def assignSymbol? : Option BinaryOp → Option Symbol
  | none => some .assign
  | some add => some .plusAssign
  | some sub => some .minusAssign
  | some mul => some .starAssign
  | some div => some .slashAssign
  | some rem => some .percentAssign
  | some bitAnd => some .ampAssign
  | some bitOr => some .pipeAssign
  | some bitXor => some .caretAssign
  | some shl => some .shiftLeftAssign
  | some shr => some .shiftRightAssign
  | some _ => none

end BinaryOp

namespace UnaryOp

/-- The operator stands behind its operand. -/
def trails : UnaryOp → Bool
  | postInc | postDec => true
  | _ => false

/-- How an operator is written. -/
def symbol : UnaryOp → Symbol
  | neg => .minus
  | plus => .plus
  | not => .bang
  | bitNot => .tilde
  | preInc | postInc => .increment
  | preDec | postDec => .decrement
  | deref => .star
  | addrOf => .amp

end UnaryOp

/-- The level at which a symbol joins what stands before it to what follows. -/
def Symbol.joins? : Symbol → Option Level
  | comma => some .expression
  | question | assign | plusAssign | minusAssign | starAssign | slashAssign | percentAssign
  | ampAssign | pipeAssign | caretAssign | shiftLeftAssign | shiftRightAssign => some .assignment
  | orOr => some .disjunction
  | andAnd => some .conjunction
  | pipe => some (.binary 0)
  | caret => some (.binary 1)
  | amp => some (.binary 2)
  | equal | notEqual => some (.binary 3)
  | less | lessEqual | greater | greaterEqual => some (.binary 4)
  | shiftLeft | shiftRight => some (.binary 5)
  | plus | minus => some (.binary 6)
  | star | slash | percent => some (.binary 7)
  | leftBracket | leftParen | dot | arrow | increment | decrement => some .trailing
  | doubleColon => some .primary
  | _ => none

/-- An operator between two operands that groups to the left. -/
inductive Chain
  | comma
  | or
  | and
  | binary (op : BinaryOp)

namespace Chain

def symbol : Chain → Symbol
  | comma => .comma
  | or => .orOr
  | and => .andAnd
  | binary op => op.symbol

def level : Chain → Level
  | comma => .expression
  | or => .disjunction
  | and => .conjunction
  | binary op => .binary op.tightness

/-- The expression that applies the operator. -/
def join (span : Span) (left right : Expr) : Chain → Expr
  | comma => .comma span left right
  | or => .logical span .or left right
  | and => .logical span .and left right
  | binary op => .binary span op left right

end Chain

namespace TypeSpec

/-- The words name a built-in type. -/
structure IsBuiltin (s : TypeSpec) : Prop where
  specifiers : ∀ w ∈ s.specifiers, w ∈ Lexeme.specifierWords
  words : ∀ w ∈ s.words, w ∈ Lexeme.typeWords
  words_ne_nil : s.words ≠ []

end TypeSpec

namespace Lexeme

/-- The lexemes of a pointer mark. -/
def ofPointer (isConst : Bool) : List Lexeme :=
  symbol .star :: if isConst then [specifier "const"] else []

/-- The lexemes of a built-in type with pointer and reference marks. -/
def ofType (spec : TypeSpec) (marks : List Bool) (reference : Bool) : List Lexeme :=
  spec.specifiers.map specifier ++ spec.words.map typeWord
    ++ marks.flatMap ofPointer ++ if reference then [symbol .amp] else []

/-- Lexemes in parentheses. -/
def parens (ws : List Lexeme) : List Lexeme := symbol .leftParen :: ws ++ [symbol .rightParen]

end Lexeme

open Lexeme in
/-- The lexemes `ws` derive the expression at the level, where `types` are names of types. -/
inductive Phrase (types : List String) : Level → Expr → List Lexeme → Prop
  | int (span : Span) (value radix : Nat) (unsigned long : Bool) :
    Phrase types .primary (.literal span (.int value radix unsigned long))
      [.int value radix unsigned long]
  | name (span : Span) {name : String} : name ∉ types →
    Phrase types .primary (.identifier span name) [.identifier name]
  | parens {e : Expr} {ws : List Lexeme} : Phrase types .expression e ws →
    Phrase types .primary e (parens ws)
  | index (span : Span) {base index : Expr} {ws vs : List Lexeme} :
    Phrase types .trailing base ws → Phrase types .expression index vs →
    Phrase types .trailing (.index span base index)
      (ws ++ symbol .leftBracket :: vs ++ [symbol .rightBracket])
  | call (span : Span) {callee : Expr} {ws : List Lexeme} {args : List (Expr × List Lexeme)} :
    Phrase types .trailing callee ws → (∀ a ∈ args, Phrase types .assignment a.1 a.2) →
    Phrase types .trailing (.call span callee (args.map Prod.fst))
      (ws ++ parens ([symbol .comma].intercalate (args.map Prod.snd)))
  | member (span : Span) {object : Expr} (name : String) (throughPointer : Bool)
    {ws : List Lexeme} : Phrase types .trailing object ws →
    Phrase types .trailing (.member span object name throughPointer)
      (ws ++ [symbol (if throughPointer then .arrow else .dot), .identifier name])
  | behind (span : Span) {op : UnaryOp} {operand : Expr} {ws : List Lexeme} : op.trails = true →
    Phrase types .trailing operand ws →
    Phrase types .trailing (.unary span op operand) (ws ++ [symbol op.symbol])
  | before (span : Span) {op : UnaryOp} {operand : Expr} {ws : List Lexeme} : op.trails = false →
    Phrase types .unary operand ws →
    Phrase types .unary (.unary span op operand) (symbol op.symbol :: ws)
  | cast (span span' : Span) {spec : TypeSpec} (marks : List Bool) (reference : Bool)
    {operand : Expr} {ws : List Lexeme} : spec.IsBuiltin → Phrase types .unary operand ws →
    Phrase types .unary (.cast span spec (.mk span' marks reference .anonymous []) operand)
      (parens (ofType spec marks reference) ++ ws)
  | sizeofType (span span' : Span) {spec : TypeSpec} (marks : List Bool) (reference : Bool) :
    spec.IsBuiltin →
    Phrase types .unary (.sizeofType span spec (.mk span' marks reference .anonymous []))
      (keyword .sizeofWord :: parens (ofType spec marks reference))
  | chain (span : Span) (op : Chain) {left right : Expr} {ws vs : List Lexeme} :
    Phrase types op.level left ws → Phrase types op.level.next right vs →
    Phrase types op.level (op.join span left right) (ws ++ symbol op.symbol :: vs)
  | conditional (span : Span) {condition thenExpr elseExpr : Expr} {ws vs us : List Lexeme} :
    Phrase types .disjunction condition ws → Phrase types .expression thenExpr vs →
    Phrase types .assignment elseExpr us →
    Phrase types .assignment (.conditional span condition thenExpr elseExpr)
      (ws ++ symbol .question :: vs ++ symbol .colon :: us)
  | assign (span : Span) {op : Option BinaryOp} {x : Symbol} {target value : Expr}
    {ws vs : List Lexeme} : BinaryOp.assignSymbol? op = some x →
    Phrase types .disjunction target ws → Phrase types .assignment value vs →
    Phrase types .assignment (.assign span op target value) (ws ++ symbol x :: vs)
  | next {n : Level} {e : Expr} {ws : List Lexeme} : Phrase types n.next e ws → Phrase types n e ws

/-- A phrase of a level is a phrase of every looser level. -/
theorem Phrase.loosen {types : List String} {m n : Level} {e : Expr} {ws : List Lexeme}
    (h : Phrase types n e ws) (hmn : m.rank ≤ n.rank) : Phrase types m e ws := by
  by_cases heq : m.rank = n.rank
  · rwa [Level.rank_injective heq]
  · have hne : m ≠ .primary := by
      rintro rfl
      exact heq (Nat.le_antisymm hmn n.rank_le_rank_primary)
    have hnext := Level.rank_next hne
    exact .next (loosen h (by omega))
termination_by n.rank - m.rank

end Stepwise

/-! ## Streams by their lexemes

What a parsing routine decides depends on the lexemes of a stream and on the names known
as types, never on spans. A phrase ends where the next lexeme does not join on at its level.
-/

namespace Stepwise

section

variable {s t : Tokens} {α β : Type}

theorem Attempt.ok_bind (a : α) (f : α → Attempt β) : (Except.ok a >>= f) = f a := rfl

theorem since_ok (h : t.Shorter s) (p : Parsed t α) :
    since h (Except.ok p : Attempt (Parsed t α)) = .ok ⟨p.value, p.next, p.shorter.trans h⟩ := rfl

theorem since_some (h : t.Shorter s) (p : Parsed t α) :
    since h (some p) = some ⟨p.value, p.next, p.shorter.trans h⟩ := rfl

theorem since_none (h : t.Shorter s) : since h (none : Option (Parsed t α)) = none := rfl

end

theorem Lexeme.isSymbol_eq_false {l : Lexeme} {x : Symbol} (h : l ≠ .symbol x) :
    l.isSymbol x = false := by
  cases l with
  | symbol y => exact decide_eq_false fun hxy => h (by rw [hxy])
  | _ => rfl

namespace Tokens

/-- The stream holds the lexemes, and knows the names as types. -/
structure Holds (s : Tokens) (types : List String) (ls : List Lexeme) : Prop where
  lexemes : s.rest.map Token.lexeme = ls
  typeNames : s.typeNames = types

namespace Holds

variable {s : Tokens} {types : List String} {l : Lexeme} {ls : List Lexeme} {α : Type}
  {f : Lexeme → Option α}

theorem ahead_eq (h : s.Holds types ls) (n : Nat) : s.ahead n = ls[n]?.getD .endOfFile := by
  rw [← h.lexemes, List.getElem?_map]
  rfl

theorem peek_eq (h : s.Holds types (l :: ls)) : s.peek = l := h.ahead_eq 0

theorem sees_eq (h : s.Holds types (l :: ls)) (x : Symbol) : s.sees x = l.isSymbol x := by
  rw [sees, h.peek_eq]

theorem take?_eq_some (h : s.Holds types (l :: ls)) {a : α} (hf : f l = some a) :
    ∃ t ht, s.take? f = some ⟨a, t, ht⟩ ∧ t.Holds types ls := by
  obtain ⟨rest, finish, previous, typeNames⟩ := s
  obtain ⟨hl, htypes⟩ := h
  cases rest with
  | nil => cases hl
  | cons tok toks =>
    obtain ⟨rfl, hls⟩ := List.cons.inj hl
    refine ⟨⟨toks, finish, tok.span, typeNames⟩, by simp [Shorter], ?_, ⟨hls, htypes⟩⟩
    simp only [take?, hf, Option.map_some]

theorem take?_eq_none (h : s.Holds types ls) (hf : ∀ l ∈ ls.head?, f l = none) :
    s.take? f = none := by
  obtain ⟨rest, finish, previous, typeNames⟩ := s
  obtain ⟨rfl, -⟩ := h
  cases rest with
  | nil => rfl
  | cons tok toks => simp only [take?, hf tok.lexeme rfl, Option.map_none]

theorem take?_cons_eq_none (h : s.Holds types (l :: ls)) (hf : f l = none) : s.take? f = none :=
  h.take?_eq_none fun k hk => by rw [← Option.some.inj hk, hf]

theorem of_take?_eq_some (h : s.Holds types (l :: ls)) {p : Parsed s α}
    (heq : s.take? f = some p) : f l = some p.value ∧ p.next.Holds types ls := by
  cases hf : f l with
  | none => rw [h.take?_cons_eq_none hf] at heq; cases heq
  | some a =>
    obtain ⟨t, ht, htake, hh⟩ := h.take?_eq_some hf
    rw [htake] at heq
    cases heq
    exact ⟨rfl, hh⟩

theorem of_take?_eq_none (h : s.Holds types (l :: ls)) (heq : s.take? f = none) :
    f l = none := by
  cases hf : f l with
  | none => rfl
  | some a =>
    obtain ⟨t, ht, htake, -⟩ := h.take?_eq_some hf
    rw [htake] at heq
    cases heq

theorem accept?_eq_some {x : Symbol} (h : s.Holds types (.symbol x :: ls)) :
    ∃ t ht, s.accept? x = some ⟨(), t, ht⟩ ∧ t.Holds types ls :=
  h.take?_eq_some (by simp [Lexeme.isSymbol])

theorem accept?_eq_none (h : s.Holds types ls) {x : Symbol}
    (hx : ∀ l ∈ ls.head?, l ≠ .symbol x) : s.accept? x = none :=
  h.take?_eq_none fun l hl => by rw [Lexeme.isSymbol_eq_false (hx l hl)]; rfl

theorem accept?_cons_eq_none (h : s.Holds types (l :: ls)) {x : Symbol}
    (hl : l.isSymbol x = false) : s.accept? x = none :=
  h.take?_cons_eq_none (by rw [hl]; rfl)

theorem literal?_eq_none (h : s.Holds types (l :: ls)) (hl : l.literal? = none)
    (hl' : l.string? = none) : s.literal? = none := by
  rw [literal?, h.take?_cons_eq_none hl, h.take?_cons_eq_none hl']

theorem expect_eq {x : Symbol} (h : s.Holds types (.symbol x :: ls)) (role : String) :
    ∃ t ht, s.expect x role = .ok ⟨(), t, ht⟩ ∧ t.Holds types ls := by
  obtain ⟨t, ht, heq, hh⟩ := h.accept?_eq_some
  exact ⟨t, ht, by rw [expect, heq], hh⟩

end Holds

end Tokens

/-- The level at which a lexeme joins what stands before it to what follows. -/
def Lexeme.joins? (l : Lexeme) : Option Level := l.symbol?.bind Symbol.joins?

/-- A phrase of the level ends before the lexemes: only at a looser level do they go on with it. -/
def Level.Stops (n : Level) (ls : List Lexeme) : Prop :=
  ∀ l ∈ ls.head?, ∀ m ∈ l.joins?, m.rank < n.rank

namespace Level

variable {m n : Level} {l : Lexeme} {ls : List Lexeme} {x : Symbol}

theorem stops_nil (n : Level) : n.Stops [] := fun _ h => nomatch h

theorem Stops.mono (h : m.Stops ls) (hmn : m.rank ≤ n.rank) : n.Stops ls :=
  fun l hl k hk => Nat.lt_of_lt_of_le (h l hl k hk) hmn

theorem Stops.next (h : n.Stops ls) : n.next.Stops ls := h.mono n.rank_le_rank_next

/-- Symbols that close a phrase stop every level. -/
theorem stops_of_joins?_eq_none (hx : x.joins? = none) : n.Stops (.symbol x :: ls) := by
  intro l hl m hm
  obtain rfl := Option.some.inj hl
  rw [Lexeme.joins?, Lexeme.symbol?, Option.bind_some, hx] at hm
  cases hm

/-- An operator of a looser level stops a phrase. -/
theorem stops_of_joins? (hx : x.joins? = some m) (hmn : m.rank < n.rank) :
    n.Stops (.symbol x :: ls) := by
  intro l hl k hk
  obtain rfl := Option.some.inj hl
  rw [Lexeme.joins?, Lexeme.symbol?, Option.bind_some, hx] at hk
  rwa [← Option.some.inj hk]

/-- What a level goes on with does not follow a phrase that stops. -/
theorem Stops.ne_symbol (h : n.Stops ls) (hx : x.joins? = some m) (hnm : n.rank ≤ m.rank) :
    ∀ l ∈ ls.head?, l ≠ .symbol x := by
  rintro l hl rfl
  exact absurd (h _ hl m (by rw [Lexeme.joins?, Lexeme.symbol?, Option.bind_some, hx]; rfl))
    (Nat.not_lt.mpr hnm)

end Level

theorem Chain.joins?_symbol (op : Chain) : op.symbol.joins? = some op.level := by
  cases op with
  | binary op => cases op <;> rfl
  | _ => rfl

theorem BinaryOp.joins?_of_assignSymbol? {op : Option BinaryOp} {x : Symbol}
    (h : assignSymbol? op = some x) : x.joins? = some .assignment := by
  cases op with
  | none => cases h; rfl
  | some op => cases op <;> cases h <;> rfl

end Stepwise
