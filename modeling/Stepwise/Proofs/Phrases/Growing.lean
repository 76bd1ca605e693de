import Stepwise.Proofs.Phrases.Simulation
import Stepwise.Proofs.Syntax.Reading

/-! # Expressions on their own tokens

The tokens of an expression are a piece, and on this piece the expression is read again. A routine
other than the loosest one reads the piece to its end, so that the looser ones have nothing to add.
A loop has come to where it stands from the beginning of its expression, and on the piece it
comes to there too.
-/

namespace Stepwise

theorem Tokens.take?_of_rest_eq_nil {s : Tokens} {α : Type} (hs : s.rest = [])
    (f : Lexeme → Option α) : s.take? f = none := by
  obtain ⟨_, finish, previous, typeNames⟩ := s
  subst hs
  rfl

theorem Tokens.holds_of_rest_eq_nil {s : Tokens} (hs : s.rest = []) : s.Holds s.typeNames [] :=
  ⟨congrArg (List.map Token.lexeme) hs, rfl⟩

/-- What a level reads to the end is read by the looser level around it. -/
theorem Level.parse_of_next {n : Level} (hn : n.loops = true) {s : Tokens} {p : Parsed s Expr}
    (h : n.next.parse s = .ok p) (hp : p.next.rest = []) : n.parse s = .ok p := by
  rw [Level.parse_of_loops hn, h]
  exact Level.grow_of_stops (Tokens.holds_of_rest_eq_nil hp) n.stops_nil p.value p.shorter

namespace Parse

open Tokens

/-- A routine that parses an expression. -/
abbrev Routine := (s : Tokens) → Attempt (Parsed s Expr)

/-- A routine that lets an expression grow. -/
abbrev Loop := (s₀ : Tokens) → Expr → (s : Tokens) → s.Shorter s₀ → Attempt (Parsed s₀ Expr)

section Climbing

variable {s : Tokens} {p : Parsed s Expr}

theorem expression_of_assignment (h : assignment s = .ok p) (hp : p.next.rest = []) :
    expression s = .ok p :=
  Level.parse_of_next (n := .expression) rfl h hp

theorem expression_of_conditional (h : conditional s = .ok p) (hp : p.next.rest = []) :
    expression s = .ok p :=
  expression_of_assignment
    (assignment_of_conditional h (holds_of_rest_eq_nil hp) (Level.stops_nil _)) hp

theorem expression_of_disjunction (h : disjunction s = .ok p) (hp : p.next.rest = []) :
    expression s = .ok p :=
  expression_of_conditional (conditional_of_disjunction h (take?_of_rest_eq_nil hp _)) hp

theorem expression_of_conjunction (h : conjunction s = .ok p) (hp : p.next.rest = []) :
    expression s = .ok p :=
  expression_of_disjunction (Level.parse_of_next (n := .disjunction) rfl h hp) hp

theorem binaryTail_of_rest_eq_nil (least : Nat) (s₀ : Tokens) (e : Expr) (t : Tokens)
    (h : t.Shorter s₀) (ht : t.rest = []) : binaryTail least s₀ e t h = .ok ⟨e, t, h⟩ := by
  rw [binaryTail, Tokens.binaryOperator?, take?_of_rest_eq_nil ht]

theorem expression_of_binary {least : Nat} (h : binary least s = .ok p) (hp : p.next.rest = []) :
    expression s = .ok p := by
  induction least with
  | zero => exact expression_of_conjunction (Level.parse_of_next (n := .conjunction) rfl h hp) hp
  | succ least ih =>
    refine ih ?_
    rw [binary_climb, h]
    exact binaryTail_of_rest_eq_nil least s p.value p.next p.shorter hp

theorem expression_of_unary (h : unary s = .ok p) (hp : p.next.rest = []) :
    expression s = .ok p :=
  expression_of_binary ((binary_eight s).trans h) hp

end Climbing

variable {s s₀ t u : Tokens} {e d : Expr}

/-- On the tokens of the expression `e`, which begins at `s` and ends before `t`, parsing an
expression takes all of them and gives `e`. -/
def Reparses (s : Tokens) (e : Expr) (t : Tokens) : Prop :=
  ∀ (k : Piece) (s' : Tokens), k.Holds s' s → k.beyond = t.rest →
    ∃ p, expression s' = .ok p ∧ p.next.rest = [] ∧ e = p.value.move k.move

/-- The routine gives on a piece what it gave on the whole stream. -/
def Transfers (r : Routine) (s : Tokens) (v : Parsed s Expr) : Prop :=
  ∀ (k : Piece) (s' : Tokens), k.Holds s' s → k.beyond.length ≤ v.next.rest.length →
    ∃ v', r s' = .ok v' ∧ Alike k (Expr.move k.move) v' v

/-- From the beginning of a piece, the routine comes to where the loop lets `e` grow. -/
def Passes (r : Routine) (grow : Loop) (s₀ : Tokens) (e : Expr) (s : Tokens) : Prop :=
  ∀ (k : Piece) (s₀' : Tokens), k.Holds s₀' s₀ → k.beyond.length ≤ s.rest.length →
    ∃ e' s' h', k.Holds s' s ∧ e = e'.move k.move ∧ r s₀' = grow s₀' e' s' h'

theorem rest_eq_nil_of_holds {k : Piece} {t' : Tokens} (ht : k.Holds t' t)
    (hk : k.beyond = t.rest) : t'.rest = [] := by
  have hlen := ht.length
  rw [hk] at hlen
  exact List.eq_nil_of_length_eq_zero (by omega)

namespace Transfers

variable {r : Routine} {v : Parsed s Expr}

/-- What is read alike is an expression on its own tokens. -/
theorem reparses (h : Transfers r s v)
    (hr : ∀ k s', Piece.Holds k s' s → ∀ p, r s' = .ok p → p.next.rest = [] →
      expression s' = .ok p) : Reparses s v.value v.next := by
  intro k s' hs hk
  obtain ⟨p, hp, hnext, hvalue⟩ := h k s' hs (by rw [hk])
  have hnil := rest_eq_nil_of_holds hnext hk
  exact ⟨p, hr k s' hs p hp hnil, hnil, hvalue⟩

/-- A loop starts with what the tighter routine gives. -/
theorem passes (h : Transfers r s v) {r' : Routine} {grow : Loop}
    (hr : ∀ k s', Piece.Holds k s' s →
      r' s' = r s' >>= fun p => grow s' p.value p.next p.shorter) :
    Passes r' grow s v.value v.next := by
  intro k s' hs hle
  obtain ⟨p, hp, hnext, hvalue⟩ := h k s' hs hle
  refine ⟨p.value, p.next, p.shorter, hnext, hvalue, ?_⟩
  rw [hr k s' hs, hp]
  rfl

theorem of_assignment {v : Parsed s Expr} (hv : assignment s = .ok v) :
    Transfers assignment s v :=
  fun _ _ hs hle => (Call.carries (c := .assignment s) hv).2 (.assignment _) _ (.assignment hs) hle

theorem of_conditional {v : Parsed s Expr} (hv : conditional s = .ok v) :
    Transfers conditional s v :=
  fun _ _ hs hle =>
    (Call.carries (c := .conditional s) hv).2 (.conditional _) _ (.conditional hs) hle

theorem of_conjunction {v : Parsed s Expr} (hv : conjunction s = .ok v) :
    Transfers conjunction s v :=
  fun _ _ hs hle =>
    (Call.carries (c := .conjunction s) hv).2 (.conjunction _) _ (.conjunction hs) hle

theorem of_binary {least : Nat} {v : Parsed s Expr} (hv : binary least s = .ok v) :
    Transfers (binary least) s v :=
  fun _ _ hs hle =>
    (Call.carries (c := .binary least s) hv).2 (.binary least _) _ (.binary least hs) hle

theorem of_unary {v : Parsed s Expr} (hv : unary s = .ok v) : Transfers unary s v :=
  fun _ _ hs hle => (Call.carries (c := .unary s) hv).2 (.unary _) _ (.unary hs) hle

theorem of_primary {v : Parsed s Expr} (hv : primary s = .ok v) : Transfers primary s v :=
  fun _ _ hs hle => (Call.carries (c := .primary s) hv).2 (.primary _) _ (.primary hs) hle

end Transfers

namespace Passes

variable {r : Routine} {grow : Loop}

/-- An expression that a loop does not let grow any more has all its tokens. -/
theorem reparses (h : Passes r grow s₀ e s)
    (hgrow : ∀ s₀ e s h, s.rest = [] → grow s₀ e s h = .ok ⟨e, s, h⟩)
    (hr : ∀ (s' : Tokens) p, r s' = .ok p → p.next.rest = [] → expression s' = .ok p) :
    Reparses s₀ e s := by
  intro k s₀' hs₀ hk
  obtain ⟨e', s', h', hs, he, heq⟩ := h k s₀' hs₀ (by rw [hk])
  have hnil := rest_eq_nil_of_holds hs hk
  rw [hgrow _ _ _ _ hnil] at heq
  exact ⟨⟨e', s', h'⟩, hr s₀' _ heq hnil, hnil, he⟩

/-- One round of the loop on a piece that goes as far as this round does. -/
theorem step (h : Passes r grow s₀ e s) (hle : u.rest.length ≤ s.rest.length)
    (hstep : ∀ k s₀' e' s' h', Piece.Holds k s₀' s₀ → Piece.Holds k s' s →
      e = e'.move k.move → k.beyond.length ≤ u.rest.length →
      ∃ d' u' h'', k.Holds u' u ∧ d = d'.move k.move ∧ grow s₀' e' s' h' = grow s₀' d' u' h'') :
    Passes r grow s₀ d u := by
  intro k s₀' hs₀ hk
  obtain ⟨e', s', h', hs, he, heq⟩ := h k s₀' hs₀ (hk.trans hle)
  obtain ⟨d', u', h'', hu, hd, heq'⟩ := hstep k s₀' e' s' h' hs₀ hs he hk
  exact ⟨d', u', h'', hu, hd, heq.trans heq'⟩

/-- A loop joins what it has to what comes after an operator. -/
theorem join {α : Type} {f : Lexeme → Option α} {p : Parsed s α} {next : Routine}
    {v : Parsed p.next Expr} (join : Span → Expr → Expr → Expr) (h : Passes r grow s₀ e s)
    (hp : s.take? f = some p) (hv : Transfers next p.next v)
    (hmove : ∀ g sp a b, (join sp a b).move g = join (g sp) (a.move g) (b.move g))
    (hgrow : ∀ s₀ e s h (q : Parsed s α) (w : Parsed q.next Expr), s.take? f = some q →
      q.value = p.value → next q.next = .ok w → grow s₀ e s h =
        grow s₀ (join (s₀.spanTo w.next) e w.value) w.next (w.shorter.trans (q.shorter.trans h))) :
    Passes r grow s₀ (join (s₀.spanTo v.next) e v.value) v.next := by
  have hle := v.shorter
  refine h.step (Nat.le_of_lt (hle.trans p.shorter)) fun k s₀' e' s' h' hs₀' hs he hk => ?_
  obtain ⟨t', ht', htake, ht⟩ :=
    Piece.eq_some_of_offers (hs.take? f) hp (hk.trans (Nat.le_of_lt hle))
  obtain ⟨w, hw, hu, hvalue⟩ := hv k t' ht hk
  have hspan := hs₀'.spanTo_of_shorter hu (w.shorter.trans (ht'.trans h'))
  exact ⟨_, w.next, _, hu, by rw [hmove, hspan, he, hvalue],
    hgrow s₀' e' s' h' ⟨p.value, t', ht'⟩ w htake rfl hw⟩

end Passes

section Chains

theorem passes_expression {v : Parsed s Expr} (hv : assignment s = .ok v) :
    Passes expression commaTail s v.value v.next :=
  (Transfers.of_assignment hv).passes fun _ s' _ => Parse.expression.eq_def s'

theorem passes_disjunction {v : Parsed s Expr} (hv : conjunction s = .ok v) :
    Passes disjunction disjunctionTail s v.value v.next :=
  (Transfers.of_conjunction hv).passes fun _ s' _ => Parse.disjunction.eq_def s'

theorem passes_conjunction {v : Parsed s Expr} (hv : binary 0 s = .ok v) :
    Passes conjunction conjunctionTail s v.value v.next :=
  (Transfers.of_binary hv).passes fun _ s' _ => Parse.conjunction.eq_def s'

theorem passes_binary (least : Nat) {v : Parsed s Expr} (hv : unary s = .ok v) :
    Passes (binary least) (binaryTail least) s v.value v.next :=
  (Transfers.of_unary hv).passes fun _ s' _ => Parse.binary.eq_def least s'

theorem Passes.comma (h : Passes expression commaTail s₀ e s) {p : Parsed s Unit}
    (hp : s.accept? .comma = some p) {v : Parsed p.next Expr} (hv : assignment p.next = .ok v) :
    Passes expression commaTail s₀ (.comma (s₀.spanTo v.next) e v.value) v.next := by
  refine h.join .comma hp (.of_assignment hv) (fun _ _ _ _ => rfl) fun s₀ e s h q w hq _ hw => ?_
  rw [commaTail, Tokens.accept?, hq]
  simp only [hw, since_ok, Attempt.ok_bind]

theorem Passes.disjunction (h : Passes disjunction disjunctionTail s₀ e s) {p : Parsed s Unit}
    (hp : s.accept? .orOr = some p) {v : Parsed p.next Expr} (hv : conjunction p.next = .ok v) :
    Passes Parse.disjunction disjunctionTail s₀ (.logical (s₀.spanTo v.next) .or e v.value)
      v.next := by
  refine h.join (fun sp => Expr.logical sp .or) hp (.of_conjunction hv)
    (fun _ _ _ _ => rfl) fun s₀ e s h q w hq _ hw => ?_
  rw [disjunctionTail, Tokens.accept?, hq]
  simp only [hw, since_ok, Attempt.ok_bind]

theorem Passes.conjunction (h : Passes conjunction conjunctionTail s₀ e s) {p : Parsed s Unit}
    (hp : s.accept? .andAnd = some p) {v : Parsed p.next Expr} (hv : binary 0 p.next = .ok v) :
    Passes Parse.conjunction conjunctionTail s₀ (.logical (s₀.spanTo v.next) .and e v.value)
      v.next := by
  refine h.join (fun sp => Expr.logical sp .and) hp (.of_binary hv)
    (fun _ _ _ _ => rfl) fun s₀ e s h q w hq _ hw => ?_
  rw [conjunctionTail, Tokens.accept?, hq]
  simp only [hw, since_ok, Attempt.ok_bind]

theorem Passes.binary {least : Nat} (h : Passes (binary least) (binaryTail least) s₀ e s)
    {p : Parsed s (BinaryOp × Nat)} (hp : s.binaryOperator? least = some p)
    {v : Parsed p.next Expr} (hv : Parse.binary (p.value.2 + 1) p.next = .ok v) :
    Passes (Parse.binary least) (binaryTail least) s₀
      (.binary (s₀.spanTo v.next) p.value.1 e v.value) v.next := by
  refine h.join (fun sp => Expr.binary sp p.value.1) hp (.of_binary hv)
    (fun _ _ _ _ => rfl) fun s₀ e s h q w hq hvalue hw => ?_
  rw [binaryTail, Tokens.binaryOperator?, hq]
  simp only [hvalue, hw, since_ok, Attempt.ok_bind]

end Chains

section Trailing

/-- Where the stream stands, no leading operator, cast or `sizeof` begins an expression, on a piece
neither. -/
def Falls (s : Tokens) : Prop := ∀ k s', Piece.Holds k s' s → unary s' = trailing s'

theorem falls_of_none (hop : s.take? (fun l => l.symbol?.bind UnaryOp.ofLeadingSymbol?) = none)
    (hcast : (if s.parenStartsType then s.accept? .leftParen else none) = none)
    (hsizeof : s.acceptKeyword? .sizeofWord = none) : Falls s := by
  intro k s' hs
  have hcast' : (if s'.parenStartsType then s'.accept? .leftParen else none) = none := by
    obtain hoffers | ⟨-, q, hq⟩ := hs.typeParen
    · exact Piece.eq_none_of_offers hoffers hcast
    · rw [hcast] at hq
      cases hq
  rw [unary]
  simp only [Piece.eq_none_of_offers (hs.take? _) hop, hcast',
    Piece.eq_none_of_offers (hs.acceptKeyword? _) hsizeof]

theorem holds_of_sees {x : Symbol} (h : s.sees x = true) :
    ∃ ls, s.Holds s.typeNames (.symbol x :: ls) := by
  obtain ⟨_ | ⟨⟨lexeme, span⟩, toks⟩, finish, previous, types⟩ := s
  · cases h
  · cases lexeme with
    | symbol y =>
      obtain rfl : x = y := of_decide_eq_true h
      exact ⟨toks.map Token.lexeme, rfl, rfl⟩
    | _ => cases h

theorem falls_of_sees_leftBrace (h : s.sees .leftBrace = true) : Falls s := by
  obtain ⟨ls, hs⟩ := holds_of_sees h
  refine falls_of_none (hs.take?_cons_eq_none rfl) ?_ (hs.take?_cons_eq_none rfl)
  rw [hs.accept?_cons_eq_none rfl, ite_self]

theorem primary_of_braceList {items : List Initializer} {span : Span} {h : t.Shorter s}
    (hbrace : s.sees .leftBrace = true) (hitems : braceList s = .ok ⟨(items, span), t, h⟩) :
    primary s = .ok ⟨.list span items, t, h⟩ := by
  obtain ⟨ls, hs⟩ := holds_of_sees hbrace
  have hname : s.peek.isIdentifier = false := by rw [hs.peek_eq]; rfl
  have hcolons : s.accept? .doubleColon = none := hs.accept?_cons_eq_none rfl
  have hparen : s.accept? .leftParen = none := hs.accept?_cons_eq_none rfl
  rw [primary]
  simp only [hs.literal?_eq_none rfl rfl, hname, hcolons, hparen, hbrace, hitems, if_true,
    Attempt.ok_bind]
  rfl

theorem Falls.unary_of_primary (hfalls : Falls s) {k : Piece} {s' : Tokens} (hs : k.Holds s' s)
    {p : Parsed s' Expr} (h : primary s' = .ok p) (hp : p.next.rest = []) : unary s' = .ok p :=
  (hfalls k s' hs).trans (Level.parse_of_next (n := .trailing) rfl h hp)

theorem Falls.passes (hfalls : Falls s) {v : Parsed s Expr} (hv : primary s = .ok v) :
    Passes unary trailingTail s v.value v.next :=
  (Transfers.of_primary hv).passes fun k s' hs => (hfalls k s' hs).trans (trailing.eq_def s')

namespace Passes

theorem index (h : Passes unary trailingTail s₀ e s) {p : Parsed s Unit}
    (hp : s.accept? .leftBracket = some p) {v : Parsed p.next Expr}
    (hv : expression p.next = .ok v) {q : Parsed v.next Unit}
    (hq : v.next.expect .rightBracket "after index" = .ok q) :
    Passes unary trailingTail s₀ (.index (s₀.spanTo q.next) e v.value) q.next := by
  have hlt : q.next.rest.length < v.next.rest.length := q.shorter
  have hlt' : v.next.rest.length < p.next.rest.length := v.shorter
  have hlt'' : p.next.rest.length < s.rest.length := p.shorter
  refine h.step (by omega) fun k s₀' e' s' h' hs₀ hs he hk => ?_
  obtain ⟨t', ht', htake, ht⟩ := Piece.eq_some_of_offers (hs.accept? _) hp (by omega)
  obtain ⟨v', hv', hnext : k.Holds v'.next v.next, hvalue : v.value = _⟩ :=
    (Call.carries (c := .expression p.next) hv).2 (.expression t') _ (.expression ht) (by
      change k.beyond.length ≤ v.next.rest.length
      omega)
  obtain ⟨q', hq', -, hu⟩ := hnext.expect _ _ q hq hk
  have hu' := q'.shorter.trans (v'.shorter.trans (ht'.trans h'))
  have hspan := hs₀.spanTo_of_shorter hu hu'
  refine ⟨.index (s₀'.spanTo q'.next) e' v'.value, q'.next, hu', hu, ?_, ?_⟩
  · rw [Expr.move, hspan, he, hvalue]
  · have hindex : expression t' = .ok v' := hv'
    rw [trailingTail, htake]
    simp only [hindex, hq', since_ok, Attempt.ok_bind]

theorem call (h : Passes unary trailingTail s₀ e s) (hbracket : s.accept? .leftBracket = none)
    {p : Parsed s Unit} (hp : s.accept? .leftParen = some p) {v : Parsed s (List Expr)}
    (hv : argumentsTail s [] p.next p.shorter = .ok v) :
    Passes unary trailingTail s₀ (.call (s₀.spanTo v.next) e v.value) v.next := by
  have hle : v.next.rest.length ≤ p.next.rest.length :=
    Call.left_length_le (c := .argumentsTail s [] p.next p.shorter) hv
  refine h.step (Nat.le_of_lt v.shorter) fun k s₀' e' s' h' hs₀ hs he hk => ?_
  obtain ⟨t', ht', htake, ht⟩ := Piece.eq_some_of_offers (hs.accept? _) hp (hk.trans hle)
  obtain ⟨v', hv', hnext : k.Holds v'.next v.next, hvalue : v.value = _⟩ :=
    (Call.carries (c := .argumentsTail s [] p.next p.shorter) hv).2 (.argumentsTail s' [] t' ht') _
      (.argumentsTail (List.map_nil).symm hs ht) hk
  have hspan := hs₀.spanTo_of_shorter hnext (v'.shorter.trans h')
  refine ⟨.call (s₀'.spanTo v'.next) e' v'.value, v'.next, v'.shorter.trans h', hnext, ?_, ?_⟩
  · rw [Expr.move, Expr.moveAll_eq_map, hspan, he, hvalue]
  · have hargs : argumentsTail s' [] t' ht' = .ok v' := hv'
    rw [trailingTail, Piece.eq_none_of_offers (hs.accept? _) hbracket, htake]
    simp only [hargs, Attempt.ok_bind]

theorem member (h : Passes unary trailingTail s₀ e s) (hbracket : s.accept? .leftBracket = none)
    (hparen : s.accept? .leftParen = none) {p : Parsed s Bool}
    (hp : s.take? (fun l => if l.isSymbol .dot then some false
      else if l.isSymbol .arrow then some true else none) = some p)
    {q : Parsed p.next String} (hq : p.next.expectIdentifier = .ok q) :
    Passes unary trailingTail s₀ (.member (s₀.spanTo q.next) e q.value p.value) q.next := by
  have hlt : q.next.rest.length < p.next.rest.length := q.shorter
  refine h.step (Nat.le_of_lt (q.shorter.trans p.shorter)) fun k s₀' e' s' h' hs₀ hs he hk => ?_
  obtain ⟨t', ht', htake, ht⟩ := Piece.eq_some_of_offers (hs.take? _) hp (by omega)
  obtain ⟨q', hq', hname, hu⟩ := ht.expectIdentifier q hq hk
  have hu' := q'.shorter.trans (ht'.trans h')
  have hspan := hs₀.spanTo_of_shorter hu hu'
  refine ⟨.member (s₀'.spanTo q'.next) e' q'.value p.value, q'.next, hu', hu, ?_, ?_⟩
  · rw [Expr.move, hspan, he, hname]
  · rw [trailingTail, Piece.eq_none_of_offers (hs.accept? _) hbracket,
      Piece.eq_none_of_offers (hs.accept? _) hparen, htake]
    simp only [hq', since_ok, Attempt.ok_bind]

theorem behind (h : Passes unary trailingTail s₀ e s) (hbracket : s.accept? .leftBracket = none)
    (hparen : s.accept? .leftParen = none)
    (hmember : s.take? (fun l => if l.isSymbol .dot then some false
      else if l.isSymbol .arrow then some true else none) = none) {p : Parsed s UnaryOp}
    (hp : s.take? (fun l => l.symbol?.bind UnaryOp.ofTrailingSymbol?) = some p) :
    Passes unary trailingTail s₀ (.unary (s₀.spanTo p.next) p.value e) p.next := by
  refine h.step (Nat.le_of_lt p.shorter) fun k s₀' e' s' h' hs₀ hs he hk => ?_
  obtain ⟨t', ht', htake, ht⟩ := Piece.eq_some_of_offers (hs.take? _) hp hk
  have hspan := hs₀.spanTo_of_shorter ht (ht'.trans h')
  refine ⟨.unary (s₀'.spanTo t') p.value e', t', ht'.trans h', ht, by rw [Expr.move, hspan, he], ?_⟩
  rw [trailingTail, Piece.eq_none_of_offers (hs.accept? _) hbracket,
    Piece.eq_none_of_offers (hs.accept? _) hparen, Piece.eq_none_of_offers (hs.take? _) hmember,
    htake]

end Passes

end Trailing

namespace Reparses

variable {v : Parsed s Expr}

theorem of_assignment (hv : assignment s = .ok v) : Reparses s v.value v.next :=
  (Transfers.of_assignment hv).reparses fun _ _ _ _ => expression_of_assignment

theorem of_conditional (hv : conditional s = .ok v) : Reparses s v.value v.next :=
  (Transfers.of_conditional hv).reparses fun _ _ _ _ => expression_of_conditional

theorem of_unary (hv : unary s = .ok v) : Reparses s v.value v.next :=
  (Transfers.of_unary hv).reparses fun _ _ _ _ => expression_of_unary

theorem of_primary (hfalls : Falls s) (hv : primary s = .ok v) : Reparses s v.value v.next :=
  (Transfers.of_primary hv).reparses fun _ _ hs _ h hp =>
    expression_of_unary (hfalls.unary_of_primary hs h hp) hp

theorem of_braceList {items : List Initializer} {span : Span} {h : t.Shorter s}
    (hbrace : s.sees .leftBrace = true) (hitems : braceList s = .ok ⟨(items, span), t, h⟩) :
    Reparses s (.list span items) t :=
  of_primary (v := ⟨.list span items, t, h⟩) (falls_of_sees_leftBrace hbrace)
    (primary_of_braceList hbrace hitems)

theorem of_commaTail (h : Passes expression commaTail s₀ e s) : Reparses s₀ e s :=
  h.reparses (fun _ _ _ _ hs => by rw [commaTail, Tokens.accept?, take?_of_rest_eq_nil hs])
    fun _ _ h _ => h

theorem of_disjunctionTail (h : Passes disjunction disjunctionTail s₀ e s) : Reparses s₀ e s :=
  h.reparses (fun _ _ _ _ hs => by rw [disjunctionTail, Tokens.accept?, take?_of_rest_eq_nil hs])
    fun _ _ => expression_of_disjunction

theorem of_conjunctionTail (h : Passes conjunction conjunctionTail s₀ e s) : Reparses s₀ e s :=
  h.reparses (fun _ _ _ _ hs => by rw [conjunctionTail, Tokens.accept?, take?_of_rest_eq_nil hs])
    fun _ _ => expression_of_conjunction

theorem of_binaryTail {least : Nat} (h : Passes (binary least) (binaryTail least) s₀ e s) :
    Reparses s₀ e s :=
  h.reparses (binaryTail_of_rest_eq_nil least) fun _ _ => expression_of_binary

theorem of_trailingTail (h : Passes unary trailingTail s₀ e s) : Reparses s₀ e s :=
  h.reparses
    (fun _ e _ h hs => Level.grow_of_stops (n := .trailing) (holds_of_rest_eq_nil hs)
      (Level.stops_nil _) e h)
    fun _ _ => expression_of_unary

end Reparses

end Parse

end Stepwise
