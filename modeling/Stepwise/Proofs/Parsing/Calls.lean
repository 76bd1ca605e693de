import Stepwise.Syntax.Parse.Statement

/-! # Calls of the parsing routines

A call names a routine and what it is given: the stream it reads from and, for a routine that
goes on with a phrase, what the phrase holds so far. Loops are calls of themselves. Its script
is what the routine does up to the calls it makes; run with the answers of these, the script
gives the answer of the routine.
-/

namespace Stepwise

/-- The word of a specifier. -/
def Lexeme.specifier? : Lexeme → Option String
  | specifier w => some w
  | _ => none

/-- The expression that a name is: one part stands for itself. -/
def Expr.ofPath (span : Span) : List String → Expr
  | [name] => .identifier span name
  | parts => .qualified span parts

/-- The span of the last of the tokens, or `sp` where there are none. -/
def Token.lastSpan (sp : Span) (ts : List Token) : Span := (ts.getLast?.map Token.span).getD sp

namespace Tokens

theorem length_le_self (s : Tokens) : s.rest.length ≤ s.rest.length := Nat.le_refl _

theorem shorter_of_nil_ne (s : Tokens) : ([] : List String) ≠ [] → s.Shorter s :=
  fun h => absurd rfl h

namespace Shorter

variable {r s t u : Tokens}

theorem declareType (h : t.Shorter s) (name : String) : (t.declareType name).Shorter s := h

theorem trans_le (h : t.Shorter s) (hle : s.rest.length ≤ u.rest.length) : t.Shorter u :=
  Nat.lt_of_lt_of_le h hle

theorem le_trans (h : t.Shorter s) (hle : r.rest.length ≤ t.rest.length) : r.Shorter s :=
  Nat.lt_of_le_of_lt hle h

theorem le_le_trans (h : t.Shorter s) (hle : r.rest.length ≤ t.rest.length)
    (hle' : u.rest.length ≤ r.rest.length) : u.Shorter s :=
  (h.le_trans hle).le_trans hle'

theorem length_le (h : t.Shorter s) (hle : s.rest.length ≤ u.rest.length) :
    t.rest.length ≤ u.rest.length :=
  Nat.le_of_lt (h.trans_le hle)

theorem length_le_of_le (h : t.Shorter s) (hle : r.rest.length ≤ t.rest.length) :
    r.rest.length ≤ s.rest.length :=
  Nat.le_of_lt (h.le_trans hle)

/-- A stream from which words were read is shorter, whatever these are. -/
theorem after_words (h : t.Shorter s) (hle : s.rest.length ≤ u.rest.length) (ws : List String) :
    ws ≠ [] → t.Shorter u :=
  fun _ => h.trans_le hle

theorem after_word (h : t.Shorter s) (hle : s.rest.length ≤ u.rest.length) (w : String)
    (ws : List String) : w :: ws ≠ [] → t.Shorter u :=
  fun _ => h.trans_le hle

end Shorter

end Tokens

namespace Parse

/-- A call of a parsing routine. -/
inductive Call
  | pathTail (s₀ : Tokens) (parts : List String) (s : Tokens) (h : s.Shorter s₀)
  | path (s : Tokens)
  | words (s₀ : Tokens) (specifiers ws : List String) (s : Tokens)
    (h : s.rest.length ≤ s₀.rest.length) (hw : ws ≠ [] → s.Shorter s₀)
  | typeSpec (s : Tokens)
  | stringTail (s₀ : Tokens) (width : CharWidth) (text : String) (s : Tokens) (h : s.Shorter s₀)
  | pointerWords (s₀ : Tokens) (isConst : Bool) (s : Tokens) (h : s.Shorter s₀)
  | pointers (marks : List Bool) (s : Tokens)
  | expression (s : Tokens)
  | commaTail (s₀ : Tokens) (left : Expr) (s : Tokens) (h : s.Shorter s₀)
  | assignment (s : Tokens)
  | conditional (s : Tokens)
  | disjunction (s : Tokens)
  | disjunctionTail (s₀ : Tokens) (left : Expr) (s : Tokens) (h : s.Shorter s₀)
  | conjunction (s : Tokens)
  | conjunctionTail (s₀ : Tokens) (left : Expr) (s : Tokens) (h : s.Shorter s₀)
  | binary (least : Nat) (s : Tokens)
  | binaryTail (least : Nat) (s₀ : Tokens) (left : Expr) (s : Tokens) (h : s.Shorter s₀)
  | unary (s : Tokens)
  | trailing (s : Tokens)
  | trailingTail (s₀ : Tokens) (e : Expr) (s : Tokens) (h : s.Shorter s₀)
  | argumentsTail (s₀ : Tokens) (args : List Expr) (s : Tokens) (h : s.Shorter s₀)
  | primary (s : Tokens)
  | initializer (s : Tokens)
  | braceList (s : Tokens)
  | braceTail (s₀ : Tokens) (items : List Initializer) (s : Tokens) (h : s.Shorter s₀)
  | typeName (s : Tokens)
  | declarator (allowAbstract : Bool) (s₀ s : Tokens) (h : s.Shorter s₀)
  | suffixesTail (s₀ start : Tokens) (marks : List Bool) (reference : Bool)
    (base : DeclaratorBase) (suffixes : List DeclaratorSuffix) (s : Tokens) (h : s.Shorter s₀)
  | paramsTail (s₀ : Tokens) (params : List Param) (s : Tokens) (h : s.Shorter s₀)
  | defaultArgument (s₀ s : Tokens) (h : s.Shorter s₀)
  | initDeclarators (s₀ : Tokens) (earlier : List InitDeclarator) (d : Declarator) (s : Tokens)
    (h : s.Shorter s₀)
  | moreDeclarators (s₀ : Tokens) (earlier : List InitDeclarator) (s : Tokens) (h : s.Shorter s₀)
  | typedefTail (s₀ s : Tokens) (h : s.Shorter s₀)
  | usingTail (s₀ s : Tokens) (h : s.Shorter s₀)
  | optionalBefore (x : Symbol) (role : String) (s : Tokens)
  | compound (s : Tokens)
  | blockTail (s₀ : Tokens) (body : List Stmt) (s : Tokens) (h : s.Shorter s₀)
  | statement (s : Tokens)
  | forHead (s₀ s : Tokens) (h : s.Shorter s₀)
  | forClauses (s₀ : Tokens) (init : Option Stmt) (s : Tokens) (h : s.Shorter s₀)
  | external (s : Tokens)
  | namespaceTail (s₀ s : Tokens) (h : s.Shorter s₀)
  | structTail (s₀ : Tokens) (name : String) (members : List MemberDecl)
    (methods : List FunctionDef) (s : Tokens) (h : s.Shorter s₀)
  | program (s : Tokens)

namespace Call

/-- What a call gives if it succeeds. -/
abbrev Value : Call → Type
  | pathTail s₀ .. => Parsed s₀ (List String)
  | path s => Parsed s (List String)
  | words s₀ .. => Parsed s₀ TypeSpec
  | typeSpec s => Parsed s TypeSpec
  | stringTail s₀ .. => Parsed s₀ Literal
  | pointerWords s₀ .. => Parsed s₀ Bool
  | pointers _ s => List Bool × { t : Tokens // t.rest.length ≤ s.rest.length }
  | expression s => Parsed s Expr
  | commaTail s₀ .. => Parsed s₀ Expr
  | assignment s => Parsed s Expr
  | conditional s => Parsed s Expr
  | disjunction s => Parsed s Expr
  | disjunctionTail s₀ .. => Parsed s₀ Expr
  | conjunction s => Parsed s Expr
  | conjunctionTail s₀ .. => Parsed s₀ Expr
  | binary _ s => Parsed s Expr
  | binaryTail _ s₀ .. => Parsed s₀ Expr
  | unary s => Parsed s Expr
  | trailing s => Parsed s Expr
  | trailingTail s₀ .. => Parsed s₀ Expr
  | argumentsTail s₀ .. => Parsed s₀ (List Expr)
  | primary s => Parsed s Expr
  | initializer s => Parsed s Initializer
  | braceList s => Parsed s (List Initializer × Span)
  | braceTail s₀ .. => Parsed s₀ (List Initializer × Span)
  | typeName s => Parsed s (TypeSpec × Declarator)
  | declarator _ s₀ .. => Parsed s₀ Declarator
  | suffixesTail s₀ .. => Parsed s₀ Declarator
  | paramsTail s₀ .. => Parsed s₀ (List Param × Bool)
  | defaultArgument s₀ .. => Parsed s₀ (Option Expr)
  | initDeclarators s₀ .. => Parsed s₀ (List InitDeclarator)
  | moreDeclarators s₀ .. => Parsed s₀ (List InitDeclarator)
  | typedefTail s₀ .. => Parsed s₀ Stmt
  | usingTail s₀ .. => Parsed s₀ Stmt
  | optionalBefore _ _ s => Parsed s (Option Expr)
  | compound s => Parsed s Stmt
  | blockTail s₀ .. => Parsed s₀ (List Stmt)
  | statement s => Parsed s Stmt
  | forHead s₀ .. => Parsed s₀ Stmt
  | forClauses s₀ .. => Parsed s₀ Stmt
  | external s => Parsed s Stmt
  | namespaceTail s₀ .. => Parsed s₀ Unit
  | structTail s₀ .. => Parsed s₀ Stmt
  | program _ => List Stmt

/-- What the routine gives. -/
def answer : (c : Call) → Attempt c.Value
  | pathTail s₀ parts s h => Tokens.pathTail s₀ parts s h
  | path s => s.path
  | words s₀ specifiers ws s h hw => TypeSpec.parseWords s₀ specifiers ws s h hw
  | typeSpec s => TypeSpec.parse s
  | stringTail s₀ width text s h => .ok (Tokens.stringTail s₀ width text s h)
  | pointerWords s₀ isConst s h => .ok (Tokens.pointerWords s₀ isConst s h)
  | pointers marks s => .ok (Tokens.pointers marks s)
  | expression s => Parse.expression s
  | commaTail s₀ left s h => Parse.commaTail s₀ left s h
  | assignment s => Parse.assignment s
  | conditional s => Parse.conditional s
  | disjunction s => Parse.disjunction s
  | disjunctionTail s₀ left s h => Parse.disjunctionTail s₀ left s h
  | conjunction s => Parse.conjunction s
  | conjunctionTail s₀ left s h => Parse.conjunctionTail s₀ left s h
  | binary least s => Parse.binary least s
  | binaryTail least s₀ left s h => Parse.binaryTail least s₀ left s h
  | unary s => Parse.unary s
  | trailing s => Parse.trailing s
  | trailingTail s₀ e s h => Parse.trailingTail s₀ e s h
  | argumentsTail s₀ args s h => Parse.argumentsTail s₀ args s h
  | primary s => Parse.primary s
  | initializer s => Parse.initializer s
  | braceList s => Parse.braceList s
  | braceTail s₀ items s h => Parse.braceTail s₀ items s h
  | typeName s => Parse.typeName s
  | declarator allowAbstract s₀ s h => Parse.declarator allowAbstract s₀ s h
  | suffixesTail s₀ start marks reference base suffixes s h =>
    Parse.suffixesTail s₀ start marks reference base suffixes s h
  | paramsTail s₀ params s h => Parse.paramsTail s₀ params s h
  | defaultArgument s₀ s h => Parse.defaultArgument s₀ s h
  | initDeclarators s₀ earlier d s h => Parse.initDeclarators s₀ earlier d s h
  | moreDeclarators s₀ earlier s h => Parse.moreDeclarators s₀ earlier s h
  | typedefTail s₀ s h => Parse.typedefTail s₀ s h
  | usingTail s₀ s h => Parse.usingTail s₀ s h
  | optionalBefore x role s => Parse.optionalBefore x role s
  | compound s => Parse.compound s
  | blockTail s₀ body s h => Parse.blockTail s₀ body s h
  | statement s => Parse.statement s
  | forHead s₀ s h => Parse.forHead s₀ s h
  | forClauses s₀ init s h => Parse.forClauses s₀ init s h
  | external s => Parse.external s
  | namespaceTail s₀ s h => Parse.namespaceTail s₀ s h
  | structTail s₀ name members methods s h => Parse.structTail s₀ name members methods s h
  | program s => Parse.items s

/-- The stream that a call reads from. -/
def stream : Call → Tokens
  | pathTail _ _ s _ | path s | words _ _ _ s _ _ | typeSpec s | stringTail _ _ _ s _
  | pointerWords _ _ s _ | pointers _ s | expression s | commaTail _ _ s _ | assignment s
  | conditional s | disjunction s | disjunctionTail _ _ s _ | conjunction s
  | conjunctionTail _ _ s _ | binary _ s | binaryTail _ _ _ s _ | unary s | trailing s
  | trailingTail _ _ s _ | argumentsTail _ _ s _ | primary s | initializer s | braceList s
  | braceTail _ _ s _ | typeName s | declarator _ _ s _ | suffixesTail _ _ _ _ _ _ s _
  | paramsTail _ _ s _ | defaultArgument _ s _ | initDeclarators _ _ _ s _
  | moreDeclarators _ _ s _ | typedefTail _ s _ | usingTail _ s _ | optionalBefore _ _ s
  | compound s | blockTail _ _ s _ | statement s | forHead _ s _ | forClauses _ _ s _
  | external s | namespaceTail _ s _ | structTail _ _ _ _ s _ | program s => s

/-- The stream that a successful call leaves; parsing a program takes all its tokens. -/
def next : (c : Call) → c.Value → Tokens
  | pathTail .., v | path _, v | words .., v | typeSpec _, v | stringTail .., v
  | pointerWords .., v | expression _, v | commaTail .., v | assignment _, v
  | conditional _, v | disjunction _, v | disjunctionTail .., v | conjunction _, v
  | conjunctionTail .., v | binary .., v | binaryTail .., v | unary _, v | trailing _, v
  | trailingTail .., v | argumentsTail .., v | primary _, v | initializer _, v | braceList _, v
  | braceTail .., v | typeName _, v | declarator .., v | suffixesTail .., v
  | paramsTail .., v | defaultArgument .., v | initDeclarators .., v
  | moreDeclarators .., v | typedefTail .., v | usingTail .., v | optionalBefore .., v
  | compound _, v | blockTail .., v | statement _, v | forHead .., v | forClauses .., v
  | external _, v | namespaceTail .., v | structTail .., v => v.next
  | pointers .., v => v.2.1
  | program s, _ => { s with rest := [], previous := Token.lastSpan s.previous s.rest }

/-- The tokens that a successful call leaves. -/
abbrev left (c : Call) (v : c.Value) : List Token := (c.next v).rest

/-- The place of a routine in the grammar. A routine that calls another on the same tokens stands
above it. -/
def level : Call → Nat
  | pathTail .. | words .. | stringTail .. | pointerWords .. | pointers .. | commaTail ..
  | disjunctionTail .. | conjunctionTail .. | binaryTail .. | trailingTail .. | suffixesTail ..
  | defaultArgument .. => 0
  | path _ | typeSpec _ => 1
  | declarator .. => 2
  | typeName _ | paramsTail .. => 3
  | braceList _ => 4
  | primary _ => 5
  | trailing _ => 6
  | unary _ => 7
  | binary .. => 8
  | conjunction _ => 9
  | disjunction _ => 10
  | conditional _ => 11
  | assignment _ => 12
  | expression _ | argumentsTail .. => 13
  | initializer _ => 14
  | braceTail .. => 15
  | moreDeclarators .. => 16
  | initDeclarators .. => 17
  | typedefTail .. | usingTail .. | optionalBefore .. => 18
  | forClauses .. | compound _ => 19
  | structTail .. => 20
  | external _ => 21
  | statement _ | forHead .. | namespaceTail .. | program _ => 22
  | blockTail .. => 23

end Call

/-- What a routine does: it takes tokens, makes calls, and gives a value or fails. -/
inductive Script (α : Type) : Type
  | done (value : α)
  | fail (e : ParseError)
  | take (ts : List Token) (next : Script α)
  | call (c : Call) (next : c.Value → Script α)

namespace Script

variable {α β : Type}

/-- One script after the other. -/
def bind : Script α → (α → Script β) → Script β
  | done a, f => f a
  | fail e, _ => fail e
  | take ts p, f => take ts (p.bind f)
  | call c k, f => call c fun v => (k v).bind f

instance : Monad Script where
  pure := done
  bind := bind

/-- A call and nothing else. -/
def ask (c : Call) : Script c.Value := .call c .done

/-- Takes the tokens of `s` up to `t`. -/
def takeTo (s t : Tokens) : Script Unit :=
  take (s.rest.take (s.rest.length - t.rest.length)) (done ())

/-- Takes the tokens that were read, if there were any. -/
def offer {s : Tokens} : Option (Parsed s α) → Script (Option (Parsed s α))
  | none => done none
  | some p => do
    takeTo s p.next
    return some p

/-- Takes the tokens that were read, or fails. -/
def demand {s : Tokens} : Attempt (Parsed s α) → Script (Parsed s α)
  | .error e => fail e
  | .ok p => do
    takeTo s p.next
    return p

/-- The result of a script whose calls are answered. -/
def run : Script α → Attempt α
  | done a => .ok a
  | fail e => .error e
  | take _ p => p.run
  | call c k => c.answer.bind fun v => (k v).run

end Script

open Script

namespace Call

/-- What the routine that is called does. -/
def script : (c : Call) → Script c.Value
  | pathTail s₀ parts s h => do
    match ← offer (s.accept? .doubleColon) with
    | none => return ⟨parts.reverse, s, h⟩
    | some ⟨_, s₁, h₁⟩ =>
      let ⟨part, s₂, h₂⟩ ← since h₁ <| demand s₁.expectIdentifier
      ask (.pathTail s₀ (part :: parts) s₂ (h₂.trans h))
  | path s => do
    let ⟨first, s₁, h₁⟩ ← demand s.expectIdentifier
    ask (.pathTail s [first] s₁ h₁)
  | words s₀ specifiers ws s h hw => do
    match ← offer (s.take? (TypeSpec.wordOf? s ws)) with
    | some ⟨.specifier w, s₁, h₁⟩ =>
      ask (.words s₀ (w :: specifiers) ws s₁ (h₁.length_le h) (h₁.after_words h ws))
    | some ⟨.word w, s₁, h₁⟩ =>
      ask (.words s₀ specifiers (w :: ws) s₁ (h₁.length_le h) (h₁.after_word h w ws))
    | some ⟨.structWord, s₁, h₁⟩ =>
      let ⟨name, s₂, h₂⟩ ← since h₁ <| demand s₁.expectIdentifier
      ask (.words s₀ specifiers (name :: ws) s₂ (h₂.length_le h) (h₂.after_word h name ws))
    | none =>
      if hne : ws = [] then demand (s.fail "type name")
      else return ⟨⟨specifiers.reverse, ws.reverse, s₀.spanTo s⟩, s, hw hne⟩
  | typeSpec s => ask (.words s [] [] s s.length_le_self s.shorter_of_nil_ne)
  | stringTail s₀ width text s h => do
    match ← offer (s.take? Lexeme.string?) with
    | none => return ⟨.string text width, s, h⟩
    | some ⟨(more, _), s₁, h₁⟩ => ask (.stringTail s₀ width (text ++ more) s₁ (h₁.trans h))
  | pointerWords s₀ isConst s h => do
    match ← offer (s.take? Lexeme.specifier?) with
    | none => return ⟨isConst, s, h⟩
    | some ⟨w, s₁, h₁⟩ => ask (.pointerWords s₀ (isConst || w == "const") s₁ (h₁.trans h))
  | pointers marks s => do
    match ← offer (s.accept? .star) with
    | none => return (marks.reverse, ⟨s, s.length_le_self⟩)
    | some ⟨_, s₁, h₁⟩ =>
      let ⟨isConst, s₂, h₂⟩ ← ask (.pointerWords s false s₁ h₁)
      let (all, ⟨t, ht⟩) ← ask (.pointers (isConst :: marks) s₂)
      return (all, ⟨t, h₂.length_le_of_le ht⟩)
  | expression s => do
    let ⟨first, s₁, h₁⟩ ← ask (.assignment s)
    ask (.commaTail s first s₁ h₁)
  | commaTail s₀ left s h => do
    match ← offer (s.accept? .comma) with
    | none => return ⟨left, s, h⟩
    | some ⟨_, s₁, h₁⟩ =>
      let ⟨right, s₂, h₂⟩ ← since h₁ <| ask (.assignment s₁)
      ask (.commaTail s₀ (.comma (s₀.spanTo s₂) left right) s₂ (h₂.trans h))
  | assignment s => do
    let ⟨target, s₁, h₁⟩ ← ask (.conditional s)
    match since h₁ (← offer (s₁.take? fun l => l.symbol?.bind BinaryOp.ofAssignment?)) with
    | none => return ⟨target, s₁, h₁⟩
    | some ⟨op, s₂, h₂⟩ =>
      if s₂.sees .leftBrace then
        let ⟨(items, span), s₃, h₃⟩ ← since h₂ <| ask (.braceList s₂)
        return ⟨.assign (s.spanTo s₃) op target (.list span items), s₃, h₃⟩
      else
        let ⟨value, s₃, h₃⟩ ← since h₂ <| ask (.assignment s₂)
        return ⟨.assign (s.spanTo s₃) op target value, s₃, h₃⟩
  | conditional s => do
    let ⟨condition, s₁, h₁⟩ ← ask (.disjunction s)
    match since h₁ (← offer (s₁.accept? .question)) with
    | none => return ⟨condition, s₁, h₁⟩
    | some ⟨_, s₂, h₂⟩ =>
      let ⟨thenExpr, s₃, h₃⟩ ← since h₂ <| ask (.expression s₂)
      let ⟨_, s₄, h₄⟩ ← since h₃ <| demand (s₃.expect .colon "in ternary expression")
      let ⟨elseExpr, s₅, h₅⟩ ← since h₄ <| ask (.assignment s₄)
      return ⟨.conditional (s.spanTo s₅) condition thenExpr elseExpr, s₅, h₅⟩
  | disjunction s => do
    let ⟨first, s₁, h₁⟩ ← ask (.conjunction s)
    ask (.disjunctionTail s first s₁ h₁)
  | disjunctionTail s₀ left s h => do
    match ← offer (s.accept? .orOr) with
    | none => return ⟨left, s, h⟩
    | some ⟨_, s₁, h₁⟩ =>
      let ⟨right, s₂, h₂⟩ ← since h₁ <| ask (.conjunction s₁)
      ask (.disjunctionTail s₀ (.logical (s₀.spanTo s₂) .or left right) s₂ (h₂.trans h))
  | conjunction s => do
    let ⟨first, s₁, h₁⟩ ← ask (.binary 0 s)
    ask (.conjunctionTail s first s₁ h₁)
  | conjunctionTail s₀ left s h => do
    match ← offer (s.accept? .andAnd) with
    | none => return ⟨left, s, h⟩
    | some ⟨_, s₁, h₁⟩ =>
      let ⟨right, s₂, h₂⟩ ← since h₁ <| ask (.binary 0 s₁)
      ask (.conjunctionTail s₀ (.logical (s₀.spanTo s₂) .and left right) s₂ (h₂.trans h))
  | binary least s => do
    let ⟨first, s₁, h₁⟩ ← ask (.unary s)
    ask (.binaryTail least s first s₁ h₁)
  | binaryTail least s₀ left s h => do
    match ← offer (s.binaryOperator? least) with
    | none => return ⟨left, s, h⟩
    | some ⟨(op, level), s₁, h₁⟩ =>
      let ⟨right, s₂, h₂⟩ ← since h₁ <| ask (.binary (level + 1) s₁)
      ask (.binaryTail least s₀ (.binary (s₀.spanTo s₂) op left right) s₂ (h₂.trans h))
  | unary s => do
    match ← offer (s.take? fun l => l.symbol?.bind UnaryOp.ofLeadingSymbol?) with
    | some ⟨op, s₁, h₁⟩ =>
      let ⟨operand, s₂, h₂⟩ ← since h₁ <| ask (.unary s₁)
      return ⟨.unary (s.spanTo s₂) op operand, s₂, h₂⟩
    | none =>
      match ← offer (if s.parenStartsType then s.accept? .leftParen else none) with
      | some ⟨_, s₁, h₁⟩ =>
        let ⟨(spec, target), s₂, h₂⟩ ← since h₁ <| ask (.typeName s₁)
        let ⟨_, s₃, h₃⟩ ← since h₂ <| demand (s₂.expect .rightParen "after cast type")
        let ⟨operand, s₄, h₄⟩ ← since h₃ <| ask (.unary s₃)
        return ⟨.cast (s.spanTo s₄) spec target operand, s₄, h₄⟩
      | none =>
        match ← offer (s.acceptKeyword? .sizeofWord) with
        | some ⟨_, s₁, h₁⟩ =>
          let opening ← offer (if s₁.parenStartsType then s₁.accept? .leftParen else none)
          match since h₁ opening with
          | some ⟨_, s₂, h₂⟩ =>
            let ⟨(spec, target), s₃, h₃⟩ ← since h₂ <| ask (.typeName s₂)
            let ⟨_, s₄, h₄⟩ ← since h₃ <| demand (s₃.expect .rightParen "after sizeof type")
            return ⟨.sizeofType (s.spanTo s₄) spec target, s₄, h₄⟩
          | none =>
            let ⟨operand, s₂, h₂⟩ ← since h₁ <| ask (.unary s₁)
            return ⟨.sizeofExpr (s.spanTo s₂) operand, s₂, h₂⟩
        | none => ask (.trailing s)
  | trailing s => do
    let ⟨first, s₁, h₁⟩ ← ask (.primary s)
    ask (.trailingTail s first s₁ h₁)
  | trailingTail s₀ e s h => do
    match ← offer (s.accept? .leftBracket) with
    | some ⟨_, s₁, h₁⟩ =>
      let ⟨index, s₂, h₂⟩ ← since h₁ <| ask (.expression s₁)
      let ⟨_, s₃, h₃⟩ ← since h₂ <| demand (s₂.expect .rightBracket "after index")
      ask (.trailingTail s₀ (.index (s₀.spanTo s₃) e index) s₃ (h₃.trans h))
    | none =>
      match ← offer (s.accept? .leftParen) with
      | some ⟨_, s₁, h₁⟩ =>
        let ⟨args, s₂, h₂⟩ ← ask (.argumentsTail s [] s₁ h₁)
        ask (.trailingTail s₀ (.call (s₀.spanTo s₂) e args) s₂ (h₂.trans h))
      | none =>
        match ← offer (s.take? fun l => if l.isSymbol .dot then some false
            else if l.isSymbol .arrow then some true else none) with
        | some ⟨throughPointer, s₁, h₁⟩ =>
          let ⟨name, s₂, h₂⟩ ← since h₁ <| demand s₁.expectIdentifier
          ask (.trailingTail s₀ (.member (s₀.spanTo s₂) e name throughPointer) s₂ (h₂.trans h))
        | none =>
          match ← offer (s.take? fun l => l.symbol?.bind UnaryOp.ofTrailingSymbol?) with
          | some ⟨op, s₁, h₁⟩ =>
            ask (.trailingTail s₀ (.unary (s₀.spanTo s₁) op e) s₁ (h₁.trans h))
          | none => return ⟨e, s, h⟩
  | argumentsTail s₀ args s h => do
    if s.sees .rightParen then
      let ⟨_, s₁, h₁⟩ ← demand (s.expect .rightParen "after call arguments")
      return ⟨args.reverse, s₁, h₁.trans h⟩
    else
      let ⟨arg, s₁, h₁⟩ ← ask (.assignment s)
      match since h₁ (← offer (s₁.accept? .comma)) with
      | some ⟨_, s₂, h₂⟩ => ask (.argumentsTail s₀ (arg :: args) s₂ (h₂.trans h))
      | none =>
        let ⟨_, s₂, h₂⟩ ← since h₁ <| demand (s₁.expect .rightParen "after call arguments")
        return ⟨(arg :: args).reverse, s₂, h₂.trans h⟩
  | primary s => do
    match ← offer (s.take? Lexeme.literal?) with
    | some ⟨value, s₁, h₁⟩ => return ⟨.literal (s.spanTo s₁) value, s₁, h₁⟩
    | none =>
      match ← offer (s.take? Lexeme.string?) with
      | some ⟨(text, width), s₁, h₁⟩ =>
        let ⟨value, s₂, h₂⟩ ← ask (.stringTail s width text s₁ h₁)
        return ⟨.literal (s.spanTo s₂) value, s₂, h₂⟩
      | none =>
        if s.peek.isIdentifier then
          let ⟨parts, s₁, h₁⟩ ← ask (.path s)
          return ⟨Expr.ofPath (s.spanTo s₁) parts, s₁, h₁⟩
        else
          match ← offer (s.accept? .doubleColon) with
          | some ⟨_, s₁, h₁⟩ =>
            let ⟨parts, s₂, h₂⟩ ← since h₁ <| ask (.path s₁)
            return ⟨.qualified (s.spanTo s₂) parts, s₂, h₂⟩
          | none =>
            match ← offer (s.accept? .leftParen) with
            | some ⟨_, s₁, h₁⟩ =>
              let ⟨e, s₂, h₂⟩ ← since h₁ <| ask (.expression s₁)
              let ⟨_, s₃, h₃⟩ ← since h₂ <| demand (s₂.expect .rightParen "after expression")
              return ⟨e, s₃, h₃⟩
            | none =>
              if s.sees .leftBrace then
                let ⟨(items, span), s₁, h₁⟩ ← ask (.braceList s)
                return ⟨.list span items, s₁, h₁⟩
              else
                match ← offer (s.acceptKeyword? .staticCastWord) with
                | some ⟨_, s₁, h₁⟩ =>
                  let ⟨_, s₂, h₂⟩ ← since h₁ <| demand (s₁.expect .less "after 'static_cast'")
                  let ⟨(spec, target), s₃, h₃⟩ ← since h₂ <| ask (.typeName s₂)
                  let ⟨_, s₄, h₄⟩ ← since h₃ <| demand (s₃.expect .greater "after cast type")
                  let ⟨_, s₅, h₅⟩ ← since h₄ <|
                    demand (s₄.expect .leftParen "after static_cast type")
                  let ⟨operand, s₆, h₆⟩ ← since h₅ <| ask (.expression s₅)
                  let ⟨_, s₇, h₇⟩ ← since h₆ <|
                    demand (s₆.expect .rightParen "after static_cast operand")
                  return ⟨.cast (s.spanTo s₇) spec target operand, s₇, h₇⟩
                | none => demand (s.fail "expression")
  | initializer s => do
    if s.sees .leftBrace then
      let ⟨(items, span), s₁, h₁⟩ ← ask (.braceList s)
      return ⟨.list span items, s₁, h₁⟩
    else
      let ⟨e, s₁, h₁⟩ ← ask (.assignment s)
      return ⟨.expr e, s₁, h₁⟩
  | braceList s => do
    let ⟨_, s₁, h₁⟩ ← demand (s.expect .leftBrace "before initializer list")
    ask (.braceTail s [] s₁ h₁)
  | braceTail s₀ items s h => do
    if s.sees .rightBrace then
      let ⟨_, s₁, h₁⟩ ← demand (s.expect .rightBrace "after initializer list")
      return ⟨(items.reverse, s₀.spanTo s₁), s₁, h₁.trans h⟩
    else
      let ⟨item, s₁, h₁⟩ ← ask (.initializer s)
      match since h₁ (← offer (s₁.accept? .comma)) with
      | some ⟨_, s₂, h₂⟩ => ask (.braceTail s₀ (item :: items) s₂ (h₂.trans h))
      | none =>
        let ⟨_, s₂, h₂⟩ ← since h₁ <| demand (s₁.expect .rightBrace "after initializer list")
        return ⟨((item :: items).reverse, s₀.spanTo s₂), s₂, h₂.trans h⟩
  | typeName s => do
    let ⟨spec, s₁, h₁⟩ ← ask (.typeSpec s)
    let ⟨target, s₂, h₂⟩ ← ask (.declarator true s s₁ h₁)
    return ⟨(spec, target), s₂, h₂⟩
  | declarator allowAbstract s₀ s h => do
    let (marks, ⟨s₁, h₁⟩) ← ask (.pointers [] s)
    let (reference, ⟨s₂, h₂⟩) := s₁.skip .amp
    takeTo s₁ s₂
    have h' : s₂.Shorter s₀ := h.le_le_trans h₁ h₂
    match ← offer (s₂.take? Lexeme.identifier?) with
    | some ⟨name, s₃, h₃⟩ =>
      ask (.suffixesTail s₀ s marks reference (.named name) [] s₃ (h₃.trans h'))
    | none =>
      match ← offer (if s₂.opensDeclarator then s₂.accept? .leftParen else none) with
      | some ⟨_, s₃, h₃⟩ =>
        let ⟨inner, s₄, h₄⟩ ← ask (.declarator allowAbstract s₂ s₃ h₃)
        let ⟨_, s₅, h₅⟩ ← since h₄ <| demand (s₄.expect .rightParen "after nested declarator")
        ask (.suffixesTail s₀ s marks reference (.nested inner) [] s₅ (h₅.trans h'))
      | none =>
        if allowAbstract then ask (.suffixesTail s₀ s marks reference .anonymous [] s₂ h')
        else demand (s₂.fail "declarator")
  | suffixesTail s₀ start marks reference base suffixes s h => do
    match ← offer (s.accept? .leftBracket) with
    | some ⟨_, s₁, h₁⟩ =>
      match since h₁ (← offer (s₁.accept? .rightBracket)) with
      | some ⟨_, s₂, h₂⟩ =>
        ask (.suffixesTail s₀ start marks reference base (.array none :: suffixes) s₂
          (h₂.trans h))
      | none =>
        let ⟨size, s₂, h₂⟩ ← since h₁ <| ask (.expression s₁)
        let ⟨_, s₃, h₃⟩ ← since h₂ <| demand (s₂.expect .rightBracket "after array size")
        ask (.suffixesTail s₀ start marks reference base (.array (some size) :: suffixes) s₃
          (h₃.trans h))
    | none =>
      match ← offer (if base matches .anonymous then none else s.accept? .leftParen) with
      | some ⟨_, s₁, h₁⟩ =>
        let ⟨t, ht⟩ := s₁.skipVoid
        have ht : t.Shorter s := h₁.le_trans ht
        takeTo s₁ t
        let ⟨(params, variadic), s₂, h₂⟩ ← ask (.paramsTail s [] t ht)
        ask (.suffixesTail s₀ start marks reference base (.params params variadic :: suffixes) s₂
          (h₂.trans h))
      | none => return ⟨.mk (start.spanTo s) marks reference base suffixes.reverse, s, h⟩
  | paramsTail s₀ params s h => do
    if s.sees .rightParen then
      let ⟨_, s₁, h₁⟩ ← demand (s.expect .rightParen "after parameter list")
      return ⟨(params.reverse, false), s₁, h₁.trans h⟩
    else
      match ← offer (s.accept? .ellipsis) with
      | some ⟨_, s₁, h₁⟩ =>
        let ⟨_, s₂, h₂⟩ ← since h₁ <| demand (s₁.expect .rightParen "after parameter list")
        return ⟨(params.reverse, true), s₂, h₂.trans h⟩
      | none =>
        let ⟨spec, s₁, h₁⟩ ← ask (.typeSpec s)
        let ⟨decl, s₂, h₂⟩ ← ask (.declarator true s s₁ h₁)
        let ⟨value, s₃, h₃⟩ ← ask (.defaultArgument s s₂ h₂)
        let param := Param.mk (s.spanTo s₃) spec decl value
        match since h₃ (← offer (s₃.accept? .comma)) with
        | some ⟨_, s₄, h₄⟩ => ask (.paramsTail s₀ (param :: params) s₄ (h₄.trans h))
        | none =>
          let ⟨_, s₄, h₄⟩ ← since h₃ <| demand (s₃.expect .rightParen "after parameter list")
          return ⟨((param :: params).reverse, false), s₄, h₄.trans h⟩
  | defaultArgument s₀ s h => do
    match ← offer (s.accept? .assign) with
    | none => return ⟨none, s, h⟩
    | some ⟨_, s₁, h₁⟩ =>
      let ⟨value, s₂, h₂⟩ ← since h₁ <| ask (.assignment s₁)
      return ⟨some value, s₂, h₂.trans h⟩
  | initDeclarators s₀ earlier d s h => do
    match ← offer (s.accept? .assign) with
    | none => ask (.moreDeclarators s₀ (⟨d, none⟩ :: earlier) s h)
    | some ⟨_, s₁, h₁⟩ =>
      let ⟨value, s₂, h₂⟩ ← since h₁ <| ask (.initializer s₁)
      ask (.moreDeclarators s₀ (⟨d, some value⟩ :: earlier) s₂ (h₂.trans h))
  | moreDeclarators s₀ earlier s h => do
    match ← offer (s.accept? .comma) with
    | none => return ⟨earlier.reverse, s, h⟩
    | some ⟨_, s₁, h₁⟩ =>
      let ⟨d, s₂, h₂⟩ ← ask (.declarator false s s₁ h₁)
      ask (.initDeclarators s₀ earlier d s₂ (h₂.trans h))
  | typedefTail s₀ s h => do
    let ⟨spec, s₁, h₁⟩ ← ask (.typeSpec s)
    let ⟨first, s₂, h₂⟩ ← ask (.declarator false s s₁ h₁)
    let ⟨declarators, s₃, h₃⟩ ← ask (.initDeclarators s [] first s₂ h₂)
    let ⟨_, s₄, h₄⟩ ← since h₃ <| demand (s₃.expect .semicolon "after typedef")
    let names := declarators.filterMap fun d => d.declarator.name?
    return ⟨.typedef (s₀.spanTo s₄) ⟨spec, declarators⟩,
      { s₄ with typeNames := names ++ s₄.typeNames }, h₄.trans h⟩
  | usingTail s₀ s h => do
    match ← offer (s.acceptKeyword? .namespaceWord) with
    | some ⟨_, s₁, h₁⟩ =>
      let ⟨target, s₂, h₂⟩ ← since h₁ <| ask (.path s₁)
      let ⟨_, s₃, h₃⟩ ← since h₂ <| demand (s₂.expect .semicolon "after using")
      return ⟨.usingDirective (s₀.spanTo s₃) target, s₃, h₃.trans h⟩
    | none =>
      let ⟨target, s₁, h₁⟩ ← ask (.path s)
      let ⟨_, s₂, h₂⟩ ← since h₁ <| demand (s₁.expect .semicolon "after using")
      return ⟨.usingDeclaration (s₀.spanTo s₂) target, s₂, h₂.trans h⟩
  | optionalBefore x role s => do
    match ← offer (s.accept? x) with
    | some ⟨_, s₁, h₁⟩ => return ⟨none, s₁, h₁⟩
    | none =>
      let ⟨value, s₁, h₁⟩ ← ask (.expression s)
      let ⟨_, s₂, h₂⟩ ← since h₁ <| demand (s₁.expect x role)
      return ⟨some value, s₂, h₂⟩
  | compound s => do
    let ⟨_, s₁, h₁⟩ ← demand (s.expect .leftBrace "to open block")
    let ⟨body, s₂, h₂⟩ ← ask (.blockTail s [] s₁ h₁)
    return ⟨.compound (s.spanTo s₂) body, s₂, h₂⟩
  | blockTail s₀ body s h => do
    if s.sees .rightBrace || s.atEnd then
      let ⟨_, s₁, h₁⟩ ← demand (s.expect .rightBrace "after block")
      return ⟨body.reverse, s₁, h₁.trans h⟩
    else
      let ⟨item, s₁, h₁⟩ ← ask (.statement s)
      ask (.blockTail s₀ (item :: body) s₁ (h₁.trans h))
  | statement s => do
    if s.sees .leftBrace then ask (.compound s)
    else if s.peek.declKeyword?.isSome then ask (.external s)
    else
      match ← offer (s.take? Lexeme.stmtKeyword?) with
      | some ⟨.returnWord, s₁, h₁⟩ =>
        let ⟨value, s₂, h₂⟩ ← since h₁ <| ask (.optionalBefore .semicolon "after return" s₁)
        return ⟨.returnJump (s.spanTo s₂) value, s₂, h₂⟩
      | some ⟨.ifWord, s₁, h₁⟩ =>
        let ⟨_, s₂, h₂⟩ ← since h₁ <| demand (s₁.expect .leftParen "after 'if'")
        let ⟨condition, s₃, h₃⟩ ← since h₂ <| ask (.expression s₂)
        let ⟨_, s₄, h₄⟩ ← since h₃ <| demand (s₃.expect .rightParen "after if condition")
        let ⟨thenBranch, s₅, h₅⟩ ← since h₄ <| ask (.statement s₄)
        match since h₅ (← offer (s₅.acceptKeyword? .elseWord)) with
        | none => return ⟨.ifThen (s.spanTo s₅) condition thenBranch none, s₅, h₅⟩
        | some ⟨_, s₆, h₆⟩ =>
          let ⟨elseBranch, s₇, h₇⟩ ← since h₆ <| ask (.statement s₆)
          return ⟨.ifThen (s.spanTo s₇) condition thenBranch (some elseBranch), s₇, h₇⟩
      | some ⟨.whileWord, s₁, h₁⟩ =>
        let ⟨_, s₂, h₂⟩ ← since h₁ <| demand (s₁.expect .leftParen "after 'while'")
        let ⟨condition, s₃, h₃⟩ ← since h₂ <| ask (.expression s₂)
        let ⟨_, s₄, h₄⟩ ← since h₃ <| demand (s₃.expect .rightParen "after while condition")
        let ⟨body, s₅, h₅⟩ ← since h₄ <| ask (.statement s₄)
        return ⟨.whileLoop (s.spanTo s₅) condition body, s₅, h₅⟩
      | some ⟨.doWord, s₁, h₁⟩ =>
        let ⟨body, s₂, h₂⟩ ← since h₁ <| ask (.statement s₁)
        let ⟨_, s₃, h₃⟩ ← since h₂ <| demand (s₂.expectKeyword .whileWord "after do body")
        let ⟨_, s₄, h₄⟩ ← since h₃ <| demand (s₃.expect .leftParen "after 'while'")
        let ⟨condition, s₅, h₅⟩ ← since h₄ <| ask (.expression s₄)
        let ⟨_, s₆, h₆⟩ ← since h₅ <| demand (s₅.expect .rightParen "after do-while condition")
        let ⟨_, s₇, h₇⟩ ← since h₆ <| demand (s₆.expect .semicolon "after do-while")
        return ⟨.doWhile (s.spanTo s₇) body condition, s₇, h₇⟩
      | some ⟨.forWord, s₁, h₁⟩ =>
        let ⟨_, s₂, h₂⟩ ← since h₁ <| demand (s₁.expect .leftParen "after 'for'")
        ask (.forHead s s₂ h₂)
      | some ⟨.switchWord, s₁, h₁⟩ =>
        let ⟨_, s₂, h₂⟩ ← since h₁ <| demand (s₁.expect .leftParen "after 'switch'")
        let ⟨discriminant, s₃, h₃⟩ ← since h₂ <| ask (.expression s₂)
        let ⟨_, s₄, h₄⟩ ← since h₃ <| demand (s₃.expect .rightParen "after switch expression")
        let ⟨body, s₅, h₅⟩ ← since h₄ <| ask (.statement s₄)
        return ⟨.switch (s.spanTo s₅) discriminant body, s₅, h₅⟩
      | some ⟨.caseWord, s₁, h₁⟩ =>
        let ⟨value, s₂, h₂⟩ ← since h₁ <| ask (.conditional s₁)
        let ⟨_, s₃, h₃⟩ ← since h₂ <| demand (s₂.expect .colon "after case value")
        return ⟨.caseLabel (s.spanTo s₃) value, s₃, h₃⟩
      | some ⟨.defaultWord, s₁, h₁⟩ =>
        let ⟨_, s₂, h₂⟩ ← since h₁ <| demand (s₁.expect .colon "after 'default'")
        return ⟨.defaultLabel (s.spanTo s₂), s₂, h₂⟩
      | some ⟨.breakWord, s₁, h₁⟩ =>
        let ⟨_, s₂, h₂⟩ ← since h₁ <| demand (s₁.expect .semicolon "after 'break'")
        return ⟨.breakJump (s.spanTo s₂), s₂, h₂⟩
      | some ⟨.continueWord, s₁, h₁⟩ =>
        let ⟨_, s₂, h₂⟩ ← since h₁ <| demand (s₁.expect .semicolon "after 'continue'")
        return ⟨.continueJump (s.spanTo s₂), s₂, h₂⟩
      | some ⟨.gotoWord, s₁, h₁⟩ =>
        let ⟨target, s₂, h₂⟩ ← since h₁ <| demand s₁.expectIdentifier
        let ⟨_, s₃, h₃⟩ ← since h₂ <| demand (s₂.expect .semicolon "after 'goto'")
        return ⟨.gotoJump (s.spanTo s₃) target, s₃, h₃⟩
      | none =>
        match ← offer s.label? with
        | some ⟨name, s₁, h₁⟩ => return ⟨.label (s.spanTo s₁) name, s₁, h₁⟩
        | none =>
          if s.startsDeclaration then ask (.external s)
          else
            match ← offer (s.accept? .semicolon) with
            | some ⟨_, s₁, h₁⟩ => return ⟨.expression (s.spanTo s₁) none, s₁, h₁⟩
            | none =>
              let ⟨value, s₁, h₁⟩ ← ask (.expression s)
              let ⟨_, s₂, h₂⟩ ← since h₁ <| demand (s₁.expect .semicolon "after expression")
              return ⟨.expression (s.spanTo s₂) (some value), s₂, h₂⟩
  | forHead s₀ s h => do
    match ← offer (s.accept? .semicolon) with
    | some ⟨_, s₁, h₁⟩ => ask (.forClauses s₀ none s₁ (h₁.trans h))
    | none =>
      if s.startsDeclaration then
        let ⟨spec, s₁, h₁⟩ ← ask (.typeSpec s)
        let ⟨d, s₂, h₂⟩ ← ask (.declarator false s s₁ h₁)
        match since h₂ (← offer (s₂.accept? .colon)) with
        | some ⟨_, s₃, h₃⟩ =>
          let ⟨range, s₄, h₄⟩ ← since h₃ <| ask (.expression s₃)
          let ⟨_, s₅, h₅⟩ ← since h₄ <| demand (s₄.expect .rightParen "after range-for clause")
          let ⟨body, s₆, h₆⟩ ← since h₅ <| ask (.statement s₅)
          return ⟨.forEach (s₀.spanTo s₆) spec d range body, s₆, h₆.trans h⟩
        | none =>
          let ⟨declarators, s₃, h₃⟩ ← ask (.initDeclarators s [] d s₂ h₂)
          let ⟨_, s₄, h₄⟩ ← since h₃ <| demand (s₃.expect .semicolon "after for init")
          ask (.forClauses s₀ (some (.declaration (s.spanTo s₄) ⟨spec, declarators⟩)) s₄
            (h₄.trans h))
      else
        let ⟨value, s₁, h₁⟩ ← ask (.expression s)
        let ⟨_, s₂, h₂⟩ ← since h₁ <| demand (s₁.expect .semicolon "after for init")
        ask (.forClauses s₀ (some (.expression (s.spanTo s₂) (some value))) s₂ (h₂.trans h))
  | forClauses s₀ init s h => do
    let ⟨condition, s₁, h₁⟩ ← ask (.optionalBefore .semicolon "after for condition" s)
    let ⟨step, s₂, h₂⟩ ← since h₁ <| ask (.optionalBefore .rightParen "after for clauses" s₁)
    let ⟨body, s₃, h₃⟩ ← since h₂ <| ask (.statement s₂)
    return ⟨.forLoop (s₀.spanTo s₃) init condition step body, s₃, h₃.trans h⟩
  | external s => do
    match ← offer (s.take? Lexeme.declKeyword?) with
    | some ⟨.usingWord, s₁, h₁⟩ => ask (.usingTail s s₁ h₁)
    | some ⟨.typedefWord, s₁, h₁⟩ => ask (.typedefTail s s₁ h₁)
    | some ⟨.namespaceWord, s₁, h₁⟩ =>
      let ⟨name, s₂, h₂⟩ ← since h₁ <| demand s₁.expectIdentifier
      match since h₂ (← offer (s₂.accept? .assign)) with
      | some ⟨_, s₃, h₃⟩ =>
        let ⟨target, s₄, h₄⟩ ← since h₃ <| ask (.path s₃)
        let ⟨_, s₅, h₅⟩ ← since h₄ <| demand (s₄.expect .semicolon "after namespace alias")
        return ⟨.namespaceAlias (s.spanTo s₅) name target, s₅, h₅⟩
      | none =>
        let ⟨_, s₃, h₃⟩ ← since h₂ <| demand (s₂.expect .leftBrace "after namespace name")
        let ⟨_, s₄, h₄⟩ ← ask (.namespaceTail s s₃ h₃)
        return ⟨.namespaceDef (s.spanTo s₄) name, s₄, h₄⟩
    | none =>
      match ← offer s.structHead? with
      | some ⟨name, s₁, h₁⟩ =>
        let ⟨_, s₂, h₂⟩ ← since (h₁.declareType name) <|
          demand ((s₁.declareType name).expect .leftBrace "after struct name")
        ask (.structTail s name [] [] s₂ h₂)
      | none =>
        let ⟨spec, s₁, h₁⟩ ← ask (.typeSpec s)
        match since h₁ (← offer (s₁.accept? .semicolon)) with
        | some ⟨_, s₂, h₂⟩ => return ⟨.declaration (s.spanTo s₂) ⟨spec, []⟩, s₂, h₂⟩
        | none =>
          let ⟨d, s₂, h₂⟩ ← ask (.declarator false s s₁ h₁)
          if d.functionParams?.isSome && s₂.sees .leftBrace then
            let ⟨body, s₃, h₃⟩ ← since h₂ <| ask (.compound s₂)
            return ⟨.function (s.spanTo s₃) (.mk spec d body), s₃, h₃⟩
          else
            let ⟨declarators, s₃, h₃⟩ ← ask (.initDeclarators s [] d s₂ h₂)
            let ⟨_, s₄, h₄⟩ ← since h₃ <| demand (s₃.expect .semicolon "after declaration")
            return ⟨.declaration (s.spanTo s₄) ⟨spec, declarators⟩, s₄, h₄⟩
  | namespaceTail s₀ s h => do
    if s.sees .rightBrace || s.atEnd then
      let ⟨_, s₁, h₁⟩ ← demand (s.expect .rightBrace "after namespace body")
      return ⟨(), s₁, h₁.trans h⟩
    else
      let ⟨_, s₁, h₁⟩ ← ask (.external s)
      ask (.namespaceTail s₀ s₁ (h₁.trans h))
  | structTail s₀ name members methods s h => do
    if s.sees .rightBrace || s.atEnd then
      let ⟨_, s₁, h₁⟩ ← demand (s.expect .rightBrace "after struct body")
      let ⟨_, s₂, h₂⟩ ← since h₁ <| demand (s₁.expect .semicolon "after struct definition")
      return ⟨.struct (s₀.spanTo s₂) name members.reverse methods.reverse, s₂, h₂.trans h⟩
    else
      match ← offer s.skipAccess? with
      | some ⟨_, s₁, h₁⟩ => ask (.structTail s₀ name members methods s₁ (h₁.trans h))
      | none =>
        let ⟨spec, s₁, h₁⟩ ← ask (.typeSpec s)
        let ⟨d, s₂, h₂⟩ ← ask (.declarator false s s₁ h₁)
        if d.functionParams?.isSome && s₂.sees .leftBrace then
          let ⟨body, s₃, h₃⟩ ← since h₂ <| ask (.compound s₂)
          ask (.structTail s₀ name members (.mk spec d body :: methods) s₃ (h₃.trans h))
        else
          let ⟨declarators, s₃, h₃⟩ ← ask (.initDeclarators s [] d s₂ h₂)
          let ⟨_, s₄, h₄⟩ ← since h₃ <| demand (s₃.expect .semicolon "after struct member")
          let more := declarators.map fun d => MemberDecl.mk spec d.declarator d.init
          ask (.structTail s₀ name (more.reverse ++ members) methods s₄ (h₄.trans h))
  | program s => do
    if s.atEnd then return []
    else
      match ← offer (s.accept? .semicolon) with
      | some ⟨_, s₁, _⟩ => ask (.program s₁)
      | none =>
        let ⟨item, s₁, _⟩ ← ask (.external s)
        let more ← ask (.program s₁)
        return item :: more

end Call

end Parse

end Stepwise
