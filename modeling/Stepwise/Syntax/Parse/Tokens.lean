import Stepwise.Syntax.Tree
import Stepwise.Token.Lexer

/-! # Token streams

A stream holds the tokens that a parse has not consumed and the names known to be
types. A successful parse of a non-terminal returns a stream with fewer tokens,
which is what makes every parsing routine stop.
-/

namespace Stepwise

/-- What a parse lacked, or why there were no tokens to parse. -/
inductive ParseCause
  | lexical (cause : LexCause)
  | expected (what : String) (found : Lexeme)

structure ParseError where
  cause : ParseCause
  span : Span

namespace ParseError

def message (e : ParseError) : String :=
  match e.cause with
  | .lexical cause => cause.message
  | .expected what found => "Expected " ++ what ++ ", found " ++ found.describe

/-- The message with the place it points to. -/
def display (e : ParseError) : String :=
  "Parse error at line " ++ toString e.span.line ++ ", column " ++ toString e.span.column ++ ": "
    ++ e.message

end ParseError

/-- The tokens still to be parsed, without the one that marks the end of the text. -/
structure Tokens where
  rest : List Token
  /-- The span of the end of the text. -/
  finish : Span
  /-- The span of the token consumed last, or of the first token before any is consumed. -/
  previous : Span
  typeNames : List String

/-- `t` has fewer tokens than `s`. -/
abbrev Tokens.Shorter (t s : Tokens) : Prop := t.rest.length < s.rest.length

theorem Tokens.Shorter.trans {r t s : Tokens} (h : r.Shorter t) (h' : t.Shorter s) :
    r.Shorter s :=
  Nat.lt_trans h h'

/-- The value of a parse from `s`, and a stream with fewer tokens than `s`. -/
structure Parsed (s : Tokens) (α : Type) where
  value : α
  next : Tokens
  shorter : next.Shorter s

abbrev Attempt := Except ParseError

/-- A parse from `t`, taken as one from a longer stream `s`. -/
def Parsed.since {s t : Tokens} {α : Type} (h : t.Shorter s) (p : Parsed t α) : Parsed s α :=
  ⟨p.value, p.next, p.shorter.trans h⟩

/-- What may be parsed from `t`, taken as parsed from a longer stream `s`. -/
def since {m : Type → Type} [Functor m] {s t : Tokens} {α : Type} (h : t.Shorter s)
    (a : m (Parsed t α)) : m (Parsed s α) :=
  Parsed.since h <$> a

namespace Tokens

/-- The `n`-th lexeme from here. -/
def ahead (s : Tokens) (n : Nat) : Lexeme := (s.rest[n]?.map Token.lexeme).getD .endOfFile

def peek (s : Tokens) : Lexeme := s.ahead 0

/-- The span of the next token. -/
def current (s : Tokens) : Span := (s.rest.head?.map Token.span).getD s.finish

def atEnd (s : Tokens) : Bool := s.rest.isEmpty

/-- The span from the next token of `s` to the last token consumed before `t`. -/
def spanTo (s t : Tokens) : Span := s.current.through t.previous

def isType (s : Tokens) (name : String) : Bool := s.typeNames.contains name

def declareType (s : Tokens) (name : String) : Tokens :=
  { s with typeNames := name :: s.typeNames }

@[simp] theorem declareType_rest (s : Tokens) (name : String) :
    (s.declareType name).rest = s.rest := rfl

/-- Consumes the next token if `f` accepts its lexeme. -/
def take? {α : Type} (s : Tokens) (f : Lexeme → Option α) : Option (Parsed s α) :=
  match h : s.rest with
  | [] => none
  | t :: ts =>
    (f t.lexeme).map fun a => ⟨a, { s with rest := ts, previous := t.span }, by simp [h]⟩

def fail {α : Type} (s : Tokens) (what : String) : Attempt α :=
  .error ⟨.expected what s.peek, s.current⟩

end Tokens

namespace Lexeme

def isSymbol (x : Symbol) : Lexeme → Bool
  | symbol y => x = y
  | _ => false

def isKeyword (x : Keyword) : Lexeme → Bool
  | keyword y => x = y
  | _ => false

def identifier? : Lexeme → Option String
  | identifier name => some name
  | _ => none

def isIdentifier (l : Lexeme) : Bool := l.identifier?.isSome

end Lexeme

namespace Tokens

/-- Consumes the symbol `x` if it comes next. -/
def accept? (s : Tokens) (x : Symbol) : Option (Parsed s Unit) :=
  s.take? fun l => if l.isSymbol x then some () else none

/-- Consumes the keyword `x` if it comes next. -/
def acceptKeyword? (s : Tokens) (x : Keyword) : Option (Parsed s Unit) :=
  s.take? fun l => if l.isKeyword x then some () else none

def sees (s : Tokens) (x : Symbol) : Bool := s.peek.isSymbol x

/-- Consumes the symbol `x`, or fails with its name and `role`. -/
def expect (s : Tokens) (x : Symbol) (role : String) : Attempt (Parsed s Unit) :=
  match s.accept? x with
  | some p => .ok p
  | none => s.fail ("'" ++ String.ofList x.chars ++ "' " ++ role)

def expectKeyword (s : Tokens) (x : Keyword) (role : String) : Attempt (Parsed s Unit) :=
  match s.acceptKeyword? x with
  | some p => .ok p
  | none => s.fail ("'" ++ x.text ++ "' " ++ role)

def expectIdentifier (s : Tokens) : Attempt (Parsed s String) :=
  match s.take? Lexeme.identifier? with
  | some p => .ok p
  | none => s.fail "identifier"

/-- The further parts of a qualified name; `parts` holds those read so far, the last one first. -/
def pathTail (s₀ : Tokens) (parts : List String) (s : Tokens)
    (h : s.Shorter s₀) : Attempt (Parsed s₀ (List String)) :=
  match s.accept? .doubleColon with
  | none => .ok ⟨parts.reverse, s, h⟩
  | some ⟨_, s₁, h₁⟩ => do
    let ⟨part, s₂, h₂⟩ ← since h₁ <| s₁.expectIdentifier
    pathTail s₀ (part :: parts) s₂ (h₂.trans h)
termination_by s.rest.length

/-- A name such as `a::b::c`. -/
def path (s : Tokens) : Attempt (Parsed s (List String)) := do
  let ⟨first, s₁, h₁⟩ ← s.expectIdentifier
  pathTail s [first] s₁ h₁

/-- The next tokens start a declaration. -/
def startsDeclaration (s : Tokens) : Bool :=
  match s.peek with
  | .typeWord _ | .specifier _ | .keyword .structWord | .keyword .typedefWord => true
  | .identifier name =>
    s.isType name &&
      !([.doubleColon, .leftParen, .dot, .arrow, .assign].any fun x => (s.ahead 1).isSymbol x)
  | _ => false

/-- The token after an opening parenthesis begins a type. -/
def parenStartsType (s : Tokens) : Bool :=
  match s.ahead 1 with
  | .typeWord _ | .specifier _ | .keyword .structWord => true
  | .identifier name =>
    s.isType name &&
      [.rightParen, .star, .amp, .leftBracket].any fun x => (s.ahead 2).isSymbol x
  | _ => false

end Tokens

/-- One word of a type specifier that may follow `words`. -/
inductive SpecWord
  | specifier (word : String)
  | word (word : String)
  | structWord

namespace TypeSpec

def wordOf? (s : Tokens) (words : List String) : Lexeme → Option SpecWord
  | .specifier w => some (.specifier w)
  | .typeWord w => some (.word w)
  | .keyword .structWord => if words.isEmpty then some .structWord else none
  | .identifier name => if words.isEmpty && s.isType name then some (.word name) else none
  | _ => none

/-- The words of a type specifier from `s` on; those read so far come last one first. -/
def parseWords (s₀ : Tokens) (specifiers words : List String) (s : Tokens)
    (h : s.rest.length ≤ s₀.rest.length)
    (hw : words ≠ [] → s.Shorter s₀) : Attempt (Parsed s₀ TypeSpec) :=
  match s.take? (wordOf? s words) with
  | some ⟨.specifier w, s₁, h₁⟩ =>
    parseWords s₀ (w :: specifiers) words s₁ (by omega) fun _ => by omega
  | some ⟨.word w, s₁, h₁⟩ =>
    parseWords s₀ specifiers (w :: words) s₁ (by omega) fun _ => by omega
  | some ⟨.structWord, s₁, h₁⟩ => do
    let ⟨name, s₂, h₂⟩ ← since h₁ <| s₁.expectIdentifier
    parseWords s₀ specifiers (name :: words) s₂ (by omega) fun _ => by omega
  | none =>
    if hne : words = [] then s.fail "type name"
    else .ok ⟨⟨specifiers.reverse, words.reverse, s₀.spanTo s⟩, s, hw hne⟩
termination_by s.rest.length

/-- Specifiers and the words of a base type. -/
def parse (s : Tokens) : Attempt (Parsed s TypeSpec) := 
  parseWords s [] [] s (Nat.le_refl _) fun h => absurd rfl h

end TypeSpec

end Stepwise
