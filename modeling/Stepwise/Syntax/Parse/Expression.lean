import Stepwise.Syntax.Parse.Tokens

/-! # Parsing expressions and declarators

Recursive descent without backtracking. Each routine reads its non-terminal from
a stream and returns a shorter one; a routine that calls another on the same
stream stands above it in the grammar, which the second part of each termination
measure records. Routines named `…Tail` extend a phrase that began at `s₀`.
-/

namespace Stepwise

namespace BinaryOp

/-- The operator that a symbol writes, and how tightly it binds. -/
def ofSymbol? : Symbol → Option (BinaryOp × Nat)
  | .pipe => some (bitOr, 0)
  | .caret => some (bitXor, 1)
  | .amp => some (bitAnd, 2)
  | .equal => some (eq, 3)
  | .notEqual => some (ne, 3)
  | .less => some (lt, 4)
  | .lessEqual => some (le, 4)
  | .greater => some (gt, 4)
  | .greaterEqual => some (ge, 4)
  | .shiftLeft => some (shl, 5)
  | .shiftRight => some (shr, 5)
  | .plus => some (add, 6)
  | .minus => some (sub, 6)
  | .star => some (mul, 7)
  | .slash => some (div, 7)
  | .percent => some (rem, 7)
  | _ => none

/-- The operator that an assignment symbol applies before it stores; plain `=` has none. -/
def ofAssignment? : Symbol → Option (Option BinaryOp)
  | .assign => some none
  | .plusAssign => some add
  | .minusAssign => some sub
  | .starAssign => some mul
  | .slashAssign => some div
  | .percentAssign => some rem
  | .ampAssign => some bitAnd
  | .pipeAssign => some bitOr
  | .caretAssign => some bitXor
  | .shiftLeftAssign => some shl
  | .shiftRightAssign => some shr
  | _ => none

end BinaryOp

namespace UnaryOp

def ofLeadingSymbol? : Symbol → Option UnaryOp
  | .minus => some neg
  | .plus => some plus
  | .bang => some not
  | .tilde => some bitNot
  | .star => some deref
  | .amp => some addrOf
  | .increment => some preInc
  | .decrement => some preDec
  | _ => none

def ofTrailingSymbol? : Symbol → Option UnaryOp
  | .increment => some postInc
  | .decrement => some postDec
  | _ => none

end UnaryOp

namespace Lexeme

def symbol? : Lexeme → Option Symbol
  | symbol x => some x
  | _ => none

/-- The literal that a single token writes; string literals may continue over several. -/
def literal? : Lexeme → Option Literal
  | int value radix unsigned long => some (.int value radix unsigned long)
  | float value single => some (.float value single)
  | char code width => some (.char code width)
  | keyword .trueWord => some (.bool true)
  | keyword .falseWord => some (.bool false)
  | keyword .nullWord => some .null
  | _ => none

def string? : Lexeme → Option (String × CharWidth)
  | string text width => some (text, width)
  | _ => none

end Lexeme

namespace Tokens

/-- The operator that comes next, if it binds at least as tightly as `least`. -/
def binaryOperator? (s : Tokens) (least : Nat) : Option (Parsed s (BinaryOp × Nat)) :=
  s.take? fun l => (l.symbol?.bind BinaryOp.ofSymbol?).filter fun (_, level) => least ≤ level

/-- Adjacent string literals are one; the first gives its character set. -/
def stringTail (s₀ : Tokens) (width : CharWidth) (text : String) (s : Tokens)
    (h : s.Shorter s₀) : Parsed s₀ Literal :=
  match s.take? Lexeme.string? with
  | none => ⟨.string text width, s, h⟩
  | some ⟨(more, _), s₁, h₁⟩ => stringTail s₀ width (text ++ more) s₁ (h₁.trans h)
termination_by s.rest.length

def literal? (s : Tokens) : Option (Parsed s Literal) :=
  match s.take? Lexeme.literal? with
  | some p => some p
  | none =>
    match s.take? Lexeme.string? with
    | some ⟨(text, width), s₁, h₁⟩ => some (stringTail s width text s₁ h₁)
    | none => none

/-- A parenthesis here opens a nested declarator, not a parameter list. -/
def opensDeclarator (s : Tokens) : Bool :=
  s.sees .leftParen &&
    ((s.ahead 1).isSymbol .star || (s.ahead 1).isSymbol .amp ||
      ((s.ahead 1).isIdentifier && (s.ahead 2).isSymbol .rightParen))

/-- The words after a pointer mark, and whether one of them is `const`. -/
def pointerWords (s₀ : Tokens) (isConst : Bool) (s : Tokens)
    (h : s.Shorter s₀) : Parsed s₀ Bool :=
  match s.take? fun l => match l with | .specifier w => some w | _ => none with
  | none => ⟨isConst, s, h⟩
  | some ⟨w, s₁, h₁⟩ => pointerWords s₀ (isConst || w == "const") s₁ (h₁.trans h)
termination_by s.rest.length

/-- The pointer marks from here on; those read so far come last one first. -/
def pointers (marks : List Bool) (s : Tokens) :
    List Bool × { t : Tokens // t.rest.length ≤ s.rest.length } :=
  match s.accept? .star with
  | none => (marks.reverse, ⟨s, Nat.le_refl _⟩)
  | some ⟨_, s₁, h₁⟩ =>
    let ⟨isConst, s₂, h₂⟩ := pointerWords s false s₁ h₁
    let (all, ⟨t, ht⟩) := pointers (isConst :: marks) s₂
    (all, ⟨t, by omega⟩)
termination_by s.rest.length

/-- Consumes the symbol `x` if it comes next, and says whether it did. -/
def skip (s : Tokens) (x : Symbol) : Bool × { t : Tokens // t.rest.length ≤ s.rest.length } :=
  match s.accept? x with
  | none => (false, ⟨s, Nat.le_refl _⟩)
  | some ⟨_, t, h⟩ => (true, ⟨t, Nat.le_of_lt h⟩)

/-- Skips `void` where it stands for an empty parameter list. -/
def skipVoid (s : Tokens) : { t : Tokens // t.rest.length ≤ s.rest.length } :=
  if (s.ahead 1).isSymbol .rightParen then
    match s.take? fun l => match l with | .typeWord "void" => some () | _ => none with
    | some ⟨_, t, h⟩ => ⟨t, Nat.le_of_lt h⟩
    | none => ⟨s, Nat.le_refl _⟩
  else ⟨s, Nat.le_refl _⟩

end Tokens

namespace Parse

mutual

/-- An expression, the comma operator included. -/
def expression (s : Tokens) : Attempt (Parsed s Expr) := do
  let ⟨first, s₁, h₁⟩ ← assignment s
  commaTail s first s₁ h₁
termination_by 16 * s.rest.length + 13

def commaTail (s₀ : Tokens) (left : Expr) (s : Tokens) (h : s.Shorter s₀) :
    Attempt (Parsed s₀ Expr) :=
  match s.accept? .comma with
  | none => .ok ⟨left, s, h⟩
  | some ⟨_, s₁, h₁⟩ => do
    let ⟨right, s₂, h₂⟩ ← since h₁ <| assignment s₁
    commaTail s₀ (.comma (s₀.spanTo s₂) left right) s₂ (h₂.trans h)
termination_by 16 * s.rest.length

/-- An assignment, which groups to the right, or a conditional expression. -/
def assignment (s : Tokens) : Attempt (Parsed s Expr) := do
  let ⟨target, s₁, h₁⟩ ← conditional s
  match since h₁ <| s₁.take? fun l => l.symbol?.bind BinaryOp.ofAssignment? with
  | none => .ok ⟨target, s₁, h₁⟩
  | some ⟨op, s₂, h₂⟩ =>
    if s₂.sees .leftBrace then
      let ⟨(items, span), s₃, h₃⟩ ← since h₂ <| braceList s₂
      .ok ⟨.assign (s.spanTo s₃) op target (.list span items), s₃, h₃⟩
    else
      let ⟨value, s₃, h₃⟩ ← since h₂ <| assignment s₂
      .ok ⟨.assign (s.spanTo s₃) op target value, s₃, h₃⟩
termination_by 16 * s.rest.length + 12

def conditional (s : Tokens) : Attempt (Parsed s Expr) := do
  let ⟨condition, s₁, h₁⟩ ← disjunction s
  match since h₁ <| s₁.accept? .question with
  | none => .ok ⟨condition, s₁, h₁⟩
  | some ⟨_, s₂, h₂⟩ =>
    let ⟨thenExpr, s₃, h₃⟩ ← since h₂ <| expression s₂
    let ⟨_, s₄, h₄⟩ ← since h₃ <| s₃.expect .colon "in ternary expression"
    let ⟨elseExpr, s₅, h₅⟩ ← since h₄ <| assignment s₄
    .ok ⟨.conditional (s.spanTo s₅) condition thenExpr elseExpr, s₅, h₅⟩
termination_by 16 * s.rest.length + 11

/-- A chain of `||`. -/
def disjunction (s : Tokens) : Attempt (Parsed s Expr) := do
  let ⟨first, s₁, h₁⟩ ← conjunction s
  disjunctionTail s first s₁ h₁
termination_by 16 * s.rest.length + 10

def disjunctionTail (s₀ : Tokens) (left : Expr) (s : Tokens)
    (h : s.Shorter s₀) : Attempt (Parsed s₀ Expr) :=
  match s.accept? .orOr with
  | none => .ok ⟨left, s, h⟩
  | some ⟨_, s₁, h₁⟩ => do
    let ⟨right, s₂, h₂⟩ ← since h₁ <| conjunction s₁
    disjunctionTail s₀ (.logical (s₀.spanTo s₂) .or left right) s₂ (h₂.trans h)
termination_by 16 * s.rest.length

/-- A chain of `&&`. -/
def conjunction (s : Tokens) : Attempt (Parsed s Expr) := do
  let ⟨first, s₁, h₁⟩ ← binary 0 s
  conjunctionTail s first s₁ h₁
termination_by 16 * s.rest.length + 9

def conjunctionTail (s₀ : Tokens) (left : Expr) (s : Tokens)
    (h : s.Shorter s₀) : Attempt (Parsed s₀ Expr) :=
  match s.accept? .andAnd with
  | none => .ok ⟨left, s, h⟩
  | some ⟨_, s₁, h₁⟩ => do
    let ⟨right, s₂, h₂⟩ ← since h₁ <| binary 0 s₁
    conjunctionTail s₀ (.logical (s₀.spanTo s₂) .and left right) s₂ (h₂.trans h)
termination_by 16 * s.rest.length

/-- Binary operators that bind at least as tightly as `least` and group to the left. -/
def binary (least : Nat) (s : Tokens) : Attempt (Parsed s Expr) := do
  let ⟨first, s₁, h₁⟩ ← unary s
  binaryTail least s first s₁ h₁
termination_by 16 * s.rest.length + 8

def binaryTail (least : Nat) (s₀ : Tokens) (left : Expr) (s : Tokens)
    (h : s.Shorter s₀) : Attempt (Parsed s₀ Expr) :=
  match s.binaryOperator? least with
  | none => .ok ⟨left, s, h⟩
  | some ⟨(op, level), s₁, h₁⟩ => do
    let ⟨right, s₂, h₂⟩ ← since h₁ <| binary (level + 1) s₁
    binaryTail least s₀ (.binary (s₀.spanTo s₂) op left right) s₂ (h₂.trans h)
termination_by 16 * s.rest.length

/-- Leading operators, casts and `sizeof`. -/
def unary (s : Tokens) : Attempt (Parsed s Expr) :=
  match s.take? fun l => l.symbol?.bind UnaryOp.ofLeadingSymbol? with
  | some ⟨op, s₁, h₁⟩ => do
    let ⟨operand, s₂, h₂⟩ ← since h₁ <| unary s₁
    .ok ⟨.unary (s.spanTo s₂) op operand, s₂, h₂⟩
  | none =>
    match if s.parenStartsType then s.accept? .leftParen else none with
    | some ⟨_, s₁, h₁⟩ => do
      let ⟨(spec, target), s₂, h₂⟩ ← since h₁ <| typeName s₁
      let ⟨_, s₃, h₃⟩ ← since h₂ <| s₂.expect .rightParen "after cast type"
      let ⟨operand, s₄, h₄⟩ ← since h₃ <| unary s₃
      .ok ⟨.cast (s.spanTo s₄) spec target operand, s₄, h₄⟩
    | none =>
      match s.acceptKeyword? .sizeofWord with
      | some ⟨_, s₁, h₁⟩ =>
        match since h₁ <| if s₁.parenStartsType then s₁.accept? .leftParen else none with
        | some ⟨_, s₂, h₂⟩ => do
          let ⟨(spec, target), s₃, h₃⟩ ← since h₂ <| typeName s₂
          let ⟨_, s₄, h₄⟩ ← since h₃ <| s₃.expect .rightParen "after sizeof type"
          .ok ⟨.sizeofType (s.spanTo s₄) spec target, s₄, h₄⟩
        | none => do
          let ⟨operand, s₂, h₂⟩ ← since h₁ <| unary s₁
          .ok ⟨.sizeofExpr (s.spanTo s₂) operand, s₂, h₂⟩
      | none => trailing s
termination_by 16 * s.rest.length + 7

/-- A primary expression with the indices, calls, members and steps that follow it. -/
def trailing (s : Tokens) : Attempt (Parsed s Expr) := do
  let ⟨first, s₁, h₁⟩ ← primary s
  trailingTail s first s₁ h₁
termination_by 16 * s.rest.length + 6

def trailingTail (s₀ : Tokens) (e : Expr) (s : Tokens) (h : s.Shorter s₀) :
    Attempt (Parsed s₀ Expr) :=
  match s.accept? .leftBracket with
  | some ⟨_, s₁, h₁⟩ => do
    let ⟨index, s₂, h₂⟩ ← since h₁ <| expression s₁
    let ⟨_, s₃, h₃⟩ ← since h₂ <| s₂.expect .rightBracket "after index"
    trailingTail s₀ (.index (s₀.spanTo s₃) e index) s₃ (h₃.trans h)
  | none =>
    match s.accept? .leftParen with
    | some ⟨_, s₁, h₁⟩ => do
      let ⟨args, s₂, h₂⟩ ← argumentsTail s [] s₁ h₁
      trailingTail s₀ (.call (s₀.spanTo s₂) e args) s₂ (h₂.trans h)
    | none =>
      match s.take? fun l => if l.isSymbol .dot then some false
          else if l.isSymbol .arrow then some true else none with
      | some ⟨throughPointer, s₁, h₁⟩ => do
        let ⟨name, s₂, h₂⟩ ← since h₁ <| s₁.expectIdentifier
        trailingTail s₀ (.member (s₀.spanTo s₂) e name throughPointer) s₂ (h₂.trans h)
      | none =>
        match s.take? fun l => l.symbol?.bind UnaryOp.ofTrailingSymbol? with
        | some ⟨op, s₁, h₁⟩ => trailingTail s₀ (.unary (s₀.spanTo s₁) op e) s₁ (h₁.trans h)
        | none => .ok ⟨e, s, h⟩
termination_by 16 * s.rest.length

/-- The arguments of a call up to its closing parenthesis; a comma may precede that. -/
def argumentsTail (s₀ : Tokens) (args : List Expr) (s : Tokens)
    (h : s.Shorter s₀) : Attempt (Parsed s₀ (List Expr)) := do
  if s.sees .rightParen then
    let ⟨_, s₁, h₁⟩ ← s.expect .rightParen "after call arguments"
    .ok ⟨args.reverse, s₁, h₁.trans h⟩
  else
    let ⟨arg, s₁, h₁⟩ ← assignment s
    match since h₁ <| s₁.accept? .comma with
    | some ⟨_, s₂, h₂⟩ => argumentsTail s₀ (arg :: args) s₂ (h₂.trans h)
    | none =>
      let ⟨_, s₂, h₂⟩ ← since h₁ <| s₁.expect .rightParen "after call arguments"
      .ok ⟨(arg :: args).reverse, s₂, h₂.trans h⟩
termination_by 16 * s.rest.length + 13

/-- Literals, names, parenthesised expressions, brace lists and `static_cast`. A parenthesised
expression keeps the span between the parentheses. -/
def primary (s : Tokens) : Attempt (Parsed s Expr) :=
  match s.literal? with
  | some ⟨value, s₁, h₁⟩ => .ok ⟨.literal (s.spanTo s₁) value, s₁, h₁⟩
  | none =>
    if s.peek.isIdentifier then do
      let ⟨parts, s₁, h₁⟩ ← s.path
      match parts with
      | [name] => .ok ⟨.identifier (s.spanTo s₁) name, s₁, h₁⟩
      | _ => .ok ⟨.qualified (s.spanTo s₁) parts, s₁, h₁⟩
    else
      match s.accept? .doubleColon with
      | some ⟨_, s₁, h₁⟩ => do
        let ⟨parts, s₂, h₂⟩ ← since h₁ <| s₁.path
        .ok ⟨.qualified (s.spanTo s₂) parts, s₂, h₂⟩
      | none =>
        match s.accept? .leftParen with
        | some ⟨_, s₁, h₁⟩ => do
          let ⟨e, s₂, h₂⟩ ← since h₁ <| expression s₁
          let ⟨_, s₃, h₃⟩ ← since h₂ <| s₂.expect .rightParen "after expression"
          .ok ⟨e, s₃, h₃⟩
        | none =>
          if s.sees .leftBrace then do
            let ⟨(items, span), s₁, h₁⟩ ← braceList s
            .ok ⟨.list span items, s₁, h₁⟩
          else
            match s.acceptKeyword? .staticCastWord with
            | some ⟨_, s₁, h₁⟩ => do
              let ⟨_, s₂, h₂⟩ ← since h₁ <| s₁.expect .less "after 'static_cast'"
              let ⟨(spec, target), s₃, h₃⟩ ← since h₂ <| typeName s₂
              let ⟨_, s₄, h₄⟩ ← since h₃ <| s₃.expect .greater "after cast type"
              let ⟨_, s₅, h₅⟩ ← since h₄ <| s₄.expect .leftParen "after static_cast type"
              let ⟨operand, s₆, h₆⟩ ← since h₅ <| expression s₅
              let ⟨_, s₇, h₇⟩ ← since h₆ <| s₆.expect .rightParen "after static_cast operand"
              .ok ⟨.cast (s.spanTo s₇) spec target operand, s₇, h₇⟩
            | none => s.fail "expression"
termination_by 16 * s.rest.length + 5

/-- What follows the `=` of a declaration. -/
def initializer (s : Tokens) : Attempt (Parsed s Initializer) := do
  if s.sees .leftBrace then
    let ⟨(items, span), s₁, h₁⟩ ← braceList s
    .ok ⟨.list span items, s₁, h₁⟩
  else
    let ⟨e, s₁, h₁⟩ ← assignment s
    .ok ⟨.expr e, s₁, h₁⟩
termination_by 16 * s.rest.length + 14

/-- A list of initializers in braces, with its span. -/
def braceList (s : Tokens) : Attempt (Parsed s (List Initializer × Span)) := do
  let ⟨_, s₁, h₁⟩ ← s.expect .leftBrace "before initializer list"
  braceTail s [] s₁ h₁
termination_by 16 * s.rest.length + 4

def braceTail (s₀ : Tokens) (items : List Initializer) (s : Tokens)
    (h : s.Shorter s₀) : Attempt (Parsed s₀ (List Initializer × Span)) := do
  if s.sees .rightBrace then
    let ⟨_, s₁, h₁⟩ ← s.expect .rightBrace "after initializer list"
    .ok ⟨(items.reverse, s₀.spanTo s₁), s₁, h₁.trans h⟩
  else
    let ⟨item, s₁, h₁⟩ ← initializer s
    match since h₁ <| s₁.accept? .comma with
    | some ⟨_, s₂, h₂⟩ => braceTail s₀ (item :: items) s₂ (h₂.trans h)
    | none =>
      let ⟨_, s₂, h₂⟩ ← since h₁ <| s₁.expect .rightBrace "after initializer list"
      .ok ⟨((item :: items).reverse, s₀.spanTo s₂), s₂, h₂.trans h⟩
termination_by 16 * s.rest.length + 15

/-- A type in expression position. -/
def typeName (s : Tokens) : Attempt (Parsed s (TypeSpec × Declarator)) := do
  let ⟨spec, s₁, h₁⟩ ← TypeSpec.parse s
  let ⟨target, s₂, h₂⟩ ← declarator true s s₁ h₁
  .ok ⟨(spec, target), s₂, h₂⟩
termination_by 16 * s.rest.length + 3

/-- A declarator after a phrase that began at `s₀`; an abstract one may be empty. -/
def declarator (allowAbstract : Bool) (s₀ s : Tokens) (h : s.Shorter s₀) :
    Attempt (Parsed s₀ Declarator) :=
  let (marks, ⟨s₁, h₁⟩) := s.pointers []
  let (reference, ⟨s₂, h₂⟩) := s₁.skip .amp
  have h' : s₂.Shorter s₀ := by omega
  match s₂.take? Lexeme.identifier? with
  | some ⟨name, s₃, h₃⟩ =>
    suffixesTail s₀ s marks reference (.named name) [] s₃ (h₃.trans h')
  | none =>
    match if s₂.opensDeclarator then s₂.accept? .leftParen else none with
    | some ⟨_, s₃, h₃⟩ => do
      let ⟨inner, s₄, h₄⟩ ← declarator allowAbstract s₂ s₃ h₃
      let ⟨_, s₅, h₅⟩ ← since h₄ <| s₄.expect .rightParen "after nested declarator"
      suffixesTail s₀ s marks reference (.nested inner) [] s₅ (h₅.trans h')
    | none =>
      if allowAbstract then suffixesTail s₀ s marks reference .anonymous [] s₂ h'
      else s₂.fail "declarator"
termination_by 16 * s.rest.length + 2

/-- Array bounds and parameter lists after the base of a declarator that began at `start`. -/
def suffixesTail (s₀ start : Tokens) (marks : List Bool) (reference : Bool)
    (base : DeclaratorBase) (suffixes : List DeclaratorSuffix) (s : Tokens)
    (h : s.Shorter s₀) : Attempt (Parsed s₀ Declarator) :=
  match s.accept? .leftBracket with
  | some ⟨_, s₁, h₁⟩ =>
    match since h₁ <| s₁.accept? .rightBracket with
    | some ⟨_, s₂, h₂⟩ =>
      suffixesTail s₀ start marks reference base (.array none :: suffixes) s₂ (h₂.trans h)
    | none => do
      let ⟨size, s₂, h₂⟩ ← since h₁ <| expression s₁
      let ⟨_, s₃, h₃⟩ ← since h₂ <| s₂.expect .rightBracket "after array size"
      suffixesTail s₀ start marks reference base (.array (some size) :: suffixes) s₃ (h₃.trans h)
  | none =>
    match if base matches .anonymous then none else s.accept? .leftParen with
    | some ⟨_, s₁, h₁⟩ => do
      let ⟨t, ht⟩ := s₁.skipVoid
      let ⟨(params, variadic), s₂, h₂⟩ ← paramsTail s [] t (by omega)
      suffixesTail s₀ start marks reference base (.params params variadic :: suffixes) s₂
        (h₂.trans h)
    | none =>
      .ok ⟨.mk (start.spanTo s) marks reference base suffixes.reverse, s, h⟩
termination_by 16 * s.rest.length

/-- Parameters up to the closing parenthesis, and whether an ellipsis ends them. -/
def paramsTail (s₀ : Tokens) (params : List Param) (s : Tokens)
    (h : s.Shorter s₀) : Attempt (Parsed s₀ (List Param × Bool)) := do
  if s.sees .rightParen then
    let ⟨_, s₁, h₁⟩ ← s.expect .rightParen "after parameter list"
    .ok ⟨(params.reverse, false), s₁, h₁.trans h⟩
  else
    match s.accept? .ellipsis with
    | some ⟨_, s₁, h₁⟩ =>
      let ⟨_, s₂, h₂⟩ ← since h₁ <| s₁.expect .rightParen "after parameter list"
      .ok ⟨(params.reverse, true), s₂, h₂.trans h⟩
    | none =>
      let ⟨spec, s₁, h₁⟩ ← TypeSpec.parse s
      let ⟨decl, s₂, h₂⟩ ← declarator true s s₁ h₁
      let ⟨value, s₃, h₃⟩ ← defaultArgument s s₂ h₂
      let param := Param.mk (s.spanTo s₃) spec decl value
      match since h₃ <| s₃.accept? .comma with
      | some ⟨_, s₄, h₄⟩ => paramsTail s₀ (param :: params) s₄ (h₄.trans h)
      | none =>
        let ⟨_, s₄, h₄⟩ ← since h₃ <| s₃.expect .rightParen "after parameter list"
        .ok ⟨((param :: params).reverse, false), s₄, h₄.trans h⟩
termination_by 16 * s.rest.length + 3

/-- The default value of a parameter, if one is given. -/
def defaultArgument (s₀ s : Tokens) (h : s.Shorter s₀) :
    Attempt (Parsed s₀ (Option Expr)) :=
  match s.accept? .assign with
  | none => .ok ⟨none, s, h⟩
  | some ⟨_, s₁, h₁⟩ => do
    let ⟨value, s₂, h₂⟩ ← since h₁ <| assignment s₁
    .ok ⟨some value, s₂, h₂.trans h⟩
termination_by 16 * s.rest.length

end

end Parse

end Stepwise
