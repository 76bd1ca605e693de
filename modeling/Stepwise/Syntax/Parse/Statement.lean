import Stepwise.Syntax.Parse.Expression

/-! # Parsing statements and programs

Statements, declarations at any scope and whole programs. Names that
`struct` and `typedef` introduce are types from there on; the bodies of namespaces
are read and dropped.
-/

namespace Stepwise

namespace Tokens

/-- Skips an access mark, which carries no meaning. -/
def skipAccess? (s : Tokens) : Option (Parsed s Unit) :=
  match s.take? fun l =>
      if l.identifier?.any fun w => w = "public" || w = "private" || w = "protected" then some ()
      else none with
  | none => none
  | some ⟨_, s₁, h₁⟩ =>
    match since h₁ <| s₁.accept? .colon with
    | none => none
    | some ⟨_, s₂, h₂⟩ => some ⟨(), s₂, h₂⟩

/-- A name and the colon after it. -/
def label? (s : Tokens) : Option (Parsed s String) :=
  match s.take? Lexeme.identifier? with
  | none => none
  | some ⟨name, s₁, h₁⟩ =>
    match since h₁ <| s₁.accept? .colon with
    | none => none
    | some ⟨_, s₂, h₂⟩ => some ⟨name, s₂, h₂⟩

/-- The keyword and name of a struct whose definition begins here. -/
def structHead? (s : Tokens) : Option (Parsed s String) :=
  if (s.ahead 2).isSymbol .leftBrace then
    match s.acceptKeyword? .structWord with
    | none => none
    | some ⟨_, s₁, h₁⟩ =>
      match since h₁ <| s₁.take? Lexeme.identifier? with
      | none => none
      | some ⟨name, s₂, h₂⟩ => some ⟨name, s₂, h₂⟩
  else none

end Tokens

/-- The keywords that a statement begins with. -/
inductive StmtKeyword
  | ifWord
  | whileWord
  | doWord
  | forWord
  | switchWord
  | caseWord
  | defaultWord
  | breakWord
  | continueWord
  | returnWord
  | gotoWord

def Lexeme.stmtKeyword? : Lexeme → Option StmtKeyword
  | keyword .ifWord => some .ifWord
  | keyword .whileWord => some .whileWord
  | keyword .doWord => some .doWord
  | keyword .forWord => some .forWord
  | keyword .switchWord => some .switchWord
  | keyword .caseWord => some .caseWord
  | keyword .defaultWord => some .defaultWord
  | keyword .breakWord => some .breakWord
  | keyword .continueWord => some .continueWord
  | keyword .returnWord => some .returnWord
  | keyword .gotoWord => some .gotoWord
  | _ => none

/-- The keywords that only a declaration begins with. -/
inductive DeclKeyword
  | usingWord
  | namespaceWord
  | typedefWord

def Lexeme.declKeyword? : Lexeme → Option DeclKeyword
  | keyword .usingWord => some .usingWord
  | keyword .namespaceWord => some .namespaceWord
  | keyword .typedefWord => some .typedefWord
  | _ => none

namespace Parse

mutual

/-- The rest of a declaration whose next declarator is `d`; `earlier` holds those before it,
the last one first. -/
def initDeclarators (s₀ : Tokens) (earlier : List InitDeclarator) (d : Declarator) (s : Tokens)
    (h : s.Shorter s₀) : Attempt (Parsed s₀ (List InitDeclarator)) :=
  match s.accept? .assign with
  | none => moreDeclarators s₀ (⟨d, none⟩ :: earlier) s h
  | some ⟨_, s₁, h₁⟩ => do
    let ⟨value, s₂, h₂⟩ ← since h₁ <| initializer s₁
    moreDeclarators s₀ (⟨d, some value⟩ :: earlier) s₂ (h₂.trans h)
termination_by 2 * s.rest.length + 1

def moreDeclarators (s₀ : Tokens) (earlier : List InitDeclarator) (s : Tokens)
    (h : s.Shorter s₀) : Attempt (Parsed s₀ (List InitDeclarator)) :=
  match s.accept? .comma with
  | none => .ok ⟨earlier.reverse, s, h⟩
  | some ⟨_, s₁, h₁⟩ => do
    let ⟨d, s₂, h₂⟩ ← declarator false s s₁ h₁
    initDeclarators s₀ earlier d s₂ (h₂.trans h)
termination_by 2 * s.rest.length

end

/-- A `typedef` that began at `s₀`, from its base type on. -/
def typedefTail (s₀ s : Tokens) (h : s.Shorter s₀) : Attempt (Parsed s₀ Stmt) := do
  let ⟨spec, s₁, h₁⟩ ← TypeSpec.parse s
  let ⟨first, s₂, h₂⟩ ← declarator false s s₁ h₁
  let ⟨declarators, s₃, h₃⟩ ← initDeclarators s [] first s₂ h₂
  let ⟨_, s₄, h₄⟩ ← since h₃ <| s₃.expect .semicolon "after typedef"
  let names := declarators.filterMap fun d => d.declarator.name?
  .ok ⟨.typedef (s₀.spanTo s₄) ⟨spec, declarators⟩,
    { s₄ with typeNames := names ++ s₄.typeNames }, h₄.trans h⟩

/-- A `using` that began at `s₀`, from the word after it on. -/
def usingTail (s₀ s : Tokens) (h : s.Shorter s₀) : Attempt (Parsed s₀ Stmt) :=
  match s.acceptKeyword? .namespaceWord with
  | some ⟨_, s₁, h₁⟩ => do
    let ⟨path, s₂, h₂⟩ ← since h₁ <| s₁.path
    let ⟨_, s₃, h₃⟩ ← since h₂ <| s₂.expect .semicolon "after using"
    .ok ⟨.usingDirective (s₀.spanTo s₃) path, s₃, h₃.trans h⟩
  | none => do
    let ⟨path, s₁, h₁⟩ ← s.path
    let ⟨_, s₂, h₂⟩ ← since h₁ <| s₁.expect .semicolon "after using"
    .ok ⟨.usingDeclaration (s₀.spanTo s₂) path, s₂, h₂.trans h⟩

/-- An optional expression and the symbol `x` after it. -/
def optionalBefore (x : Symbol) (role : String) (s : Tokens) :
    Attempt (Parsed s (Option Expr)) :=
  match s.accept? x with
  | some ⟨_, s₁, h₁⟩ => .ok ⟨none, s₁, h₁⟩
  | none => do
    let ⟨value, s₁, h₁⟩ ← expression s
    let ⟨_, s₂, h₂⟩ ← since h₁ <| s₁.expect x role
    .ok ⟨some value, s₂, h₂⟩

mutual

/-- A block. -/
def compound (s : Tokens) : Attempt (Parsed s Stmt) := do
  let ⟨_, s₁, h₁⟩ ← s.expect .leftBrace "to open block"
  let ⟨body, s₂, h₂⟩ ← blockTail s [] s₁ h₁
  .ok ⟨.compound (s.spanTo s₂) body, s₂, h₂⟩
termination_by 8 * s.rest.length + 1

/-- Statements up to the closing brace of a block. -/
def blockTail (s₀ : Tokens) (body : List Stmt) (s : Tokens)
    (h : s.Shorter s₀) : Attempt (Parsed s₀ (List Stmt)) := do
  if s.sees .rightBrace || s.atEnd then
    let ⟨_, s₁, h₁⟩ ← s.expect .rightBrace "after block"
    .ok ⟨body.reverse, s₁, h₁.trans h⟩
  else
    let ⟨item, s₁, h₁⟩ ← statement s
    blockTail s₀ (item :: body) s₁ (h₁.trans h)
termination_by 8 * s.rest.length + 5

def statement (s : Tokens) : Attempt (Parsed s Stmt) := do
  if s.sees .leftBrace then compound s
  else if s.peek.declKeyword?.isSome then external s
  else
    match s.take? Lexeme.stmtKeyword? with
    | some ⟨.returnWord, s₁, h₁⟩ =>
      let ⟨value, s₂, h₂⟩ ← since h₁ <| optionalBefore .semicolon "after return" s₁
      .ok ⟨.returnJump (s.spanTo s₂) value, s₂, h₂⟩
    | some ⟨.ifWord, s₁, h₁⟩ =>
      let ⟨_, s₂, h₂⟩ ← since h₁ <| s₁.expect .leftParen "after 'if'"
      let ⟨condition, s₃, h₃⟩ ← since h₂ <| expression s₂
      let ⟨_, s₄, h₄⟩ ← since h₃ <| s₃.expect .rightParen "after if condition"
      let ⟨thenBranch, s₅, h₅⟩ ← since h₄ <| statement s₄
      match since h₅ <| s₅.acceptKeyword? .elseWord with
      | none => .ok ⟨.ifThen (s.spanTo s₅) condition thenBranch none, s₅, h₅⟩
      | some ⟨_, s₆, h₆⟩ =>
        let ⟨elseBranch, s₇, h₇⟩ ← since h₆ <| statement s₆
        .ok ⟨.ifThen (s.spanTo s₇) condition thenBranch (some elseBranch), s₇, h₇⟩
    | some ⟨.whileWord, s₁, h₁⟩ =>
      let ⟨_, s₂, h₂⟩ ← since h₁ <| s₁.expect .leftParen "after 'while'"
      let ⟨condition, s₃, h₃⟩ ← since h₂ <| expression s₂
      let ⟨_, s₄, h₄⟩ ← since h₃ <| s₃.expect .rightParen "after while condition"
      let ⟨body, s₅, h₅⟩ ← since h₄ <| statement s₄
      .ok ⟨.whileLoop (s.spanTo s₅) condition body, s₅, h₅⟩
    | some ⟨.doWord, s₁, h₁⟩ =>
      let ⟨body, s₂, h₂⟩ ← since h₁ <| statement s₁
      let ⟨_, s₃, h₃⟩ ← since h₂ <| s₂.expectKeyword .whileWord "after do body"
      let ⟨_, s₄, h₄⟩ ← since h₃ <| s₃.expect .leftParen "after 'while'"
      let ⟨condition, s₅, h₅⟩ ← since h₄ <| expression s₄
      let ⟨_, s₆, h₆⟩ ← since h₅ <| s₅.expect .rightParen "after do-while condition"
      let ⟨_, s₇, h₇⟩ ← since h₆ <| s₆.expect .semicolon "after do-while"
      .ok ⟨.doWhile (s.spanTo s₇) body condition, s₇, h₇⟩
    | some ⟨.forWord, s₁, h₁⟩ =>
      let ⟨_, s₂, h₂⟩ ← since h₁ <| s₁.expect .leftParen "after 'for'"
      forHead s s₂ h₂
    | some ⟨.switchWord, s₁, h₁⟩ =>
      let ⟨_, s₂, h₂⟩ ← since h₁ <| s₁.expect .leftParen "after 'switch'"
      let ⟨discriminant, s₃, h₃⟩ ← since h₂ <| expression s₂
      let ⟨_, s₄, h₄⟩ ← since h₃ <| s₃.expect .rightParen "after switch expression"
      let ⟨body, s₅, h₅⟩ ← since h₄ <| statement s₄
      .ok ⟨.switch (s.spanTo s₅) discriminant body, s₅, h₅⟩
    | some ⟨.caseWord, s₁, h₁⟩ =>
      let ⟨value, s₂, h₂⟩ ← since h₁ <| conditional s₁
      let ⟨_, s₃, h₃⟩ ← since h₂ <| s₂.expect .colon "after case value"
      .ok ⟨.caseLabel (s.spanTo s₃) value, s₃, h₃⟩
    | some ⟨.defaultWord, s₁, h₁⟩ =>
      let ⟨_, s₂, h₂⟩ ← since h₁ <| s₁.expect .colon "after 'default'"
      .ok ⟨.defaultLabel (s.spanTo s₂), s₂, h₂⟩
    | some ⟨.breakWord, s₁, h₁⟩ =>
      let ⟨_, s₂, h₂⟩ ← since h₁ <| s₁.expect .semicolon "after 'break'"
      .ok ⟨.breakJump (s.spanTo s₂), s₂, h₂⟩
    | some ⟨.continueWord, s₁, h₁⟩ =>
      let ⟨_, s₂, h₂⟩ ← since h₁ <| s₁.expect .semicolon "after 'continue'"
      .ok ⟨.continueJump (s.spanTo s₂), s₂, h₂⟩
    | some ⟨.gotoWord, s₁, h₁⟩ =>
      let ⟨target, s₂, h₂⟩ ← since h₁ <| s₁.expectIdentifier
      let ⟨_, s₃, h₃⟩ ← since h₂ <| s₂.expect .semicolon "after 'goto'"
      .ok ⟨.gotoJump (s.spanTo s₃) target, s₃, h₃⟩
    | none =>
      match s.label? with
      | some ⟨name, s₁, h₁⟩ => .ok ⟨.label (s.spanTo s₁) name, s₁, h₁⟩
      | none =>
        if s.startsDeclaration then external s
        else
          match s.accept? .semicolon with
          | some ⟨_, s₁, h₁⟩ => .ok ⟨.expression (s.spanTo s₁) none, s₁, h₁⟩
          | none =>
            let ⟨value, s₁, h₁⟩ ← expression s
            let ⟨_, s₂, h₂⟩ ← since h₁ <| s₁.expect .semicolon "after expression"
            .ok ⟨.expression (s.spanTo s₂) (some value), s₂, h₂⟩
termination_by 8 * s.rest.length + 4

/-- The clauses and body of a `for` that began at `s₀`; a declaration and a colon make it a
loop over a range. -/
def forHead (s₀ s : Tokens) (h : s.Shorter s₀) :
    Attempt (Parsed s₀ Stmt) := do
  match s.accept? .semicolon with
  | some ⟨_, s₁, h₁⟩ => forClauses s₀ none s₁ (h₁.trans h)
  | none =>
    if s.startsDeclaration then
      let ⟨spec, s₁, h₁⟩ ← TypeSpec.parse s
      let ⟨d, s₂, h₂⟩ ← declarator false s s₁ h₁
      match since h₂ <| s₂.accept? .colon with
      | some ⟨_, s₃, h₃⟩ =>
        let ⟨range, s₄, h₄⟩ ← since h₃ <| expression s₃
        let ⟨_, s₅, h₅⟩ ← since h₄ <| s₄.expect .rightParen "after range-for clause"
        let ⟨body, s₆, h₆⟩ ← since h₅ <| statement s₅
        .ok ⟨.forEach (s₀.spanTo s₆) spec d range body, s₆, h₆.trans h⟩
      | none =>
        let ⟨declarators, s₃, h₃⟩ ← initDeclarators s [] d s₂ h₂
        let ⟨_, s₄, h₄⟩ ← since h₃ <| s₃.expect .semicolon "after for init"
        forClauses s₀ (some (.declaration (s.spanTo s₄) ⟨spec, declarators⟩)) s₄ (h₄.trans h)
    else
      let ⟨value, s₁, h₁⟩ ← expression s
      let ⟨_, s₂, h₂⟩ ← since h₁ <| s₁.expect .semicolon "after for init"
      forClauses s₀ (some (.expression (s.spanTo s₂) (some value))) s₂ (h₂.trans h)
termination_by 8 * s.rest.length + 4

/-- The condition, step and body of a `for` that began at `s₀`. -/
def forClauses (s₀ : Tokens) (init : Option Stmt) (s : Tokens)
    (h : s.Shorter s₀) : Attempt (Parsed s₀ Stmt) := do
  let ⟨condition, s₁, h₁⟩ ← optionalBefore .semicolon "after for condition" s
  let ⟨step, s₂, h₂⟩ ← since h₁ <| optionalBefore .rightParen "after for clauses" s₁
  let ⟨body, s₃, h₃⟩ ← since h₂ <| statement s₂
  .ok ⟨.forLoop (s₀.spanTo s₃) init condition step body, s₃, h₃.trans h⟩
termination_by 8 * s.rest.length

/-- Anything that may stand at namespace scope. -/
def external (s : Tokens) : Attempt (Parsed s Stmt) := do
  match s.take? Lexeme.declKeyword? with
  | some ⟨.usingWord, s₁, h₁⟩ => usingTail s s₁ h₁
  | some ⟨.typedefWord, s₁, h₁⟩ => typedefTail s s₁ h₁
  | some ⟨.namespaceWord, s₁, h₁⟩ =>
    let ⟨name, s₂, h₂⟩ ← since h₁ <| s₁.expectIdentifier
    match since h₂ <| s₂.accept? .assign with
    | some ⟨_, s₃, h₃⟩ =>
      let ⟨target, s₄, h₄⟩ ← since h₃ <| s₃.path
      let ⟨_, s₅, h₅⟩ ← since h₄ <| s₄.expect .semicolon "after namespace alias"
      .ok ⟨.namespaceAlias (s.spanTo s₅) name target, s₅, h₅⟩
    | none =>
      let ⟨_, s₃, h₃⟩ ← since h₂ <| s₂.expect .leftBrace "after namespace name"
      let ⟨_, s₄, h₄⟩ ← namespaceTail s s₃ h₃
      .ok ⟨.namespaceDef (s.spanTo s₄) name, s₄, h₄⟩
  | none =>
    match s.structHead? with
    | some ⟨name, s₁, h₁⟩ =>
      have h₁ : (s₁.declareType name).Shorter s := h₁
      let ⟨_, s₂, h₂⟩ ← since h₁ <| (s₁.declareType name).expect .leftBrace "after struct name"
      structTail s name [] [] s₂ h₂
    | none =>
      let ⟨spec, s₁, h₁⟩ ← TypeSpec.parse s
      match since h₁ <| s₁.accept? .semicolon with
      | some ⟨_, s₂, h₂⟩ => .ok ⟨.declaration (s.spanTo s₂) ⟨spec, []⟩, s₂, h₂⟩
      | none =>
        let ⟨d, s₂, h₂⟩ ← declarator false s s₁ h₁
        if d.functionParams?.isSome && s₂.sees .leftBrace then
          let ⟨body, s₃, h₃⟩ ← since h₂ <| compound s₂
          .ok ⟨.function (s.spanTo s₃) (.mk spec d body), s₃, h₃⟩
        else
          let ⟨declarators, s₃, h₃⟩ ← initDeclarators s [] d s₂ h₂
          let ⟨_, s₄, h₄⟩ ← since h₃ <| s₃.expect .semicolon "after declaration"
          .ok ⟨.declaration (s.spanTo s₄) ⟨spec, declarators⟩, s₄, h₄⟩
termination_by 8 * s.rest.length + 3

/-- Declarations up to the closing brace of a namespace; nothing of them is kept. -/
def namespaceTail (s₀ s : Tokens) (h : s.Shorter s₀) :
    Attempt (Parsed s₀ Unit) := do
  if s.sees .rightBrace || s.atEnd then
    let ⟨_, s₁, h₁⟩ ← s.expect .rightBrace "after namespace body"
    .ok ⟨(), s₁, h₁.trans h⟩
  else
    let ⟨_, s₁, h₁⟩ ← external s
    namespaceTail s₀ s₁ (h₁.trans h)
termination_by 8 * s.rest.length + 4

/-- Members and methods up to the end of a struct definition that began at `s₀`; those read so
far come last one first. -/
def structTail (s₀ : Tokens) (name : String) (members : List MemberDecl)
    (methods : List FunctionDef) (s : Tokens) (h : s.Shorter s₀) :
    Attempt (Parsed s₀ Stmt) := do
  if s.sees .rightBrace || s.atEnd then
    let ⟨_, s₁, h₁⟩ ← s.expect .rightBrace "after struct body"
    let ⟨_, s₂, h₂⟩ ← since h₁ <| s₁.expect .semicolon "after struct definition"
    .ok ⟨.struct (s₀.spanTo s₂) name members.reverse methods.reverse, s₂, h₂.trans h⟩
  else
    match s.skipAccess? with
    | some ⟨_, s₁, h₁⟩ => structTail s₀ name members methods s₁ (h₁.trans h)
    | none =>
      let ⟨spec, s₁, h₁⟩ ← TypeSpec.parse s
      let ⟨d, s₂, h₂⟩ ← declarator false s s₁ h₁
      if d.functionParams?.isSome && s₂.sees .leftBrace then
        let ⟨body, s₃, h₃⟩ ← since h₂ <| compound s₂
        structTail s₀ name members (.mk spec d body :: methods) s₃ (h₃.trans h)
      else
        let ⟨declarators, s₃, h₃⟩ ← initDeclarators s [] d s₂ h₂
        let ⟨_, s₄, h₄⟩ ← since h₃ <| s₃.expect .semicolon "after struct member"
        let more := declarators.map fun d => MemberDecl.mk spec d.declarator d.init
        structTail s₀ name (more.reverse ++ members) methods s₄ (h₄.trans h)
termination_by 8 * s.rest.length + 2

end

/-- The items of a program; stray semicolons between them are skipped. -/
def items (s : Tokens) : Attempt (List Stmt) := do
  if s.atEnd then return []
  else
    match s.accept? .semicolon with
    | some ⟨_, s₁, _⟩ => items s₁
    | none =>
      let ⟨item, s₁, _⟩ ← external s
      return item :: (← items s₁)
termination_by s.rest.length

end Parse

/-- The libraries that declare the type name `FILE`. -/
def declaresFile (library : String) : Bool := library = "cstdio" || library = "stdio.h"

/-- The stream of a scanned text. -/
def Tokens.ofList (includes : List String) (tokens : List Token) : Tokens :=
  let finish := (tokens.getLast?.map Token.span).getD default
  let rest := tokens.dropLast
  { rest, finish, previous := (tokens.head?.map Token.span).getD finish,
    typeNames := if includes.any declaresFile then ["FILE"] else [] }

/-- Parses a program. -/
def Program.parse (source : String) : Attempt Program := do
  let scanned := scan source
  match scanned.tokens with
  | .error e => .error ⟨.lexical e.cause, e.span⟩
  | .ok tokens =>
    return ⟨scanned.includes, ← Parse.items (.ofList scanned.includes tokens)⟩

end Stepwise
