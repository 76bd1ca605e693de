import Stepwise.Syntax.Node
import Stepwise.Token.Basic

/-! # Syntax trees

Expressions, declarators and statements as they are written. A declarator is read
inside out and may hold expressions, as array bounds and default arguments, so it
is defined together with them. Every node keeps its span.
-/

namespace Stepwise

/-- Operators between two operands that are both evaluated. -/
inductive BinaryOp
  | add
  | sub
  | mul
  | div
  | rem
  | eq
  | ne
  | lt
  | le
  | gt
  | ge
  | bitAnd
  | bitOr
  | bitXor
  | shl
  | shr
  deriving DecidableEq, Repr

inductive UnaryOp
  | neg
  | plus
  | not
  | bitNot
  | preInc
  | preDec
  | postInc
  | postDec
  | deref
  | addrOf
  deriving DecidableEq, Repr

/-- Operators whose right operand is evaluated only if the left one does not decide. -/
inductive LogicalOp
  | and
  | or
  deriving DecidableEq, Repr

/-- A literal as written; its type depends on the limits of the integer kinds. -/
inductive Literal
  | int (value radix : Nat) (unsigned long : Bool)
  | float (value : Float) (single : Bool)
  | char (code : Nat) (width : CharWidth)
  | string (text : String) (width : CharWidth)
  | bool (value : Bool)
  | null
  deriving Repr

/-- A base type as spelled: type words in order, or one user-defined name. -/
structure TypeSpec where
  specifiers : List String
  words : List String
  span : Span
  deriving DecidableEq, Repr

namespace TypeSpec

def isConst (s : TypeSpec) : Bool := s.specifiers.contains "const"

def isAuto (s : TypeSpec) : Bool := s.words == ["auto"]

end TypeSpec

mutual

inductive Expr
  | literal (span : Span) (value : Literal)
  | identifier (span : Span) (name : String)
  | qualified (span : Span) (path : List String)
  | binary (span : Span) (op : BinaryOp) (left right : Expr)
  | logical (span : Span) (op : LogicalOp) (left right : Expr)
  | assign (span : Span) (op : Option BinaryOp) (target value : Expr)
  | comma (span : Span) (left right : Expr)
  | unary (span : Span) (op : UnaryOp) (operand : Expr)
  | conditional (span : Span) (condition thenExpr elseExpr : Expr)
  | call (span : Span) (callee : Expr) (args : List Expr)
  | index (span : Span) (base index : Expr)
  | member (span : Span) (object : Expr) (name : String) (throughPointer : Bool)
  | cast (span : Span) (spec : TypeSpec) (target : Declarator) (operand : Expr)
  | sizeofType (span : Span) (spec : TypeSpec) (target : Declarator)
  | sizeofExpr (span : Span) (operand : Expr)
  | list (span : Span) (items : List Initializer)

inductive Initializer
  | expr (value : Expr)
  | list (span : Span) (items : List Initializer)

/-- Pointer marks (each const or not), a reference mark, and the direct part. -/
inductive Declarator
  | mk (span : Span) (pointers : List Bool) (reference : Bool) (base : DeclaratorBase)
    (suffixes : List DeclaratorSuffix)

inductive DeclaratorBase
  | named (name : String)
  | nested (inner : Declarator)
  | anonymous

/-- Array bounds, which the initializer may leave open, and parameter lists. -/
inductive DeclaratorSuffix
  | array (size : Option Expr)
  | params (params : List Param) (variadic : Bool)

inductive Param
  | mk (span : Span) (spec : TypeSpec) (declarator : Declarator) (default : Option Expr)

end

namespace Expr

def span : Expr → Span
  | literal s _ | identifier s _ | qualified s _ | binary s _ _ _ | logical s _ _ _
  | assign s _ _ _ | comma s _ _ | unary s _ _ | conditional s _ _ _ | call s _ _
  | index s _ _ | member s _ _ _ | cast s _ _ _ | sizeofType s _ _ | sizeofExpr s _
  | list s _ => s

def kind : Expr → NodeKind
  | literal .. => .literal
  | identifier .. => .identifier
  | qualified .. => .identifier
  | binary .. => .binary
  | logical .. => .logical
  | assign .. => .assignment
  | comma .. => .comma
  | unary _ .postInc _ => .trailingUnary
  | unary _ .postDec _ => .trailingUnary
  | unary .. => .unary
  | conditional .. => .conditional
  | call .. => .call
  | index .. => .index
  | member .. => .member
  | cast .. => .cast
  | sizeofType .. => .sizeof
  | sizeofExpr .. => .sizeof
  | list .. => .initializerList

def node (e : Expr) : Node := ⟨e.kind, e.span⟩

end Expr

namespace Initializer

def span : Initializer → Span
  | expr e => e.span
  | list s _ => s

end Initializer

namespace Declarator

def span : Declarator → Span
  | mk s _ _ _ _ => s

/-- The name that a declarator introduces; abstract declarators have none. -/
def name? : Declarator → Option String
  | mk _ _ _ (.named name) _ => some name
  | mk _ _ _ (.nested inner) _ => inner.name?
  | mk _ _ _ .anonymous _ => none

/-- The parameter list of a declarator that directly declares a function. -/
def functionParams? : Declarator → Option (List Param × Bool)
  | mk _ [] _ (.named _) (.params params variadic :: _) => some (params, variadic)
  | _ => none

end Declarator

namespace Param

def spec : Param → TypeSpec
  | mk _ spec _ _ => spec

def declarator : Param → Declarator
  | mk _ _ declarator _ => declarator

def default : Param → Option Expr
  | mk _ _ _ default => default

end Param

structure InitDeclarator where
  declarator : Declarator
  init : Option Initializer

/-- Variables or prototypes of one base type. -/
structure Declaration where
  spec : TypeSpec
  declarators : List InitDeclarator

/-- A data member of a struct. -/
structure MemberDecl where
  spec : TypeSpec
  declarator : Declarator
  default : Option Initializer

mutual

inductive Stmt
  | declaration (span : Span) (decl : Declaration)
  | function (span : Span) (definition : FunctionDef)
  | struct (span : Span) (name : String) (members : List MemberDecl) (methods : List FunctionDef)
  | typedef (span : Span) (decl : Declaration)
  | usingDirective (span : Span) (path : List String)
  | usingDeclaration (span : Span) (path : List String)
  | namespaceDef (span : Span) (name : String)
  | namespaceAlias (span : Span) (name : String) (target : List String)
  | compound (span : Span) (body : List Stmt)
  | expression (span : Span) (value : Option Expr)
  | ifThen (span : Span) (condition : Expr) (thenBranch : Stmt) (elseBranch : Option Stmt)
  | switch (span : Span) (discriminant : Expr) (body : Stmt)
  | caseLabel (span : Span) (value : Expr)
  | defaultLabel (span : Span)
  | label (span : Span) (name : String)
  | whileLoop (span : Span) (condition : Expr) (body : Stmt)
  | doWhile (span : Span) (body : Stmt) (condition : Expr)
  | forLoop (span : Span) (init : Option Stmt) (condition step : Option Expr) (body : Stmt)
  | forEach (span : Span) (spec : TypeSpec) (declarator : Declarator) (range : Expr) (body : Stmt)
  | breakJump (span : Span)
  | continueJump (span : Span)
  | returnJump (span : Span) (value : Option Expr)
  | gotoJump (span : Span) (label : String)

inductive FunctionDef
  | mk (spec : TypeSpec) (declarator : Declarator) (body : Stmt)

end

namespace Stmt

def span : Stmt → Span
  | declaration s _ | function s _ | struct s _ _ _ | typedef s _ | usingDirective s _
  | usingDeclaration s _ | namespaceDef s _ | namespaceAlias s _ _ | compound s _
  | expression s _ | ifThen s _ _ _ | switch s _ _ | caseLabel s _ | defaultLabel s | label s _
  | whileLoop s _ _ | doWhile s _ _ | forLoop s _ _ _ _ | forEach s _ _ _ _ | breakJump s
  | continueJump s | returnJump s _ | gotoJump s _ => s

def kind : Stmt → NodeKind
  | declaration .. => .declaration
  | function .. => .functionDefinition
  | struct .. => .structDefinition
  | typedef .. => .typedefDeclaration
  | usingDirective .. => .usingDirective
  | usingDeclaration .. => .usingDeclaration
  | namespaceDef .. => .namespaceDefinition
  | namespaceAlias .. => .namespaceAlias
  | compound .. => .compound
  | expression .. => .expressionStatement
  | ifThen .. => .ifStatement
  | switch .. => .switchStatement
  | caseLabel .. => .caseLabel
  | defaultLabel .. => .defaultLabel
  | label .. => .namedLabel
  | whileLoop .. => .whileLoop
  | doWhile .. => .doWhileLoop
  | forLoop .. => .forLoop
  | forEach .. => .forEachLoop
  | breakJump .. => .breakJump
  | continueJump .. => .continueJump
  | returnJump .. => .returnJump
  | gotoJump .. => .gotoJump

def node (s : Stmt) : Node := ⟨s.kind, s.span⟩

end Stmt

namespace FunctionDef

def spec : FunctionDef → TypeSpec
  | mk spec _ _ => spec

def declarator : FunctionDef → Declarator
  | mk _ declarator _ => declarator

def body : FunctionDef → Stmt
  | mk _ _ body => body

def name (f : FunctionDef) : String := f.declarator.name?.getD ""

end FunctionDef

/-- A program: the libraries it includes and its items, both in source order. -/
structure Program where
  includes : List String
  items : List Stmt

end Stepwise
