import Stepwise.Source.Position

/-! # Nodes

A node is a statement or an expression as the stepping cursor shows it: its
syntactic kind and the span of source text that it covers.
-/

namespace Stepwise

/-- The syntactic kinds of nodes. -/
inductive NodeKind
  | declaration
  | functionDefinition
  | structDefinition
  | typedefDeclaration
  | usingDirective
  | usingDeclaration
  | namespaceDefinition
  | namespaceAlias
  | compound
  | expressionStatement
  | ifStatement
  | switchStatement
  | caseLabel
  | defaultLabel
  | namedLabel
  | whileLoop
  | doWhileLoop
  | forLoop
  | forEachLoop
  | breakJump
  | continueJump
  | returnJump
  | gotoJump
  | literal
  | identifier
  | binary
  | logical
  | assignment
  | comma
  | unary
  | trailingUnary
  | conditional
  | call
  | index
  | member
  | cast
  | sizeof
  | initializerList
  deriving DecidableEq, Repr

/-- The kinds that a debugger counts as statements; definitions other than variables are none. -/
def NodeKind.isStatement : NodeKind → Bool
  | declaration | compound | expressionStatement | ifStatement | switchStatement | caseLabel
  | defaultLabel | namedLabel | whileLoop | doWhileLoop | forLoop | forEachLoop | breakJump
  | continueJump | returnJump | gotoJump => true
  | _ => false

/-- A visited statement or expression. -/
structure Node where
  kind : NodeKind
  span : Span
  deriving DecidableEq, Repr

end Stepwise
