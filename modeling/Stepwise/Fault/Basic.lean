import Stepwise.Fault.Cause

/-! # Faults

A fault stops a run. It has a cause and, once it has passed through a visited
node, that node.
-/

namespace Stepwise

inductive FaultCause
  | operator (cause : OperatorFault)
  | name (cause : NameFault)
  | declaration (cause : DeclarationFault)
  | statement (cause : StatementFault)
  | library (cause : LibraryFault)

def FaultCause.message : FaultCause → String
  | operator cause => cause.message
  | name cause => cause.message
  | declaration cause => cause.message
  | statement cause => cause.message
  | library cause => cause.message

instance : Coe OperatorFault FaultCause := ⟨.operator⟩
instance : Coe NameFault FaultCause := ⟨.name⟩
instance : Coe DeclarationFault FaultCause := ⟨.declaration⟩
instance : Coe StatementFault FaultCause := ⟨.statement⟩
instance : Coe LibraryFault FaultCause := ⟨.library⟩

structure Fault where
  cause : FaultCause
  node : Option Node

namespace Fault

def message (f : Fault) : String := f.cause.message

/-- The message with the place of the node, when there is one. -/
def display (f : Fault) : String :=
  match f.node with
  | some node =>
    f.message ++ " (line " ++ toString node.span.line ++ ", column "
      ++ toString node.span.column ++ ")"
  | none => f.message

/-- The line of the node, when there is one. -/
def line? (f : Fault) : Option Nat := f.node.map fun node => node.span.line

/-- The fault at `node`, unless it has a node of its own. -/
def orAt (f : Fault) (node : Option Node) : Fault :=
  { f with node := f.node <|> node }

@[simp] theorem orAt_message (f : Fault) (node : Option Node) :
    (f.orAt node).message = f.message := rfl

theorem orAt_orAt (f : Fault) (m n : Option Node) : (f.orAt m).orAt n = f.orAt (m <|> n) := by
  cases f with | mk cause node => cases node <;> rfl

end Fault

end Stepwise
