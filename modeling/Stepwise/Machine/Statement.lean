import Stepwise.Machine.Loop

/-! # Statements

What a statement does when it is entered, up to the next node.
-/

namespace Stepwise

namespace RunM

/-- Executes a statement that was entered; `inSwitch` says that it is inside a switch. -/
def execute (s : Stmt) (inSwitch : Bool) : RunM (Progress .flow) := do
  match s with
  | .declaration _ decl => declaration decl
  | .function _ f =>
    defineFunction f .global
    return .done .normal
  | .struct _ name fields methods =>
    defineStructType name fields methods
    return .done .normal
  | .typedef _ decl =>
    defineTypedefs decl
    return .done .normal
  | .usingDirective _ path =>
    onNamespaces fun n => n.use path
    return .done .normal
  | .usingDeclaration .. => fail (.statement (.notImplemented "using declaration"))
  | .namespaceDef .. => fail (.statement (.notImplemented "namespace definition"))
  | .namespaceAlias _ name target =>
    onNamespaces fun n => n.addAlias name target
    return .done .normal
  | .compound _ body =>
    pushScope "CompoundStatement"
    runBlock inSwitch body
  | .expression _ (some e) => visit e none (.one .discard)
  | .expression _ none => return .done .normal
  | .label .. => return .done .normal
  | .ifThen _ condition thenBranch elseBranch =>
    pushScope "SelectionStatement_if"
    visit condition none (.one (.ifThen thenBranch elseBranch inSwitch))
  | .switch _ discriminant body =>
    pushScope "SelectionStatement_switch"
    visit discriminant none (.one (.switch body))
  | .caseLabel .. => fail (.statement (.misplacedLabel "case" inSwitch))
  | .defaultLabel .. => fail (.statement (.misplacedLabel "default" inSwitch))
  | .whileLoop _ condition body =>
    pushScope "IterationStatement_while"
    whileNext condition body inSwitch
  | .doWhile _ body condition =>
    pushScope "IterationStatement_do"
    doNext condition body inSwitch
  | .forLoop _ init condition step body =>
    pushScope "IterationStatement_for"
    let l : ForLoop := ⟨condition, step, body, inSwitch⟩
    match init with
    | some s => visitStmt s inSwitch (.one (.forInit l))
    | none => forNext l
  | .forEach _ spec d range body =>
    pushScope "IterationStatement_foreach"
    visit range none (.one (.eachRange spec d range body inSwitch))
  | .breakJump _ => return .done .breaks
  | .continueJump _ => return .done .continues
  | .returnJump _ (some e) => visit e none (.one .returns)
  | .returnJump _ none => return .done (.returns none)
  | .gotoJump .. => fail (.statement (.notImplemented "goto"))

end RunM

end Stepwise
