import Stepwise.Machine.Expression

/-! # Declarations

Variables, references, functions, structs and type names. The declarators of one
declaration are worked off in order, and each one names its variable once its
initializer has a value.
-/

namespace Stepwise

namespace RunM

/-- The name that a declarator must give to what it declares. -/
def nameOf (d : Declared) (what : String) : RunM String := do
  match d.name with
  | some name => return name
  | none => fail (.declaration (.missingName what))

/-- Binds a reference: an alias of a cell of the same shape, or a constant copy. -/
def bindReference (name : String) (d : Declared) (v : Value) : RunM Unit := do
  match v.place, v.ty.sameShape d.type with
  | some p, true => declare name p
  | _, _ =>
    if d.readonly then
      defineVariable name ((← operate (OperatorM.copy v d.type)).withReadonly true)
    else fail (.declaration (.cannotBind name (← text v)))

/-- Declares a variable of a type that its initializer gives. -/
def bindAuto (spec : TypeSpec) (d : Declarator) (v : Value) : RunM Unit := do
  let deduced := match d with
    | .mk _ _ reference _ _ => if reference then v.ty else v.ty.decay
  let declared ← ask (ReadM.declarator deduced spec.isConst d)
  let name ← nameOf declared "declarator"
  if declared.reference then bindReference name declared v
  else
    defineVariable name
      ((← operate (OperatorM.copy v declared.type)).withReadonly declared.readonly)

/-- Declares what the value of an initializer is for. -/
def bind (binding : Binding) (v : Value) : RunM Unit :=
  match binding with
  | .name name => defineVariable name v
  | .auto spec d => bindAuto spec d v
  | .reference name d => bindReference name d v

/-- The value of an array whose first bound is left to its initializer. -/
def openValue (name : String) (d : Declared) (init : Option Initializer) :
    RunM (Progress .value) := do
  match d.type.pointee?, init with
  | none, _ => fail (.declaration .noElement)
  | some element, some (.list span items) =>
    make (.initial (.array element items.length) (.list span items) d.readonly none)
  | some element, some (.expr e) => visit e none (.one (.openBound element d.readonly))
  | some _, none => fail (.declaration (.sizeMissing name))

/-- The value of a variable, from its initializer. -/
def initialValue (name : String) (d : Declared) (init : Option Initializer) :
    RunM (Progress .value) := do
  match d.openBound, init with
  | true, _ => openValue name d init
  | false, some init => make (.initial d.type init d.readonly none)
  | false, none => make (.default d.type d.readonly)

/-- Declares a function whose body comes later, or not at all. -/
def declarePrototype (name : String) (type : FunctionTy) (params : List ParamInfo) :
    RunM Unit := do
  register ⟨name, .global, type, params, .prototype⟩
  defineFunctionName name type

/-- Works on one declarator: nothing is left to do for a prototype, and anything else waits for a
value. -/
def declareOne (spec : TypeSpec) (item : InitDeclarator) :
    RunM (Option (Binding × Progress .value)) := do
  if spec.isAuto then
    match item.init with
    | some (.expr e) => return some (.auto spec item.declarator, ← visit e none .nil)
    | some (.list ..) => fail (.declaration .autoFromList)
    | none => fail (.declaration .autoUninitialized)
  else
    let d ← ask (ReadM.declared spec item.declarator)
    let name ← nameOf d "declarator"
    match d.type, d.reference, item.init with
    | .function sig, _, _ =>
      declarePrototype name sig d.params
      return none
    | _, true, some (.expr e) => return some (.reference name d, ← visit e none .nil)
    | _, true, _ => fail (.declaration (.referenceUninitialized name))
    | _, false, init => return some (.name name, ← initialValue name d init)

/-- Works off the declarators of a declaration. -/
def declareAll (spec : TypeSpec) : List InitDeclarator → RunM (Progress .flow)
  | [] => return .done .normal
  | item :: rest => do
    match ← declareOne spec item with
    | none => declareAll spec rest
    | some (binding, p) =>
      p.andThen (.bind binding spec rest) fun v => do
        bind binding v
        declareAll spec rest

/-- Declares a struct of which nothing is known yet. -/
def forwardDeclare (spec : TypeSpec) : RunM Unit := do
  match spec.words with
  | [name] =>
    if ((← get).struct? name).isNone && (ArithKind.ofWords? spec.words).isNone then
      defineStruct ⟨name, []⟩
  | _ => return

/-- Runs a declaration. -/
def declaration (decl : Declaration) : RunM (Progress .flow) := do
  if decl.declarators.isEmpty then forwardDeclare decl.spec
  declareAll decl.spec decl.declarators

/-- Registers a function definition of an owner. -/
def defineFunction (f : FunctionDef) (owner : Owner) : RunM Unit := do
  let d ← ask (ReadM.declared f.spec f.declarator)
  match d.type with
  | .function sig =>
    let name ← nameOf d "function"
    if d.params.any fun p => p.name.isNone then fail (.declaration .unnamedArgument)
    register ⟨name, owner, sig, d.params, .defined f.body⟩
    if owner = .global then defineFunctionName name sig
  | _ => fail (.declaration (.notFunction f.name))

/-- The members of a struct definition; `known` are those before them. -/
def structMembers (name : String) : List MemberDecl → (known : List MemberTy) →
    RunM (List MemberTy)
  | [], known => return known
  | m :: rest, known => do
    let d ← ask (ReadM.declared m.spec m.declarator)
    let memberName ← nameOf d "member"
    if d.openBound then fail (.declaration (.incompleteMember memberName))
    if known.any fun k => k.name == memberName then
      fail (.declaration (.duplicateMember memberName name))
    structMembers name rest (known ++ [⟨memberName, d.type, d.readonly, m.default⟩])

/-- Defines a struct with its methods. Its members may point to the struct itself, which has none
while they are read. -/
def defineStructType (name : String) (fields : List MemberDecl) (methods : List FunctionDef) :
    RunM Unit := do
  defineStruct ⟨name, []⟩
  defineStruct ⟨name, ← structMembers name fields []⟩
  methods.forM fun m => defineFunction m (.struct name)

/-- Defines names of types. -/
def defineTypedefs (decl : Declaration) : RunM Unit := do
  let base ← ask (ReadM.baseType decl.spec)
  for item in decl.declarators do
    let d ← ask (ReadM.declarator base decl.spec.isConst item.declarator)
    defineTypedef (← nameOf d "typedef") d.type

/-- Changes the namespaces; a namespace that is missing is a fault. -/
def onNamespaces (f : Namespaces Place → Except String (Namespaces Place)) : RunM Unit := do
  match f (← get).namespaces with
  | .ok namespaces => modify fun s => { s with namespaces }
  | .error name => fail (.name (.noNamespace name))

end RunM

end Stepwise
