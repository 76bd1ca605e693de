import Stepwise.Machine.Frame
import Stepwise.Operator.Apply

/-! # Making objects

Values of variables, with and without initializers. An array is filled part by part
in the order of its elements, and an initializer is evaluated when its part is
reached; parts without one get the default of their type. A list may be shorter than
the array it stands for, unless that array is inside another one. In an array of
arrays, a list of the single value `0` or `-1` stores that value into the first
scalar.
-/

namespace Stepwise

mutual

/-- The number of steps from an object of the type down to its deepest scalar, by the members that
the type carries. -/
def Ty.height : Ty → Nat
  | array element _ => element.height + 1
  | struct _ members => membersHeight members + 1
  | _ => 0

def Ty.membersHeight : List (MemberOf Ty) → Nat
  | [] => 0
  | ⟨_, ty, _, _⟩ :: ms => max ty.height (membersHeight ms)

end

/-- Objects of the type own no cells besides their own. -/
def Ty.isScalar : Ty → Bool
  | array .. | struct .. => false
  | _ => true

def Making.type : Making → Ty
  | default ty _ | initial ty _ _ _ | row ty _ _ _ | copy ty _ _ | arrayOf ty _ _ => ty
  | struct d _ _ _ => d.type
  | nested => .void

/-- More than the number of steps from an object of the type down to its scalars, unless a struct
holds an object of its own type: on the way down, every definition is met at most once. -/
def State.makingDepth (s : State) (ty : Ty) : Nat :=
  2 * (ty.height + s.structs.foldr (fun e n => e.2.type.height + n) 0) + 2

namespace RunM

/-- An array or a struct whose parts are made. -/
def finish (f : Filling) (made : Array Value) : RunM (Progress .value) := do
  let store ← alloc made
  let data : Data :=
    match f.target with
    | .struct .. => .struct store
    | _ => .array (some store) 0
  return .done ((Value.fresh f.target data).withReadonly f.readonly)

/-- Makes the last parts of an array, which get the default of its elements. -/
def fillDefaults (make : Making → RunM (Progress .value)) (f : Filling) :
    (count : Nat) → (made : Array Value) → RunM (Progress .value)
  | 0, made => finish f made
  | n + 1, made => do
    match ← make (.default f.element f.readonly) with
    | .paused p path =>
      return .paused p (path ++ Frames.one (.fill { f with made, next := [], defaults := n }))
    | .done v =>
      if f.element.isScalar then finish f (made ++ Array.replicate (n + 1) v)
      else fillDefaults make f n (made.push v)

/-- Makes the parts that are left. -/
def fillNext (make : Making → RunM (Progress .value)) (f : Filling) :
    (next : List Making) → (made : Array Value) → RunM (Progress .value)
  | [], made => fillDefaults make f f.defaults made
  | m :: rest, made => do
    match ← make m with
    | .paused p path =>
      return .paused p (path ++ Frames.one (.fill { f with made, next := rest }))
    | .done v => fillNext make f rest (made.push v)

/-- What an array part needs from an item of a list. -/
def ofItem (element : Ty) (readonly : Bool) (hint : Option StructTy) : Initializer → Making
  | .expr e => .initial element (.expr e) readonly hint
  | .list span items =>
    match element with
    | .array .. => .row element items readonly hint
    | .struct .. => .initial element (.list span items) readonly hint
    | _ => .nested

/-- An array from a list. -/
def fillArray (make : Making → RunM (Progress .value)) (ty element : Ty) (size : Nat)
    (items : List Initializer) (readonly : Bool) (hint : Option StructTy) (outermost : Bool) :
    RunM (Progress .value) := do
  let count := items.length
  if count > size || (!outermost && count != 0 && count != size) then
    fail (.declaration (.sizes size count))
  match items, element with
  | [.expr e], .array .. => visit e hint (.one (.single ty readonly))
  | _, _ =>
    let parts := items.map (ofItem element readonly hint)
    fillNext make ⟨ty, readonly, #[], [], size - count, element⟩ parts #[]

/-- The parts of a struct: items of a list, then default initializers and defaults. -/
def members (readonly : Bool) (hint : Option StructTy) :
    List MemberTy → List Initializer → List Making
  | [], _ => []
  | m :: ms, item :: items =>
    .initial m.ty item (readonly || m.readonly) hint :: members readonly hint ms items
  | m :: ms, [] =>
    (match m.default with
      | some init => .initial m.ty init (readonly || m.readonly) hint
      | none => .default m.ty (readonly || m.readonly)) :: members readonly hint ms []

/-- The elements that an array value has from its position on. -/
def elementsFrom (v : Value) : RunM (List Value) := do
  match v.array? with
  | some (store, position) =>
    inspect fun s => (s.heap.cells store).toList.drop position.toNat
  | none => fail (.declaration (.arrayFrom (← text v)))

/-- Makes an object; `depth` bounds how deep it goes into parts. -/
def makeWithin : (depth : Nat) → Making → RunM (Progress .value)
  | 0, m => fail (.declaration (.containsItself m.type.text))
  | depth + 1, m => do
    let make := makeWithin depth
    match m with
    | .default ty readonly =>
      match ty with
      | .arith k =>
        let v := if k.isFloat then Value.float k 0.0 else Value.int k 0
        return .done (v.withReadonly readonly)
      | .array element size =>
        fillNext make ⟨ty, readonly, #[], [], size, element⟩ [] #[]
      | .pointer .. | .functionPointer _ => return .done ((Value.null ty).withReadonly readonly)
      | .struct name fields =>
        make (.struct (← inspect fun s => s.currentStruct name fields) [] readonly none)
      | .void => return .done (Value.void.withReadonly readonly)
      | .function _ | .marker => fail (.declaration (.noObjects ty))
    | .initial ty (.expr e) readonly hint =>
      if ty.isArray then visit e hint (.one (.arrayFrom ty readonly))
      else visit e (← inspect fun s => s.structOf? ty) (.one (.convert ty readonly))
    | .initial ty (.list _ items) readonly hint =>
      match ty, items with
      | .array element size, _ => fillArray make ty element size items readonly hint true
      | .struct name fields, _ =>
        make (.struct (← inspect fun s => s.currentStruct name fields) items readonly hint)
      | _, [] => make (.default ty readonly)
      | _, [.expr e] => make (.initial ty (.expr e) readonly hint)
      | _, [.list ..] => fail (.declaration .nestedTooFew)
      | _, _ => fail (.declaration (.tooManyInitializers ty.text))
    | .row ty items readonly hint =>
      match ty with
      | .array element size => fillArray make ty element size items readonly hint false
      | _ => fail (.declaration (.notArray ty))
    | .struct d items readonly hint =>
      if items.length > d.members.length then fail (.declaration (.tooManyInitializers d.name))
      fillNext make ⟨d.type, readonly, #[], [], 0, .void⟩ (members readonly hint d.members items) #[]
    | .copy ty v readonly => return .done ((← operate (OperatorM.copy v ty)).withReadonly readonly)
    | .arrayOf ty v readonly =>
      match ty with
      | .array element size =>
        let source ← elementsFrom v
        if source.length > size then fail (.declaration (.sizes size source.length))
        let part (item : Value) : Making :=
          if element.isArray then .arrayOf element item readonly else .copy element item readonly
        fillNext make ⟨ty, readonly, #[], [], size - source.length, element⟩ (source.map part) #[]
      | _ => fail (.declaration (.notArray ty))
    | .nested => fail (.declaration .nestedTooFew)

/-- Makes an object. -/
def make (m : Making) : RunM (Progress .value) := do
  makeWithin (← inspect fun s => s.makingDepth m.type) m

/-- Goes on with an object whose next part is made. -/
def resumeFilling (f : Filling) (v : Value) : RunM (Progress .value) := do
  fillNext make f f.next (f.made.push v)

/-- An array with the elements of an array value. -/
def makeArrayFrom (ty : Ty) (readonly : Bool) (v : Value) : RunM (Progress .value) := do
  if !v.ty.isArray then fail (.declaration (.arrayFrom (← text v)))
  make (.arrayOf ty v readonly)

/-- Stores a value into the first scalar of an array, which stays constant if it is. -/
def storeIntoFirst (v : Value) (readonly : Bool) : Ty → Value → RunM Unit
  | .array element _, array => do
    match array.array? with
    | none => return
    | some (store, _) =>
      match (← inspect fun s => s.heap.load? (.element store 0)) with
      | none => return
      | some first =>
        if first.ty.isArray then storeIntoFirst v readonly element first
        else
          let converted ← operate (OperatorM.convert v first.ty false)
          discard (onHeap (HeapM.attempt fun h =>
            h.init? (.element store 0) (converted.withReadonly readonly)))
  | _, _ => return

/-- The default array with a value in its first scalar. -/
def storeFirst (v : Value) (readonly : Bool) (array : Value) : RunM (Progress .value) := do
  storeIntoFirst v readonly array.ty array
  return .done array

/-- An array of arrays from a list of one value. -/
def makeSingle (ty : Ty) (readonly : Bool) (v : Value) : RunM (Progress .value) := do
  match ty with
  | .array element size =>
    if v.ty.isArray then
      fillNext make ⟨ty, readonly, #[], [], size - 1, element⟩ [.arrayOf element v readonly] #[]
    else if v.ty.isIntegral && (v.int? == some 0 || v.int? == some (-1)) then
      (← make (.default ty readonly)).andThen (.storeFirst v readonly) (storeFirst v readonly)
    else fail (.declaration (.nestedFrom (← text v)))
  | _ => fail (.declaration (.notArray ty))

/-- An array that is as long as an array value. -/
def makeOpen (element : Ty) (readonly : Bool) (v : Value) : RunM (Progress .value) := do
  make (.arrayOf (.array element (← elementsFrom v).length) v readonly)

end RunM

end Stepwise
