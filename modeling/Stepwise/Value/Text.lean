import Stepwise.Decimal.Written
import Stepwise.Text.Code
import Stepwise.Text.Quoted
import Stepwise.Value.Heap

/-! # The text of values

Values as messages and listings show them. Pointers and aggregates are followed to
a fixed depth, so that structures which refer to themselves have a text too.
-/

namespace Stepwise

namespace Heap

/-- The characters of an array of characters from its position up to the terminator; cells that
hold no character are left out. -/
def charArray? (h : Heap) (v : Value) : Option String := do
  let (store, position) ← v.array?
  let element ← v.ty.pointee?
  guard (element.arith?.any ArithKind.isChar)
  guard (0 ≤ position)
  let codes := ((h.cells store).toList.drop position.toNat).map Value.int?
  let codes := codes.takeWhile fun c => c.any (· != 0)
  return String.ofList (codes.filterMap fun c => c.bind fun n =>
    if n < 0 then none else Text.charOfCode? n.toNat)

def charText (n : Int) : String :=
  match if n < 0 then none else Text.charOfCode? n.toNat with
  | some c => if Text.isControl c then toString n else "'" ++ String.singleton c ++ "'"
  | none => toString n

def intText (ty : Ty) (n : Int) : String :=
  match ty with
  | .arith k => if k = .bool then (if n != 0 then "true" else "false")
      else if k.isChar then charText n else toString n
  | _ => toString n

def braced (items : List String) : String := "\x7b" ++ ", ".intercalate items ++ "\x7d"

def elided : String := braced ["..."]

/-- The text of a value whose parts are followed `depth` levels down. -/
def render (h : Heap) : Nat → Value → String
  | depth, v =>
    let inner (w : Value) : String :=
      match depth with
      | 0 => "..."
      | d + 1 => render h d w
    match v.data with
    | .int n => intText v.ty n
    | .float x => Decimal.write Decimal.precise x.value
    | .void => "void"
    | .function f => f.name
    | .struct store =>
      match v.ty with
      | .struct name members =>
        if depth = 0 then elided
        else
          let fields := (members.zip (h.cells store).toList).map fun (m, w) =>
            m.name ++ ": " ++ inner w
          name ++ " " ++ braced fields
      | _ => elided
    | data =>
      if v.ty.isArray then
        match h.charArray? v with
        | some text => Text.quoted text
        | none =>
          match data with
          | .array (some store) _ =>
            if depth = 0 then elided else braced ((h.cells store).toList.map inner)
          | _ => elided
      else
        match data with
        | .functionPointer (some f) => "&" ++ f.name
        | .pointer (some p) =>
          match h.load? p with
          | some w => "&" ++ inner w
          | none => "&..."
        | .array (some store) position =>
          "&[" ++ toString position ++ "] of " ++ toString (h.cells store).size
        | _ => "nullptr"

/-- The text of a value in messages and listings. -/
def text (h : Heap) (v : Value) : String := h.render 3 v

end Heap

end Stepwise
