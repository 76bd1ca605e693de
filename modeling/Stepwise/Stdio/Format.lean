import Stepwise.Operator.Number
import Stepwise.Value.Text

/-! # Formatted output

A format is text with fields. A field starts with a percent sign and takes one
argument: flags, a width, a precision and length letters come before the letter of
its conversion, in this order. Two percent signs are one in the output. Fields are
padded to their width, on the left unless a flag says otherwise.
-/

namespace Stepwise.Format

/-- How a field is laid out. -/
structure Field where
  left : Bool := false
  zero : Bool := false
  plus : Bool := false
  space : Bool := false
  width : Nat := 0
  precision : Option Nat := none
  deriving DecidableEq, Repr

inductive Piece
  | text (c : Char)
  | field (f : Field) (conversion : Char)
  /-- A field that the format ends before the conversion of. -/
  | incomplete
  deriving DecidableEq, Repr

/-- The part of a field that its last character belonged to. -/
inductive Part
  | flags
  | width
  | precision
  | length
  deriving DecidableEq, Repr

def digitOf (c : Char) : Nat := c.toNat - '0'.toNat

/-- A width or a precision with one more digit. It has 64 bits, and what is above them is lost. -/
def withDigit (size : Nat) (c : Char) : Nat := (size * 10 + digitOf c) % pow2 64

/-- The field after one more character, or nothing if that is the conversion. -/
def advance (part : Part) (f : Field) (c : Char) : Option (Part × Field) :=
  let sized := part = .flags || part = .width
  if part = .flags && c = '-' then some (.flags, { f with left := true })
  else if part = .flags && c = '0' then some (.flags, { f with zero := true })
  else if part = .flags && c = '+' then some (.flags, { f with plus := true })
  else if part = .flags && c = ' ' then some (.flags, { f with space := true })
  else if part = .flags && c = '#' then some (.flags, f)
  else if sized && c.isDigit then some (.width, { f with width := withDigit f.width c })
  else if sized && c = '.' then some (.precision, { f with precision := some 0 })
  else if part = .precision && c.isDigit then
    some (.precision, { f with precision := some (withDigit (f.precision.getD 0) c) })
  else if c = 'h' || c = 'l' || c = 'L' || c = 'z' then some (.length, f)
  else none

/-- The pieces of a format; `open?` is the field that has begun. -/
def pieces : (open? : Option (Part × Field)) → List Char → List Piece
  | none, [] => []
  | some _, [] => [.incomplete]
  | none, '%' :: '%' :: cs => .text '%' :: pieces none cs
  | none, '%' :: cs => pieces (some (.flags, {})) cs
  | none, c :: cs => .text c :: pieces none cs
  | some (part, f), c :: cs =>
    match advance part f c with
    | some next => pieces (some next) cs
    | none => .field f c :: pieces none cs

namespace Field

/-- The text padded to the width; zeros go between the sign and the digits of a number. -/
def pad (f : Field) (body : List Char) (numeric : Bool) : List Char :=
  let fill := f.width - body.length
  if f.left then body ++ List.replicate fill ' '
  else if f.zero && numeric then
    match body with
    | '-' :: cs => '-' :: List.replicate fill '0' ++ cs
    | '+' :: cs => '+' :: List.replicate fill '0' ++ cs
    | ' ' :: cs => ' ' :: List.replicate fill '0' ++ cs
    | cs => List.replicate fill '0' ++ cs
  else List.replicate fill ' ' ++ body

/-- The digits with the sign that the flags ask for. -/
def signed (f : Field) (negative : Bool) (digits : List Char) : List Char :=
  if negative then '-' :: digits
  else if f.plus then '+' :: digits
  else if f.space then ' ' :: digits
  else digits

theorem length_pad (f : Field) (body : List Char) (numeric : Bool) :
    (f.pad body numeric).length = max f.width body.length := by
  unfold pad
  split
  · simp only [List.length_append, List.length_replicate]; omega
  · split
    · split <;> simp only [List.length_append, List.length_cons, List.length_replicate] <;> omega
    · simp only [List.length_append, List.length_replicate]; omega

end Field

/-- An integer, or a float cut off at its point. -/
def integerOf (x : Number) : Int :=
  match x with
  | .int v => v
  | .float f =>
    match Binary.ofFloat? f.value with
    | some b => Wide.clamp b.truncate
    | none => if f.isNaN then 0 else if f.value > 0 then Wide.max else Wide.min

/-- An integer of a kind without its sign: negative ones in two's complement, at the width of the
kind or of `int` if that is wider. Widths count up to 128 bits and begin again. -/
def unsignedOf (limits : LimitsTable) (kind : Option ArithKind) (v : Int) : Nat :=
  if v ≥ 0 then v.toNat
  else
    let wide := (kind.filter fun k => limits.rank k ≥ limits.rank .int).getD .int
    ((v + pow2 (8 * (limits.get wide).bytes % 128)) % pow2 128).toNat

def upper (cs : List Char) : List Char := cs.map Char.toUpper

/-- One digit, the others after the point, and an exponent of at least two digits. -/
def exponential (places : Nat) (x : Float) : List Char :=
  match Binary.ofFloat? x with
  | none => (Decimal.write Decimal.plain x).toList
  | some b =>
    let (digits, exponent) := Decimal.significant places b
    let size := Decimal.digitChars exponent.natAbs
    Decimal.pointed digits places ++ ['e', if exponent < 0 then '-' else '+']
      ++ Decimal.zeros (2 - size.length) ++ size

/-- The text without the zeros at the end of a fraction, and without a point that ends it. -/
def trimFraction (cs : List Char) : List Char :=
  if cs.contains '.' then
    ((cs.reverse.dropWhile (· = '0')).dropWhile (· = '.')).reverse
  else cs

/-- The exponent of a number in scientific form, by its logarithm. -/
def decimalExponent (x : Float) : Int :=
  match Binary.ofFloat? x.log10.floor with
  | some b => b.truncate
  | none => if x.isNaN then 0 else pow2 31 - 1

/-- Exponential form for very small and very large numbers, and fixed form for others, with
`precision` significant digits less the zeros at their end. -/
def general (precision : Nat) (x : Float) : List Char :=
  let precision := max precision 1
  if x == 0.0 then ['0']
  else
    let exponent := decimalExponent x
    if exponent < -4 || exponent ≥ precision then
      let cs := exponential (precision - 1) x
      trimFraction (cs.takeWhile (· ≠ 'e')) ++ cs.dropWhile (· ≠ 'e')
    else
      let places := (Int.ofNat precision - 1 - exponent).toNat
      trimFraction (Decimal.fixed places x).toList

/-- The text of a float without its sign. -/
def floatDigits (conversion : Char) (precision : Nat) (x : Float) : List Char :=
  if conversion = 'f' || conversion = 'F' then (Decimal.fixed precision x).toList
  else if conversion = 'e' then exponential precision x
  else if conversion = 'E' then upper (exponential precision x)
  else if conversion = 'g' then general precision x
  else upper (general precision x)

/-- The digits of a natural number in the base of a conversion. -/
def unsignedDigits (conversion : Char) (n : Nat) : List Char :=
  if conversion = 'u' then Nat.toDigits 10 n
  else if conversion = 'x' then Nat.toDigits 16 n
  else if conversion = 'X' then upper (Nat.toDigits 16 n)
  else Nat.toDigits 8 n

end Format

/-- The text that a pointer to characters addresses, up to its terminator. -/
def Heap.stringAt (h : Heap) (v : Value) : Except LibraryFault String :=
  match h.charArray? v with
  | some text => .ok text
  | none =>
    let codeText (code : Option Int) : String :=
      match code with
      | some n =>
        if n ≤ 0 then "" else ((Text.charOfCode? n.toNat).map String.singleton).getD ""
      | none => ""
    match v.data with
    | .pointer (some ⟨.element, store, index⟩) =>
      let codes := (((h.cells store).toList.drop index).map Value.int?).takeWhile
        fun c => c.any (· != 0)
      .ok (String.join (codes.map codeText))
    | .pointer (some p) => .ok (codeText ((h.load? p).bind Value.int?))
    | data => .error (if data.isNull then .nullString else .notString (h.text v))

namespace Format

/-- The number that an argument is. -/
def numberArg (h : Heap) (v : Value) : Except LibraryFault Number :=
  match v.number? with
  | some x => .ok x
  | none => .error (.notNumber (h.text v))

/-- The text of one field. -/
def fieldText (h : Heap) (limits : LimitsTable) (f : Field) (conversion : Char) (v : Value) :
    Except LibraryFault (List Char) := do
  if conversion = 'd' || conversion = 'i' then
    let n := integerOf (← numberArg h v)
    return f.pad (f.signed (n < 0) (Nat.toDigits 10 n.natAbs)) true
  else if conversion = 'u' || conversion = 'x' || conversion = 'X' || conversion = 'o' then
    let n := integerOf (← numberArg h v)
    return f.pad (unsignedDigits conversion (unsignedOf limits v.ty.arith? n)) true
  else if conversion = 'c' then
    let n := integerOf (← numberArg h v)
    let c := if n < 0 then none else Text.charOfCode? n.toNat
    return f.pad [c.getD Text.replacement] false
  else if conversion = 's' then
    let cs := (← h.stringAt v).toList
    return f.pad (match f.precision with | some n => cs.take n | none => cs) false
  else if ['f', 'F', 'e', 'E', 'g', 'G'].contains conversion then
    let x := (← numberArg h v).toSigned
    let digits := floatDigits conversion (f.precision.getD 6) x.value.abs
    return f.pad (f.signed x.isNegative digits) true
  else if conversion = 'p' then return f.pad (h.text v).toList false
  else throw (.unknownConversion conversion)

/-- The output of the pieces, each field with the next argument, after the output `out`. -/
def render (h : Heap) (limits : LimitsTable) :
    List Piece → List Value → (out : String) → Except LibraryFault String
  | [], _, out => .ok out
  | .text c :: ps, args, out => render h limits ps args (out.push c)
  | .incomplete :: _, _, _ => .error .incompleteFormat
  | .field _ conversion :: _, [], _ => .error (.missingArgument conversion)
  | .field f conversion :: ps, v :: args, out => do
    let cs ← fieldText h limits f conversion v
    render h limits ps args (out ++ String.ofList cs)

/-- A format with its fields filled in. -/
def expand (h : Heap) (limits : LimitsTable) (format : String) (args : List Value) :
    Except LibraryFault String :=
  render h limits (pieces none format.toList) args ""

end Format

end Stepwise
