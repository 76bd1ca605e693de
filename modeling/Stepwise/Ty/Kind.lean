/-! # Arithmetic kinds

The seventeen arithmetic types, the words that name them, and the classes they
fall into. Their ranges and widths are a matter of the limits table.
-/

namespace Stepwise

inductive ArithKind
  | bool
  | char
  | signedChar
  | unsignedChar
  | wchar
  | char16
  | char32
  | short
  | unsignedShort
  | int
  | unsigned
  | long
  | unsignedLong
  | longLong
  | unsignedLongLong
  | float
  | double
  deriving DecidableEq, Repr

namespace ArithKind

def all : List ArithKind :=
  [bool, char, signedChar, unsignedChar, wchar, char16, char32, short, unsignedShort, int, unsigned,
    long, unsignedLong, longLong, unsignedLongLong, float, double]

theorem mem_all (k : ArithKind) : k ∈ all := by cases k <;> decide

/-- The spelling of a kind in messages and signatures. -/
def name : ArithKind → String
  | bool => "bool"
  | char => "char"
  | signedChar => "signed char"
  | unsignedChar => "unsigned char"
  | wchar => "wchar_t"
  | char16 => "char16_t"
  | char32 => "char32_t"
  | short => "short"
  | unsignedShort => "unsigned short"
  | int => "int"
  | unsigned => "unsigned int"
  | long => "long"
  | unsignedLong => "unsigned long"
  | longLong => "long long"
  | unsignedLongLong => "unsigned long long"
  | float => "float"
  | double => "double"

/-- The kind with a given spelling. -/
def ofName? (text : String) : Option ArithKind := all.find? fun k => k.name == text

theorem ofName?_name (k : ArithKind) : ofName? k.name = some k := by cases k <;> rfl

def isFloat : ArithKind → Bool
  | float | double => true
  | _ => false

def isIntegral (k : ArithKind) : Bool := !k.isFloat

def isUnsigned : ArithKind → Bool
  | bool | unsignedChar | unsignedShort | unsigned | unsignedLong | unsignedLongLong => true
  | _ => false

def isChar : ArithKind → Bool
  | char | signedChar | unsignedChar | wchar | char16 | char32 => true
  | _ => false

/-- The signed kind of the same width; other kinds are their own counterpart. -/
def signedCounterpart : ArithKind → ArithKind
  | bool => signedChar
  | unsignedChar => signedChar
  | unsignedShort => short
  | unsigned => int
  | unsignedLong => long
  | unsignedLongLong => longLong
  | k => k

/-- The words that fix a kind up to signedness and length. -/
inductive BaseWord
  | bool
  | char
  | wchar
  | char16
  | char32
  | short
  | float
  | double
  deriving DecidableEq

def BaseWord.ofWord? : String → Option BaseWord
  | "bool" => some .bool
  | "char" => some .char
  | "wchar_t" => some .wchar
  | "char16_t" => some .char16
  | "char32_t" => some .char32
  | "short" => some .short
  | "float" => some .float
  | "double" => some .double
  | _ => none

/-- The kind that a sequence of type words names; their order is free, at most one is a base
word, and signedness and length do not matter to the bases that have none. -/
def ofWords? (words : List String) : Option ArithKind :=
  let isModifier (w : String) := w = "unsigned" || w = "signed" || w = "long" || w = "int"
  let bases := words.filterMap BaseWord.ofWord?
  let isUnsigned := words.contains "unsigned"
  let isSigned := words.contains "signed"
  let longs := words.count "long"
  if !words.all (fun w => isModifier w || (BaseWord.ofWord? w).isSome) then none
  else if isUnsigned && isSigned then none
  else
    match bases with
    | [.bool] => some bool
    | [.wchar] => some wchar
    | [.char16] => some char16
    | [.char32] => some char32
    | [.float] => some float
    | [.double] => some double
    | [.char] => some (if isUnsigned then unsignedChar else if isSigned then signedChar else char)
    | [.short] => some (if isUnsigned then unsignedShort else short)
    | [] =>
      some <|
        if longs ≥ 2 then if isUnsigned then unsignedLongLong else longLong
        else if longs = 1 then if isUnsigned then unsignedLong else long
        else if isUnsigned then unsigned
        else int
    | _ => none

end ArithKind

end Stepwise
