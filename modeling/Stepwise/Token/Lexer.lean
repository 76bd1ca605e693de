import Stepwise.Decimal.Reading
import Stepwise.Text.Blank
import Stepwise.Text.Code
import Stepwise.Token.Basic
import Stepwise.Token.Reader

/-! # Lexical analysis

`scan` splits a source text into tokens and records the names that its include
directives give. Blanks, comments and the other directives separate tokens. Every
step leaves fewer characters, so no text is too odd to scan.
-/

namespace Stepwise

/-- Why a text has no next token. -/
inductive LexCause
  | unexpected (c : Char)
  | openString
  | openComment
  | endInEscape
  | badHexEscape (digits : String)
  | unknownEscape (c : Char)
  | endInChar
  | openChar
  | badNumber (text : String)
  deriving DecidableEq, Repr

namespace LexCause

def message : LexCause → String
  | unexpected c => "Unexpected character: '" ++ String.singleton c ++ "'"
  | openString => "Unterminated string literal"
  | openComment => "Unterminated block comment"
  | endInEscape => "Unexpected end of file in escape sequence"
  | badHexEscape digits => "Invalid hex escape sequence: \\x" ++ digits
  | unknownEscape c => "Unknown escape sequence: \\" ++ String.singleton c
  | endInChar => "Unexpected end of file in character literal"
  | openChar => "Expected closing quote in character literal"
  | badNumber text => "Invalid numeric literal: " ++ text

end LexCause

structure LexError where
  cause : LexCause
  span : Span
  deriving DecidableEq, Repr

namespace LexError

def message (e : LexError) : String := e.cause.message

/-- The message with the place it points to. -/
def display (e : LexError) : String :=
  "Lexer error at line " ++ toString e.span.line ++ ", column " ++ toString e.span.column ++ ": "
    ++ e.message

/-- An error about the text between two readers. -/
def between (r s : Reader) (cause : LexCause) : LexError := ⟨cause, .between r.position s.position⟩

end LexError

namespace Lexeme

/-- The characters that one-letter escapes stand for. -/
def simpleEscape? : Char → Option Nat
  | 'n' => some 0x0a
  | 't' => some 0x09
  | 'r' => some 0x0d
  | 'a' => some 0x07
  | 'b' => some 0x08
  | 'f' => some 0x0c
  | 'v' => some 0x0b
  | '\\' => some 0x5c
  | '\'' => some 0x27
  | '"' => some 0x22
  | '?' => some 0x3f
  | _ => none

/-- The code point of an escape whose backslash is already read. -/
def escape (r : Reader) : Except LexError (Reading r Nat) :=
  match h : r.rest with
  | [] => .error (.between r r .endInEscape)
  | c :: cs =>
    let one : (r.drop 1).rest.length < r.rest.length :=
      Reader.length_drop_lt Nat.zero_lt_one (Reader.ne_nil_of_rest h)
    match simpleEscape? c with
    | some code => .ok ⟨code, r.drop 1, one⟩
    | none =>
      if c = 'x' then
        let digits := cs.takeWhile (Text.isDigitIn 16)
        let next := r.drop (digits.length + 1)
        match Text.readBits? 32 16 digits with
        | some code =>
          .ok ⟨code, next, Reader.length_drop_lt (Nat.succ_pos _) (Reader.ne_nil_of_rest h)⟩
        | none => .error (.between r next (.badHexEscape (String.ofList digits)))
      else if Text.isDigitIn 8 c then
        let digits := c :: (cs.takeWhile (Text.isDigitIn 8)).take 2
        .ok ⟨(Text.readNat? 8 digits).getD 0, r.drop digits.length,
          Reader.length_drop_lt (Nat.succ_pos _) (Reader.ne_nil_of_rest h)⟩
      else .error (.between r (r.drop 1) (.unknownEscape c))

/-- The rest of a string literal that began at `start`; `text` holds the characters so far,
the last one first. -/
def stringBody (start : Reader) (width : CharWidth) (r : Reader) (text : List Char)
    (shorter : r.rest.length < start.rest.length) : Except LexError (Reading start Lexeme) :=
  match h : r.rest with
  | [] => .error (.between start r .openString)
  | c :: _ =>
    have one : (r.drop 1).rest.length < r.rest.length :=
      Reader.length_drop_lt Nat.zero_lt_one (Reader.ne_nil_of_rest h)
    if c = '"' then
      .ok ⟨.string (String.ofList text.reverse) width, r.drop 1, Nat.lt_trans one shorter⟩
    else if c = '\n' then .error (.between start r .openString)
    else if c = '\\' then do
      let ⟨code, next, fewer⟩ ← escape (r.drop 1)
      stringBody start width next ((Text.charOfCode? code).getD Text.replacement :: text)
        (by omega)
    else stringBody start width (r.drop 1) (c :: text) (Nat.lt_trans one shorter)
termination_by r.rest.length

/-- The closing quote of a character literal that began at `start`. -/
def charClose (start : Reader) (width : CharWidth) (code : Nat) (r : Reader)
    (shorter : r.rest.length < start.rest.length) : Except LexError (Reading start Lexeme) :=
  if r.rest.head? = some '\'' then
    .ok ⟨.char code width, r.drop 1, Nat.lt_of_le_of_lt (Reader.length_drop_le _ _) shorter⟩
  else .error (.between start (r.drop 1) .openChar)

/-- The rest of a character literal that began at `start`. -/
def charLiteral (start : Reader) (width : CharWidth) (r : Reader)
    (shorter : r.rest.length < start.rest.length) : Except LexError (Reading start Lexeme) :=
  match r.rest with
  | [] => .error (.between start r .endInChar)
  | c :: _ =>
    have fewer := Nat.lt_of_le_of_lt (Reader.length_drop_le r 1) shorter
    if c = '\\' then do
      let ⟨code, next, less⟩ ← escape (r.drop 1)
      charClose start width code next (Nat.lt_trans less fewer)
    else charClose start width c.toNat (r.drop 1) fewer

/-- Digits with quotes between them. -/
def isSpacedDigit (base : Nat) (c : Char) : Bool := c = '\'' || Text.isDigitIn base c

def withoutQuotes (cs : List Char) : List Char := cs.filter (· ≠ '\'')

/-- The suffix letters after an integer: whether one is a `u`, and whether one is an `l`. -/
def integerSuffix (cs : List Char) : Bool × Bool × Nat :=
  let letters := cs.takeWhile fun c => c = 'u' || c = 'U' || c = 'l' || c = 'L'
  (letters.any fun c => c = 'u' || c = 'U', letters.any fun c => c = 'l' || c = 'L',
    letters.length)

/-- The characters of an exponent part, or none if there is no mark. -/
def exponentPart : List Char → List Char
  | c :: cs =>
    if c = 'e' || c = 'E' then
      match cs with
      | s :: ds =>
        if s = '+' || s = '-' then 'e' :: s :: ds.takeWhile Char.isDigit
        else 'e' :: cs.takeWhile Char.isDigit
      | [] => ['e']
    else []
  | [] => []

/-- The characters of a fraction part, its point included. -/
def fractionPart : List Char → List Char
  | '.' :: cs => '.' :: cs.takeWhile Char.isDigit
  | _ => []

/-- An integer with its suffix, whose digits end at `r.drop n`. -/
def integer (r : Reader) (n radix : Nat) (digits text : List Char) (hn : 0 < n)
    (hr : r.rest ≠ []) : Except LexError (Reading r Lexeme) :=
  match Text.readBits? 128 radix digits with
  | none => .error (.between r (r.drop n) (.badNumber (String.ofList text)))
  | some value =>
    let (unsigned, long, letters) := integerSuffix (r.drop n).rest
    .ok ⟨.int value radix unsigned long, r.drop (n + letters),
      Reader.length_drop_lt (Nat.lt_of_lt_of_le hn (Nat.le_add_right _ _)) hr⟩

/-- A float with its suffix, whose digits end at `r.drop n`. -/
def floating (r : Reader) (n : Nat) (text : List Char) (hn : 0 < n) (hr : r.rest ≠ []) :
    Except LexError (Reading r Lexeme) :=
  match Decimal.read? (String.ofList text) with
  | none => .error (.between r (r.drop n) (.badNumber (String.ofList text)))
  | some value =>
    let suffix := (r.drop n).rest.head?
    let single := suffix = some 'f' || suffix = some 'F'
    let letters := if single || suffix = some 'l' || suffix = some 'L' then 1 else 0
    .ok ⟨.float value single, r.drop (n + letters),
      Reader.length_drop_lt (Nat.lt_of_lt_of_le hn (Nat.le_add_right _ _)) hr⟩

/-- The base that the characters after a leading zero announce. -/
def announcedBase? : List Char → Option Nat
  | '0' :: 'x' :: _ => some 16
  | '0' :: 'X' :: _ => some 16
  | '0' :: 'b' :: _ => some 2
  | '0' :: 'B' :: _ => some 2
  | _ => none

/-- A numeric literal. -/
def number (r : Reader) (hr : r.rest ≠ []) : Except LexError (Reading r Lexeme) :=
  match announcedBase? r.rest with
  | some base =>
    let spaced := (r.rest.drop 2).takeWhile (isSpacedDigit base)
    let digits := withoutQuotes spaced
    integer r (spaced.length + 2) base digits digits (Nat.succ_pos _) hr
  | none =>
    let c := r.rest.head hr
    let whole := (r.rest.drop 1).takeWhile (isSpacedDigit 10)
    let fraction := if c = '.' then [] else fractionPart (r.rest.drop (whole.length + 1))
    let exponent := exponentPart (r.rest.drop (whole.length + fraction.length + 1))
    let spaced := c :: (whole ++ fraction ++ exponent)
    let text := withoutQuotes spaced
    if c = '.' || !fraction.isEmpty || !exponent.isEmpty then
      floating r spaced.length text (Nat.succ_pos _) hr
    else
      match text with
      | '0' :: d :: ds => integer r spaced.length 8 (d :: ds) text (Nat.succ_pos _) hr
      | _ => integer r spaced.length 10 text text (Nat.succ_pos _) hr

/-- The character set that a word announces when a quote follows it. -/
def literalWidth? : String → Option CharWidth
  | "L" => some .wide
  | "u" => some .utf16
  | "U" => some .utf32
  | "u8" => some .narrow
  | _ => none

def isWordStart (c : Char) : Bool := c.isAlpha || c = '_'

def isWordPart (c : Char) : Bool := c.isAlphanum || c = '_'

/-- A word, or a literal whose character set the word announces. -/
def word (r : Reader) (hr : r.rest ≠ []) : Except LexError (Reading r Lexeme) :=
  let cs := r.rest.head hr :: (r.rest.drop 1).takeWhile isWordPart
  let next := r.drop cs.length
  have shorter : next.rest.length < r.rest.length := Reader.length_drop_lt (Nat.succ_pos _) hr
  have fewer := Nat.lt_of_le_of_lt (Reader.length_drop_le next 1) shorter
  match literalWidth? (String.ofList cs), next.rest.head? with
  | some width, some '"' => stringBody r width (next.drop 1) [] fewer
  | some width, some '\'' => charLiteral r width (next.drop 1) fewer
  | _, _ => .ok ⟨ofWord (String.ofList cs), next, shorter⟩

/-- The lexeme at the start of a text that begins with no blank, comment or directive. -/
def next (r : Reader) (hr : r.rest ≠ []) : Except LexError (Reading r Lexeme) :=
  let c := r.rest.head hr
  have one := Reader.length_drop_lt Nat.zero_lt_one hr
  if c = '"' then stringBody r .narrow (r.drop 1) [] one
  else if c = '\'' then charLiteral r .narrow (r.drop 1) one
  else if c.isDigit || (c = '.' && (r.rest.drop 1).head?.any Char.isDigit) then number r hr
  else if isWordStart c then word r hr
  else
    match Symbol.leading? r.rest with
    | some s =>
      .ok ⟨.symbol s, r.drop s.chars.length,
        Reader.length_drop_lt (List.length_pos_iff.2 s.chars_ne_nil) hr⟩
    | none => .error (.between r (r.drop 1) (.unexpected c))

end Lexeme

/-- The library name of an include directive; the line is given with its number signs. -/
def includeName? (line : List Char) : Option String :=
  let directive := (line.dropWhile (· = '#')).dropWhile Text.isBlank
  let word := "include".toList
  if word.isPrefixOf directive then
    let opened := (Text.strip (directive.drop word.length)).dropWhile fun c => c = '<' || c = '"'
    let name := Text.strip (Text.dropEndWhile (fun c => c = '>' || c = '"') opened)
    if name.isEmpty then none else some (String.ofList name)
  else none

/-- The number of characters up to and with the end of a block comment. -/
def commentLength? : List Char → Option Nat
  | '*' :: '/' :: _ => some 2
  | _ :: cs => (commentLength? cs).map (· + 1)
  | [] => none

/-- What a source text is made of. -/
structure Scan where
  includes : List String
  tokens : Except LexError (List Token)

/-- The tokens and include names from a reader on. -/
def Scan.from (r : Reader) : Scan :=
  match h : r.rest with
  | [] => ⟨[], .ok [⟨.endOfFile, .between r.position r.position⟩]⟩
  | c :: cs =>
    have hr := Reader.ne_nil_of_rest h
    let line := cs.takeWhile (· ≠ '\n')
    if c = ' ' || c = '\t' || c = '\r' || c = '\n' then Scan.from (r.drop 1)
    else if c = '/' && cs.head? = some '/' then Scan.from (r.drop (line.length + 2))
    else if c = '/' && cs.head? = some '*' then
      match commentLength? (cs.drop 1) with
      | some n => Scan.from (r.drop (n + 2))
      | none => ⟨[], .error (.between r (r.drop r.rest.length) .openComment)⟩
    else if c = '#' then
      let s := Scan.from (r.drop (line.length + 2))
      { s with includes := (includeName? (c :: line)).toList ++ s.includes }
    else
      match Lexeme.next r hr with
      | .error e => ⟨[], .error e⟩
      | .ok ⟨lexeme, next, _⟩ =>
        let s := Scan.from next
        { s with tokens := s.tokens.map (⟨lexeme, .between r.position next.position⟩ :: ·) }
termination_by r.rest.length
decreasing_by
  all_goals first
    | exact Reader.length_drop_lt (Nat.succ_pos _) (Reader.ne_nil_of_rest h)
    | assumption

/-- Splits a source text into tokens. -/
def scan (source : String) : Scan := Scan.from (.ofText source)

end Stepwise
