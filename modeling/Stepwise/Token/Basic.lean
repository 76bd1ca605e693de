import Stepwise.Decimal.Written
import Stepwise.Source.Position

/-! # Tokens

A token is a lexeme with the span it was read from. Keywords and symbols have
one fixed spelling; the other lexemes carry what they denote.
-/

namespace Stepwise

/-- The character set that a character or string literal is written in. -/
inductive CharWidth
  | narrow
  | wide
  | utf16
  | utf32
  deriving DecidableEq, Repr

/-- The reserved words that shape declarations, statements and expressions. -/
inductive Keyword
  | structWord
  | typedefWord
  | namespaceWord
  | usingWord
  | ifWord
  | elseWord
  | whileWord
  | doWord
  | forWord
  | switchWord
  | caseWord
  | defaultWord
  | breakWord
  | continueWord
  | returnWord
  | gotoWord
  | sizeofWord
  | staticCastWord
  | trueWord
  | falseWord
  | nullWord
  deriving DecidableEq, Repr

namespace Keyword

/-- The spelling of a keyword in messages. -/
def text : Keyword → String
  | structWord => "struct"
  | typedefWord => "typedef"
  | namespaceWord => "namespace"
  | usingWord => "using"
  | ifWord => "if"
  | elseWord => "else"
  | whileWord => "while"
  | doWord => "do"
  | forWord => "for"
  | switchWord => "switch"
  | caseWord => "case"
  | defaultWord => "default"
  | breakWord => "break"
  | continueWord => "continue"
  | returnWord => "return"
  | gotoWord => "goto"
  | sizeofWord => "sizeof"
  | staticCastWord => "static_cast"
  | trueWord => "true"
  | falseWord => "false"
  | nullWord => "nullptr"

/-- The keyword that a word spells; two keywords have a second spelling. -/
def ofWord? : String → Option Keyword
  | "struct" => some structWord
  | "class" => some structWord
  | "typedef" => some typedefWord
  | "namespace" => some namespaceWord
  | "using" => some usingWord
  | "if" => some ifWord
  | "else" => some elseWord
  | "while" => some whileWord
  | "do" => some doWord
  | "for" => some forWord
  | "switch" => some switchWord
  | "case" => some caseWord
  | "default" => some defaultWord
  | "break" => some breakWord
  | "continue" => some continueWord
  | "return" => some returnWord
  | "goto" => some gotoWord
  | "sizeof" => some sizeofWord
  | "static_cast" => some staticCastWord
  | "true" => some trueWord
  | "false" => some falseWord
  | "nullptr" => some nullWord
  | "NULL" => some nullWord
  | _ => none

theorem ofWord?_text (k : Keyword) : ofWord? k.text = some k := by cases k <;> rfl

end Keyword

/-- Operators and punctuation. -/
inductive Symbol
  | plus
  | minus
  | star
  | slash
  | percent
  | equal
  | notEqual
  | less
  | lessEqual
  | greater
  | greaterEqual
  | andAnd
  | orOr
  | bang
  | amp
  | pipe
  | caret
  | tilde
  | shiftLeft
  | shiftRight
  | assign
  | plusAssign
  | minusAssign
  | starAssign
  | slashAssign
  | percentAssign
  | ampAssign
  | pipeAssign
  | caretAssign
  | shiftLeftAssign
  | shiftRightAssign
  | increment
  | decrement
  | dot
  | arrow
  | question
  | colon
  | doubleColon
  | ellipsis
  | leftParen
  | rightParen
  | leftBrace
  | rightBrace
  | leftBracket
  | rightBracket
  | semicolon
  | comma
  deriving DecidableEq, Repr

namespace Symbol

/-- The characters of a symbol. -/
def chars : Symbol → List Char
  | plus => ['+']
  | minus => ['-']
  | star => ['*']
  | slash => ['/']
  | percent => ['%']
  | equal => ['=', '=']
  | notEqual => ['!', '=']
  | less => ['<']
  | lessEqual => ['<', '=']
  | greater => ['>']
  | greaterEqual => ['>', '=']
  | andAnd => ['&', '&']
  | orOr => ['|', '|']
  | bang => ['!']
  | amp => ['&']
  | pipe => ['|']
  | caret => ['^']
  | tilde => ['~']
  | shiftLeft => ['<', '<']
  | shiftRight => ['>', '>']
  | assign => ['=']
  | plusAssign => ['+', '=']
  | minusAssign => ['-', '=']
  | starAssign => ['*', '=']
  | slashAssign => ['/', '=']
  | percentAssign => ['%', '=']
  | ampAssign => ['&', '=']
  | pipeAssign => ['|', '=']
  | caretAssign => ['^', '=']
  | shiftLeftAssign => ['<', '<', '=']
  | shiftRightAssign => ['>', '>', '=']
  | increment => ['+', '+']
  | decrement => ['-', '-']
  | dot => ['.']
  | arrow => ['-', '>']
  | question => ['?']
  | colon => [':']
  | doubleColon => [':', ':']
  | ellipsis => ['.', '.', '.']
  | leftParen => ['(']
  | rightParen => [')']
  | leftBrace => ['\x7b']
  | rightBrace => ['\x7d']
  | leftBracket => ['[']
  | rightBracket => [']']
  | semicolon => [';']
  | comma => [',']

/-- Every symbol, those with more characters first. -/
def longestFirst : List Symbol :=
  [shiftLeftAssign, shiftRightAssign, ellipsis,
    equal, notEqual, lessEqual, greaterEqual, andAnd, orOr, shiftLeft, shiftRight, plusAssign,
    minusAssign, starAssign, slashAssign, percentAssign, ampAssign, pipeAssign, caretAssign,
    increment, decrement, arrow, doubleColon,
    semicolon, comma, leftParen, rightParen, leftBrace, rightBrace, leftBracket, rightBracket,
    assign, plus, minus, star, slash, percent, less, greater, bang, amp, pipe, caret, tilde, dot,
    question, colon]

theorem mem_longestFirst (s : Symbol) : s ∈ longestFirst := by cases s <;> decide

/-- The longest symbol that the text starts with. -/
def leading? (cs : List Char) : Option Symbol :=
  longestFirst.find? fun s => s.chars.isPrefixOf cs

theorem chars_ne_nil (s : Symbol) : s.chars ≠ [] := by cases s <;> simp [chars]

end Symbol

/-- What a token denotes. -/
inductive Lexeme
  | int (value radix : Nat) (unsigned long : Bool)
  | float (value : Float) (single : Bool)
  | char (code : Nat) (width : CharWidth)
  | string (text : String) (width : CharWidth)
  | identifier (name : String)
  | typeWord (word : String)
  | specifier (word : String)
  | keyword (keyword : Keyword)
  | symbol (symbol : Symbol)
  | endOfFile
  deriving Repr

/-- A lexeme and the span it was read from. -/
structure Token where
  lexeme : Lexeme
  span : Span
  deriving Repr

namespace Lexeme

/-- The words of the built-in types, several of which may combine. -/
def typeWords : List String :=
  ["void", "bool", "char", "wchar_t", "char16_t", "char32_t", "short", "int", "long", "signed",
    "unsigned", "float", "double", "auto"]

/-- The words accepted before a type. -/
def specifierWords : List String :=
  ["const", "inline", "_stdcall", "extern", "static", "register"]

/-- The lexeme that a word spells. -/
def ofWord (word : String) : Lexeme :=
  match Keyword.ofWord? word with
  | some k => keyword k
  | none =>
    if typeWords.contains word then typeWord word
    else if specifierWords.contains word then specifier word
    else identifier word

/-- The lower-case hexadecimal digits of a number, at least two. -/
def hexPair (n : Nat) : List Char :=
  let cs := Nat.toDigits 16 n
  List.replicate (2 - cs.length) '0' ++ cs

/-- The text between the quotes of a character literal, escaped unless it is visible ASCII. -/
def charBody (code : Nat) : List Char :=
  if 0x20 ≤ code && code ≤ 0x7e then [Char.ofNat code] else '\\' :: 'x' :: hexPair code

/-- How messages name a lexeme. -/
def describe : Lexeme → String
  | int value .. => "int literal " ++ toString value
  | float value _ => "float literal " ++ Decimal.write Decimal.plain value
  | char code _ => "char literal '" ++ String.ofList (charBody code) ++ "'"
  | string text _ => "string literal \"" ++ text ++ "\""
  | identifier name => "identifier '" ++ name ++ "'"
  | typeWord word => "'" ++ word ++ "'"
  | specifier word => "'" ++ word ++ "'"
  | keyword k => "'" ++ k.text ++ "'"
  | symbol s => "'" ++ String.ofList s.chars ++ "'"
  | endOfFile => "end of file"

end Lexeme

end Stepwise
