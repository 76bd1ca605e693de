import Stepwise.Ty.Basic

/-! # Causes of faults

Every way in which a program can go wrong, with what the message names. Values
are kept as the texts that messages show.
-/

namespace Stepwise

/-- Faults of numbers, conversions and operators. -/
inductive OperatorFault
  /-- A number outside the range of its kind. -/
  | overflow (kind : ArithKind) (what : String)
  | stepOverflow (trailing increment : Bool) (value : String)
  | divisionByZero
  | shiftCount (count : Int)
  | cannotConvert (value : String) (target : Ty)
  /-- `operand` is none for an operator with one operand. -/
  | unsupported (type : Ty) (op : String) (operand : Option Ty)
  | stepUnsupported (type : Ty) (increment : Bool)
  | callUnsupported (type : Ty)
  | notLvalue (value : String)
  | readonly (value : String)
  | indexOutOfBounds
  | positionOutOfBounds (position : Int) (size : Nat)
  | uninitializedPointer
  | multipliedPointer
  | notDataPointer (value : String)
  | pointerOverflow
  | nonNumericOffset
  | notArrayPointer (type : Ty)
  | minusAcrossArrays
  | compareAcrossArrays
  | arrayAssignment (type : Ty)
  | nullCall
  | notFunctionPointer (value : String)
  | bitAndOnFunction

namespace OperatorFault

def stepVerb (increment : Bool) : String := if increment then "increment" else "decrement"

def message : OperatorFault → String
  | overflow kind what => "overflow of " ++ kind.name ++ " " ++ what
  | stepOverflow trailing increment value =>
    "overflow during " ++ (if trailing then "post" else "pre") ++ "-" ++ stepVerb increment ++ " "
      ++ value
  | divisionByZero => "division by zero"
  | shiftCount count => "invalid shift count " ++ toString count
  | cannotConvert value target => "cannot convert " ++ value ++ " to " ++ target.text
  | unsupported type op operand =>
    type.text ++ " does not support " ++ op ++ " on "
      ++ match operand with
        | some t => t.text
        | none => "itself"
  | stepUnsupported type increment => type.text ++ " does not support " ++ stepVerb increment
  | callUnsupported type => type.text ++ " does not support ()"
  | notLvalue value => value ++ " is not a left value"
  | readonly value => "assignment of read-only variable " ++ value
  | indexOutOfBounds => "array index out of bounds"
  | positionOutOfBounds position size =>
    "array index out of bounds: " ++ toString position ++ " of " ++ toString size
  | uninitializedPointer => "you cannot dereference an uninitialized pointer"
  | multipliedPointer => "you cannot multiply a pointer"
  | notDataPointer value => "pointer (" ++ value ++ ") is not a data pointer"
  | pointerOverflow => "pointer arithmetic overflow"
  | nonNumericOffset => "cannot add non-numeric to an array pointer"
  | notArrayPointer type => type.text ++ " is not an array pointer type"
  | minusAcrossArrays => "you cannot perform minus on pointers pointing to different arrays"
  | compareAcrossArrays => "you cannot perform compare on pointers pointing to different arrays"
  | arrayAssignment type => "array type " ++ type.text ++ " is not assignable"
  | nullCall => "you cannot call a null function pointer"
  | notFunctionPointer value => "pointer target(" ++ value ++ ") is not a function"
  | bitAndOnFunction => "you cannot cast bitwise and on function"

end OperatorFault

/-- Faults of names, overloads and calls. -/
inductive NameFault
  | undefined (name : String)
  | alreadyDefined (name scope : String)
  | noNamespace (name : String)
  | noLibrary (name : String)
  | unknownFunction (id : Nat)
  | redeclared (name : String)
  | ambiguous (name : String) (candidates : List String)
  | manyCandidates (name : String)
  | noMatch (name : String) (args : List Ty)
  | noBody (name : String)
  | tooFewArguments (name : String)
  | methodOn (type : Ty)
  | noStorage (name : String)
  | structNoStorage (name : String)
  | noReturn (name : String)
  | memberOf (member : String) (type : Ty)
  | noMember (struct member : String)

namespace NameFault

/-- The lines of a numbered list. -/
def numbered (items : List String) : List String :=
  items.zipIdx.map fun (text, i) => toString (i + 1) ++ ") " ++ text

def message : NameFault → String
  | undefined name => "undefined identifier " ++ name
  | alreadyDefined name scope => name ++ " is already defined in scope " ++ scope
  | noNamespace name => "namespace " ++ name ++ " is not defined"
  | noLibrary name => "cannot find library " ++ name
  | unknownFunction id => "unknown function #" ++ toString id
  | redeclared name => "Redeclaration of a function '" ++ name ++ "'"
  | ambiguous name candidates =>
    "Call of overloaded function '" ++ name ++ "' matches more than one candidate:\n"
      ++ "\n".intercalate (numbered candidates)
  | manyCandidates name => "Overloaded function " ++ name ++ " has multiple candidates"
  | noMatch name args =>
    "no matching function for call to '" ++ name ++ "("
      ++ ", ".intercalate (args.map Ty.text) ++ ")'"
  | noBody name => "function " ++ name ++ " does not seem to be implemented"
  | tooFewArguments name => "too few arguments to function " ++ name
  | methodOn type => "cannot call a method on " ++ type.text
  | noStorage name => name ++ " has no storage"
  | structNoStorage name => "struct " ++ name ++ " has no storage"
  | noReturn name => "non-void function " ++ name ++ " should return a value"
  | memberOf member type => "request for member " ++ member ++ " in a value of type " ++ type.text
  | noMember struct member => "struct " ++ struct ++ " has no member " ++ member

end NameFault

/-- Faults of declarations and initializers. -/
inductive DeclarationFault
  | unknownSpecifier (word : String)
  | unknownType (words : List String)
  | negativeSize (size : Int)
  | tooLarge
  | openInnerBound
  | defaultsNotLast
  | notConstant
  | literalTooLarge (value : Option Nat)
  /-- A declarator without the name of what it declares. -/
  | missingName (what : String)
  | unnamedArgument
  | autoFromList
  | autoUninitialized
  | referenceUninitialized (name : String)
  | cannotBind (name value : String)
  | sizeMissing (name : String)
  | noElement
  | notFunction (name : String)
  | incompleteMember (name : String)
  | duplicateMember (name struct : String)
  /-- The struct would hold an object of its own type. -/
  | containsItself (name : String)
  | noObjects (type : Ty)
  | arrayFrom (value : String)
  | sizes (size count : Nat)
  | nestedTooFew
  | nestedFrom (value : String)
  | tooManyInitializers (target : String)
  | untypedList
  | notArray (type : Ty)
  | characterRange (character : Char) (kind : ArithKind)

def DeclarationFault.message : DeclarationFault → String
  | unknownSpecifier word => "unknown specifier " ++ word
  | unknownType words => "unknown type " ++ " ".intercalate words
  | negativeSize size => "size of array is negative (" ++ toString size ++ ")"
  | tooLarge => "array size is too large"
  | openInnerBound => "multidimensional array must have bounds for all dimensions except the first"
  | defaultsNotLast => "all default arguments must be at the end of arguments list"
  | notConstant => "array size must be a constant expression"
  | literalTooLarge none => "integer literal is too large"
  | literalTooLarge (some value) => "integer literal " ++ toString value ++ " is too large"
  | missingName what => "missing " ++ what ++ " name"
  | unnamedArgument => "missing declarator for argument"
  | autoFromList => "cannot deduce auto from an initializer list"
  | autoUninitialized => "declaration of auto variable requires an initializer"
  | referenceUninitialized name => "reference " ++ name ++ " must be initialized"
  | cannotBind name value => "cannot bind reference " ++ name ++ " to " ++ value
  | noElement => "array has no element type"
  | sizeMissing name => "array size missing in " ++ name
  | notFunction name => name ++ " is not a function declarator"
  | incompleteMember name => "member " ++ name ++ " has an incomplete array type"
  | duplicateMember name struct => name ++ " is already defined in struct " ++ struct
  | containsItself name => "struct " ++ name ++ " contains itself"
  | noObjects type => "cannot create a variable of type " ++ type.text
  | arrayFrom value => "cannot initialize an array to " ++ value
  | sizes size count => "dimensions do not agree, " ++ toString size ++ " != " ++ toString count
  | nestedTooFew => "dimensions do not agree, too few initializers"
  | nestedFrom value => "dimensions do not agree, cannot initialize an array to " ++ value
  | tooManyInitializers target => "too many initializers for " ++ target
  | untypedList => "cannot deduce the type of an initializer list"
  | notArray type => type.text ++ " is not an array"
  | characterRange character kind =>
    "character '" ++ String.singleton character ++ "' in string literal is out of range of "
      ++ kind.name

/-- Faults of statements. -/
inductive StatementFault
  | notImplemented (what : String)
  | misplacedLabel (label : String) (inSwitch : Bool)
  | notIterable (value : String)
  | notIterableVariable (name : String)

def StatementFault.message : StatementFault → String
  | notImplemented what => "not implemented: " ++ what
  | misplacedLabel label true => "you can only use " ++ label ++ " directly in a switch block"
  | misplacedLabel label false => "you cannot use " ++ label ++ " outside switch block"
  | notIterable value => value ++ " is not an iterator type."
  | notIterableVariable name => "Variable '" ++ name ++ "' is not an iterator type."

/-- Faults of library functions. -/
inductive LibraryFault
  | incompleteFormat
  | missingArgument (conversion : Char)
  | unknownConversion (conversion : Char)
  | noFormat
  | notNumber (value : String)
  | notString (value : String)
  | nullString
  | missingInteger
  | invalidFile
  | unknownMode (mode : String)
  | noFileType

def LibraryFault.message : LibraryFault → String
  | incompleteFormat => "incomplete format specifier"
  | missingArgument c => "missing argument for %" ++ String.singleton c
  | unknownConversion c => "unknown format specifier %" ++ String.singleton c
  | noFormat => "printf needs a format"
  | notNumber value => value ++ " is not a number"
  | notString value => value ++ " is not a string"
  | nullString => "null pointer passed as a string"
  | missingInteger => "missing integer argument"
  | invalidFile => "invalid FILE pointer"
  | unknownMode mode => "unknown file mode " ++ mode
  | noFileType => "FILE is not defined"

end Stepwise
