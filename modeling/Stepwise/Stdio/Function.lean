import Stepwise.Ty.Basic

/-! # The functions of the standard input and output library

Their names and types. Files are named by pointers to a struct that holds the
handle of an open file.
-/

namespace Stepwise

inductive StdioFunction
  | printf
  | puts
  | putchar
  | getchar
  | fopen
  | fputs
  | fgetc
  | fclose
  deriving DecidableEq, Repr

namespace StdioFunction

/-- All functions, in the order in which the library defines them. -/
def all : List StdioFunction := [printf, puts, putchar, getchar, fopen, fputs, fgetc, fclose]

theorem mem_all (f : StdioFunction) : f ∈ all := by cases f <;> decide

def name : StdioFunction → String
  | printf => "printf"
  | puts => "puts"
  | putchar => "putchar"
  | getchar => "getchar"
  | fopen => "fopen"
  | fputs => "fputs"
  | fgetc => "fgetc"
  | fclose => "fclose"

/-- The struct behind a file pointer. -/
def file : StructTy := ⟨"FILE", [⟨"fd", .int, false, none⟩]⟩

def filePointer : Ty := .pointerTo file.type

def string : Ty := .constPointerTo .char

def type : StdioFunction → FunctionTy
  | printf => ⟨.int, [.plain string], true⟩
  | puts => ⟨.int, [.plain string], false⟩
  | putchar => ⟨.int, [.plain .int], false⟩
  | getchar => ⟨.int, [], false⟩
  | fopen => ⟨filePointer, [.plain string, .plain string], false⟩
  | fputs => ⟨.int, [.plain string, .plain filePointer], false⟩
  | fgetc => ⟨.int, [.plain filePointer], false⟩
  | fclose => ⟨.int, [.plain filePointer], false⟩

end StdioFunction

end Stepwise
