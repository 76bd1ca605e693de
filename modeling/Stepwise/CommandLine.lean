import Stepwise.Session.Run
import Stepwise.Syntax.Parse.Statement
import Stepwise.Text.Bytes

/-! # The command line

Commands run a program from a file. The status of a program that ends is the status of
the command, up to the lowest eight bits; a file that cannot be run gives 2, and a run
that stops 1.
-/

namespace Stepwise

inductive Command
  | run
  | debug
  deriving DecidableEq, Repr

structure Invocation where
  command : Command
  file : String
  overflow : OverflowPolicy := .fault
  /-- The time that the run may take, in milliseconds. -/
  timeout : Option Nat := none
  quantum : Nat := 1000

/-- How a command ends: its status and the last line that it writes to the error stream. -/
structure Exit where
  status : Nat
  message : String

namespace Invocation

/-- The options by their names, and what a value of each does. -/
def setOption? (i : Invocation) (name value : String) : Option Invocation :=
  match name with
  | "--overflow" =>
    match value with
    | "error" => some { i with overflow := .fault }
    | "wrap" => some { i with overflow := .wrap }
    | _ => none
  | "--timeout-ms" => (Text.readBits? 64 10 value.toList).map fun n => { i with timeout := some n }
  | "--quantum" => (Text.readBits? 64 10 value.toList).map fun n => { i with quantum := n }
  | _ => none

/-- The name and the value of an option that is written as one word. -/
def splitOption (word : String) : String × Option String :=
  let cs := word.toList
  match cs.dropWhile (· != '=') with
  | [] => (word, none)
  | _ :: value => (String.ofList (cs.takeWhile (· != '=')), some (String.ofList value))

/-- Reads options and the file name; `named` says that the file was given. -/
def readWords (i : Invocation) (named : Bool) : List String → Option Invocation
  | [] => if named then some i else none
  | word :: rest =>
    if word.startsWith "--" then
      match splitOption word, rest with
      | (name, some value), rest => (i.setOption? name value).bind fun i => readWords i named rest
      | (name, none), value :: rest =>
        (i.setOption? name value).bind fun i => readWords i named rest
      | (_, none), [] => none
    else if named then none
    else readWords { i with file := word } true rest

/-- The invocation that the words of a command line make. -/
def ofWords? : List String → Option Invocation
  | "run" :: rest => readWords ⟨.run, "", .fault, none, 1000⟩ false rest
  | "debug" :: rest => readWords ⟨.debug, "", .fault, none, 1000⟩ false rest
  | _ => none

def usage : String :=
  "usage: (run | debug) FILE [--overflow error|wrap] [--timeout-ms N] [--quantum N]"

def config (i : Invocation) : Config :=
  ({ numerics := { overflow := i.overflow } } : Config).withQuantaPerTick i.quantum

/-- The run that an invocation begins; the source is that of its file, or says why there is none.
The debugger has no terminal to run on. -/
def begin (i : Invocation) (source : Except String String) : Except Exit Run :=
  match source with
  | .error reason => .error ⟨2, "Error: cannot read '" ++ i.file ++ "': " ++ reason⟩
  | .ok source =>
    match Program.parse source, i.command with
    | .error e, _ => .error ⟨2, e.display⟩
    | .ok p, .run => .ok (.ofProgram i.config p {} {})
    | .ok _, .debug => .error ⟨1, "Error: No such device or address (os error 6)"⟩

end Invocation

namespace Exit

def timedOut : Exit := ⟨1, "Error: execution timed out"⟩

/-- How a command ends after a run. -/
def ofOutcome : Except Fault Outcome → Exit
  | .ok (.finished status) => ⟨(status % 256).toNat, ""⟩
  | .ok .cancelled => timedOut
  | .ok .awaitingInput => ⟨1, "Error: execution stopped (AwaitingInput)"⟩
  | .ok .paused => ⟨1, "Error: execution stopped (Paused)"⟩
  | .error fault => ⟨1, "Runtime error: " ++ fault.display⟩

/-- What the command writes to the error stream. -/
def errors (e : Exit) : String := if e.message.isEmpty then "" else e.message ++ "\n"

end Exit

namespace Run

/-- The number of bytes that are read from the input at once. -/
def blockSize : Nat := 1024

/-- Feeds a block of bytes. -/
def feedBytes (r : Run) (bytes : List UInt8) : Run := r.feed (String.ofList (Text.decode bytes))

/-- Feeds all the input there is, block by block. -/
def feedAll (r : Run) (bytes : List UInt8) : Run :=
  ((Text.blocks blockSize bytes).foldl feedBytes r).close

/-- The output since it was taken last, and the run without it. -/
def takeOutput (r : Run) : String × Run :=
  (r.state.console.output, r.onConsole fun c => { c with output := "" })

end Run

end Stepwise
