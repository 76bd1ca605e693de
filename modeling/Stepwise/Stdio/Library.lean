import Stepwise.Machine.Frame
import Stepwise.Machine.Functions
import Stepwise.Stdio.Format

/-! # The standard input and output library

What its functions do. Output goes to the console and to files; reading a character
from the console waits while no input is buffered. A file pointer points to a struct
whose first member is the handle of the open file.
-/

namespace Stepwise

namespace RunM

def ofLibrary {α : Type} : Except LibraryFault α → RunM α
  | .ok a => return a
  | .error cause => fail (.library cause)

/-- The text that a string argument points to. -/
def stringArgument (v : Value) : RunM String := do
  ofLibrary (← inspect fun s => s.heap.stringAt v)

def writeConsole (text : String) : RunM Unit :=
  modify fun s => { s with console := s.console.write text }

/-- What reading past the end of the input or of a file gives. -/
def endOfFile : Int := -1

def intResult (v : Int) : RunM (Progress .value) := return .done (.int .int v)

/-- The handle of the file that a file pointer points to. -/
def fileHandle (v : Value) : RunM Int := do
  let heap := (← get).heap
  let handle : Option Int := do
    let p ← match v.data with
      | .pointer target => target
      | _ => none
    let store ← (← heap.load? p).structStore?
    (← (heap.cells store)[0]?).int?
  match handle with
  | some handle => return handle
  | none => fail (.library .invalidFile)

/-- Reads a character from the console, or waits for one. -/
def readCharacter : RunM (Progress .value) := do
  let (read, console) := (← get).console.read
  modify fun s => { s with console }
  match read with
  | .ready c => intResult c.toNat
  | .endOfInput => intResult endOfFile
  | .pending => return .paused .input .nil

/-- The mode of a file without the letters that change nothing. -/
def plainMode (mode : String) : String :=
  String.ofList (mode.toList.reverse.dropWhile fun c => c = 'b' || c = '+').reverse

/-- Opens a file in a mode; false if there is none to open. -/
def openFile (name mode : String) : RunM Bool := do
  let openAs (create : Bool) : RunM Bool := modifyGet fun s =>
    let (opened, files) := s.files.openFile name create
    (opened, { s with files })
  match plainMode mode with
  | "r" => openAs false
  | "w" => do
    discard (openAs true)
    modify fun s => { s with files := s.files.clear name }
    return true
  | "a" => openAs true
  | other => fail (.library (.unknownMode other))

/-- A pointer to a new file struct. -/
def filePointer (name mode : String) : RunM Value := do
  let opened ← openFile name mode
  match (← get).struct? "FILE" with
  | none => fail (.library .noFileType)
  | some d =>
    let ty := Ty.pointerTo d.type
    if !opened then return .null ty
    let handle ← modifyGet fun s =>
      let (handle, openFiles) := s.openFiles.add name
      (handle, { s with openFiles })
    let store ← alloc #[.int .int handle]
    let place ← onHeap (HeapM.newSlot (.fresh d.type (.struct store)))
    return .fresh ty (.pointer (some place))

/-- The character at the position of an open file. -/
def characterAt (s : State) (f : OpenFile) : Option Char := do
  (← s.files.read? f.name).toList[f.position]?

/-- Calls a function of the library. -/
def callLibrary : StdioFunction → List Value → RunM (Progress .value)
  | .printf, format :: args => do
    let format ← stringArgument format
    let s ← get
    let out ← ofLibrary (Format.expand s.heap (← read).limits format args)
    writeConsole out
    intResult out.length
  | .printf, [] => fail (.library .noFormat)
  | .puts, v :: _ => do
    writeConsole ((← stringArgument v) ++ "\n")
    intResult 1
  | .putchar, v :: _ => do
    match v.int? with
    | none => fail (.library .missingInteger)
    | some code =>
      match if code < 0 then none else Text.charOfCode? code.toNat with
      | some c => writeConsole (String.singleton c)
      | none => pure ()
      intResult code
  | .getchar, _ => readCharacter
  | .fopen, name :: mode :: _ => do
    let name ← stringArgument name
    let mode ← stringArgument mode
    return .done (← filePointer name mode)
  | .fputs, v :: file :: _ => do
    let out ← stringArgument v
    let handle ← fileHandle file
    match (← get).openFiles.get? handle with
    | none => intResult endOfFile
    | some f =>
      modify fun s => { s with files := s.files.write f.name out }
      intResult 1
  | .fgetc, file :: _ => do
    let handle ← fileHandle file
    let s ← get
    match (s.openFiles.get? handle).bind (characterAt s) with
    | none => intResult endOfFile
    | some c =>
      modify fun s => { s with openFiles := s.openFiles.advance handle }
      intResult c.toNat
  | .fclose, file :: _ => do
    let handle ← fileHandle file
    match (← get).openFiles.get? handle with
    | none => intResult endOfFile
    | some _ =>
      modify fun s => { s with openFiles := s.openFiles.remove handle }
      intResult 0
  | _, _ => fail (.library .missingInteger)

/-- Defines a function of the library, under its own name and in the namespace `std`. -/
def defineLibraryFunction (f : StdioFunction) : RunM Unit := do
  let params := f.type.params.map fun _ => ⟨none, none⟩
  register ⟨f.name, .global, f.type, params, .library f⟩
  defineFunctionName f.name f.type
  match (← get).scopes.global.get? f.name with
  | none => fail (.name (.undefined f.name))
  | some p => modify fun s => { s with namespaces := s.namespaces.bind "std" f.name p }

/-- Defines what a library offers. -/
def define : Library → RunM Unit
  | .stdio => do
    defineStruct StdioFunction.file
    StdioFunction.all.forM defineLibraryFunction
    defineTypedef "size_t" (.arith .unsignedLong)

/-- Loads the library of a name, unless it was loaded before. -/
def loadLibrary (name : String) : RunM Unit := do
  match (← read).library? name with
  | none => fail (.name (.noLibrary name))
  | some library =>
    if (← get).loaded.contains library then return
    modify fun s => { s with loaded := library :: s.loaded }
    define library

end RunM

end Stepwise
