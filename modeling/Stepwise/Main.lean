import Stepwise.CommandLine

/-! # The program

Reads the file, and between two ticks writes the output, reads input that is waited
for and looks at the clock.
-/

namespace Stepwise

/-- Why a file cannot be read. -/
def readFailure : IO.Error → String
  | .noFileOrDirectory _ code details | .permissionDenied (some _) code details
  | .inappropriateType (some _) code details =>
    details ++ " (os error " ++ toString code ++ ")"
  | e => toString e

def readSource (file : String) : IO (Except String String) := do
  try return .ok (← IO.FS.readFile file)
  catch e => return .error (readFailure e)

/-- Drives a run to its end; `idle` milliseconds were spent on waiting for input. -/
partial def driveToEnd (timeout : Option Nat) (start idle : Nat) (r : Run) : IO Exit := do
  let (report, r) := r.tick r.config.quantaPerTick
  let (output, r) := r.takeOutput
  let stdout ← IO.getStdout
  stdout.putStr output
  stdout.flush
  match report.outcome with
  | .ok .paused =>
    let elapsed := (← IO.monoMsNow) - start - idle
    if timeout.any fun limit => elapsed > limit then return .timedOut
    driveToEnd timeout start idle r
  | .ok .awaitingInput =>
    let before ← IO.monoMsNow
    let bytes ← (← IO.getStdin).read (USize.ofNat Run.blockSize)
    let idle := idle + ((← IO.monoMsNow) - before)
    driveToEnd timeout start idle (if bytes.isEmpty then r.close else r.feedBytes bytes.toList)
  | outcome => return .ofOutcome outcome

def execute (words : List String) : IO Exit := do
  match Invocation.ofWords? words with
  | none => return ⟨2, Invocation.usage⟩
  | some i =>
    match i.begin (← readSource i.file) with
    | .error exit => return exit
    | .ok r => driveToEnd i.timeout (← IO.monoMsNow) 0 r

end Stepwise

def main (args : List String) : IO UInt32 := do
  let exit ← Stepwise.execute args
  (← IO.getStderr).putStr exit.errors
  return UInt32.ofNat exit.status
