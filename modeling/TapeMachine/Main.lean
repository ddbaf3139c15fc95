import TapeMachine.CommandLine.Run

/-!
# The program

Carries out a command line on the files at hand. What the run shows and writes is decided by
`CommandLine.parse` and `Invocation.assemble`; here the bytes are read and written.
-/

open TapeMachine

namespace TapeMachine.CommandLine

/-- The wording of an end that is not a success. -/
def Outcome.message : Outcome → String
  | .finished | .exit _ => ""
  | .refused d => refusal d
  | .misuse m => m.message
  | .encoding f => f.message
  | .disk path e => e.message path

/-- The error of the disk that the system reports, if it is one of those. The system may report an
error number with its sign turned round. -/
def DiskError.ofSystem? : IO.Error → Option DiskError
  | .noFileOrDirectory .. => some .notFound
  | .inappropriateType _ number _ =>
    if number = 20 ∨ number = -20 then some .notADirectory
    else if number = 21 ∨ number = -21 then some .isADirectory
    else none
  | .invalidArgument _ number _ =>
    if number = 36 ∨ number = -36 then some .nameTooLong else none
  | _ => none

/-- Reads or writes a file; an error of the disk is a result. -/
def onDisk {α : Type} (path : Path) (action : IO α) : IO (Except Outcome α) := do
  if path.toString.contains '\x00' then return .error (.disk path .nullByte)
  try return .ok (← action)
  catch e =>
    match DiskError.ofSystem? e with
    | some error => return .error (.disk path error)
    | none => throw e

/-- Carries out what is asked for on the files at hand. -/
def Invocation.perform (inv : Invocation) : IO (Except Outcome Unit) := do
  match ← onDisk inv.source (IO.FS.readBinFile inv.source.toString) with
  | .error outcome => return .error outcome
  | .ok bytes =>
    let (result, log) := inv.assemble bytes.toList
    IO.eprint log
    match result, inv.output with
    | .error outcome, _ => return .error outcome
    | .ok text, none => return .ok (← IO.print text)
    | .ok text, some path => onDisk path (IO.FS.writeFile path.toString text)

end TapeMachine.CommandLine

/-- Runs the program. -/
def main (args : List String) : IO UInt32 := do
  match CommandLine.parse args with
  | .error .help =>
    IO.print CommandLine.help
    return 0
  | .error (.flaw f) =>
    IO.eprint f.report
    return 2
  | .ok inv =>
    match ← inv.perform with
    | .ok _ => return 0
    | .error outcome =>
      IO.eprintln outcome.message
      return 1
