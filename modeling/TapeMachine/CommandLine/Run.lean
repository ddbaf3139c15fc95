import TapeMachine.CommandLine.Disk
import TapeMachine.CommandLine.Invocation
import TapeMachine.Text.Utf8

/-!
# Carrying out a command line

The source file is read as UTF-8 text with its line ends unified and assembled. The listing goes to
the output file or to standard output, with a line feed behind it; if anything fails, nothing is
written.
-/

namespace TapeMachine.CommandLine

/-- How a run ends. -/
inductive Outcome where
  | finished
  /-- The command line was refused, or help was asked for. -/
  | exit (code : Nat)
  /-- The program is at fault. -/
  | refused (d : Diagnostic)
  | misuse (m : Misuse)
  /-- The source is no text. -/
  | encoding (f : Text.Utf8.Flaw)
  /-- The file at the path cannot be read or written. -/
  | disk (path : Path) (e : DiskError)
deriving DecidableEq, Repr

/-- What a run shows and leaves behind. -/
structure Report where
  outcome : Outcome
  stdout : String := ""
  stderr : String := ""
  disk : Disk

namespace Invocation

/-- The log as it is shown if it is asked for. -/
def shownLog (inv : Invocation) (log : Array Event) : String :=
  if inv.verbose then block (log.toList.map Event.line) else ""

/-- Assembles the bytes of a source file: the text to be written, or how the run ends; and what is
shown of the log. -/
def assemble (inv : Invocation) (bytes : List UInt8) : Except Outcome String × String :=
  match Text.Utf8.decode bytes with
  | .error f => (.error (.encoding f), "")
  | .ok cs =>
    match inv.memorySize with
    | none => (.error (.misuse .poolSizeMissing), "")
    | some memorySize =>
      let (result, log) := compile (String.ofList (Text.unifyBreaks cs))
        { inv.style with memorySize } inv.source.toString
      let text := match result with
        | .error (.diagnostic d) => .error (.refused d)
        | .error (.misuse m) => .error (.misuse m)
        | .ok lines => .ok (joinLines lines ++ "\n")
      (text, inv.shownLog log)

/-- Carries out what is asked for. -/
def run (inv : Invocation) (disk : Disk) : Report :=
  match disk.read inv.source with
  | .error e => { outcome := .disk inv.source e, disk }
  | .ok bytes =>
    match inv.assemble bytes with
    | (.error outcome, stderr) => { outcome, stderr, disk }
    | (.ok text, stderr) =>
      match inv.output with
      | none => { outcome := .finished, stdout := text, stderr, disk }
      | some path =>
        match disk.write path text.toUTF8.toList with
        | .ok disk => { outcome := .finished, stderr, disk }
        | .error e => { outcome := .disk path e, stderr, disk }

end Invocation

/-- What a diagnostic is shown as when it ends a run. -/
def refusal (d : Diagnostic) : String := "error: " ++ d.message

/-- Carries out a command line. -/
def run (args : List String) (disk : Disk) : Report :=
  match parse args with
  | .error .help => { outcome := .exit 0, stdout := help, disk }
  | .error (.flaw f) => { outcome := .exit 2, stderr := f.report, disk }
  | .ok inv => inv.run disk

end TapeMachine.CommandLine
