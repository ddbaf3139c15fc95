import TapeMachine.CommandLine.Path
import TapeMachine.CommandLine.Word
import TapeMachine.Session

/-!
# Reading the command line

The words are gone through from left to right. A value is the source if there is none yet; the
last use of a flag counts. Short flags without values can share a dash. Asking for help stops the
reading at once. Words that have no place are collected and refused at the end.

A flag with `--` attached has no value at all: there is then no output file, the mark before
comments shows as an empty list, and there is no memory size to work with.
-/

namespace TapeMachine.CommandLine

/-- What a command line asks for. -/
structure Invocation where
  source : Path
  output : Option Path := none
  style : Style := {}
  /-- The number of RAM cells, unless the flag for it was given without a value. -/
  memorySize : Option Int := some CellPool.defaultSize
  verbose : Bool := false
deriving DecidableEq, Repr

/-- Why a command line is not carried out. -/
inductive Stop where
  | help
  | flaw (f : Flaw)
deriving DecidableEq, Repr

/-- What the words read so far ask for. -/
structure Request where
  source : Option String := none
  output : Option String := none
  style : Style := {}
  memorySize : Option Int := some CellPool.defaultSize
  verbose : Bool := false
  /-- Words that have no place. -/
  extras : List String := []
deriving DecidableEq, Repr

/-- The flags that one word holds. -/
structure Cluster where
  /-- The flags that are complete, with their values. -/
  uses : List (Flag × Option String) := []
  /-- A flag whose value is the next word. -/
  waiting : Option Flag := none
deriving DecidableEq, Repr

namespace Cluster

/-- A flag with nothing attached. -/
def alone (flag : Flag) : Cluster :=
  if flag.takesValue then { waiting := some flag } else { uses := [(flag, none)] }

/-- Puts a flag without a value in front. -/
def cons (flag : Flag) (c : Cluster) : Cluster := { c with uses := (flag, none) :: c.uses }

/-- A flag with its value attached. -/
def valued (flag : Flag) (text : List Char) : Cluster :=
  { uses := [(flag, if text = ['-', '-'] then none else some (String.ofList text))] }

/-- A flag with text attached: its value or, behind a short flag without one, further short
flags. -/
def joined (flag : Flag) : List Char → Except Flaw Cluster
  | [] => if flag.takesValue then .ok (valued flag []) else .error (.valueIgnored flag "")
  | c :: cs =>
    if flag.takesValue then .ok (valued flag (c :: cs))
    else match Flag.ofLetter? c, cs with
      | none, _ => .error (.valueIgnored flag (String.ofList (c :: cs)))
      | some next, [] => .ok ((alone next).cons flag)
      | some next, d :: ds => (joined next (d :: ds)).map (cons flag)

/-- The flags that a word holds. -/
def ofFlag (flag : Flag) (long : Bool) : Option (List Char) → Except Flaw Cluster
  | none => .ok (alone flag)
  | some text =>
    if long && !flag.takesValue then .error (.valueIgnored flag (String.ofList text))
    else joined flag text

end Cluster

namespace Request

/-- Adds words that have no place. -/
def leftOver (r : Request) (texts : List String) : Request := { r with extras := r.extras ++ texts }

/-- The mark before comments if the flag for it was given without a value. -/
def emptyMark : String := "[]"

/-- Takes a flag into account. -/
def use (r : Request) (flag : Flag) (value : Option String) : Except Stop Request :=
  match flag with
  | .help => .error .help
  | .output => .ok { r with output := value }
  | .noComments => .ok { r with style := { r.style with comments := false } }
  | .commentMark => .ok { r with style := { r.style with mark := value.getD emptyMark } }
  | .numbers => .ok { r with style := { r.style with numbered := true } }
  | .memorySize =>
    match value with
    | none => .ok { r with memorySize := none }
    | some text =>
      match Numeral.readDecimal? text.toList with
      | some size => .ok { r with memorySize := some size }
      | none => .error (.flaw (.notANumber .memorySize text))
  | .verbose => .ok { r with verbose := true }

/-- Takes flags into account in order. -/
def useAll (r : Request) : List (Flag × Option String) → Except Stop Request
  | [] => .ok r
  | (flag, value) :: uses => do (← r.use flag value).useAll uses

/-- Goes through words. The terminator is dropped where it stands next to the source. -/
def read (r : Request) : List Word → Except Stop Request
  | [] => .ok r
  | .value text :: .terminator :: words =>
    if r.source.isNone then { r with source := some text }.read words
    else (r.leftOver [text, "--"]).read words
  | .value text :: words =>
    if r.source.isNone then { r with source := some text }.read words
    else (r.leftOver [text]).read words
  | .terminator :: .value text :: words =>
    if r.source.isNone then { r with source := some text }.read words
    else (r.leftOver ["--", text]).read words
  | .terminator :: words => (r.leftOver ["--"]).read words
  | .unknown text :: words => (r.leftOver [text]).read words
  | .flag flag long attached :: words =>
    match Cluster.ofFlag flag long attached with
    | .error f => .error (.flaw f)
    | .ok cluster =>
      match cluster.waiting, words with
      | none, words => do
        (← r.useAll cluster.uses).read words
      | some last, .value text :: words => do
        (← r.useAll (cluster.uses ++ [(last, some text)])).read words
      | some last, _ => .error (.flaw (.valueMissing last))

/-- What is asked for once all words are read. -/
def finish (r : Request) : Except Stop Invocation :=
  match r.source with
  | none => .error (.flaw .sourceMissing)
  | some source =>
    if r.extras.isEmpty then
      .ok
        { source := .ofString source
          output := r.output.map .ofString
          style := r.style
          memorySize := r.memorySize
          verbose := r.verbose }
    else .error (.flaw (.unrecognized r.extras))

end Request

/-- Reads a command line. -/
def parse (args : List String) : Except Stop Invocation := do
  match Word.classifyAll args with
  | .error f => throw (.flaw f)
  | .ok words => (← ({} : Request).read words).finish

end TapeMachine.CommandLine
