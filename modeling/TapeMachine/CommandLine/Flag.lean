/-!
# Flags of the command line

Each flag has a long spelling and possibly a short one. `Flag.table` lists the spellings in the
order in which the help text introduces them.
-/

namespace TapeMachine.CommandLine

/-- A flag. -/
inductive Flag where
  | help
  | output
  | noComments
  | commentMark
  | numbers
  | memorySize
  | verbose
deriving DecidableEq, Repr

namespace Flag

/-- All flags, in the order of the help text. -/
def all : List Flag := [help, output, noComments, commentMark, numbers, memorySize, verbose]

/-- The spellings of a flag, a short one first. -/
def spellings : Flag → List String
  | help => ["-h", "--help"]
  | output => ["-o", "--output"]
  | noComments => ["--no-comments"]
  | commentMark => ["--comment-prefix"]
  | numbers => ["--numbers"]
  | memorySize => ["--memory-size"]
  | verbose => ["-v", "--verbose"]

/-- Whether a value goes with the flag. -/
def takesValue : Flag → Bool
  | output | commentMark | memorySize => true
  | help | noComments | numbers | verbose => false

/-- The flag as a message names it. -/
def title (f : Flag) : String := "/".intercalate f.spellings

/-- Every spelling with its flag. -/
def table : List (List Char × Flag) :=
  all.flatMap fun f => f.spellings.map fun s => (s.toList, f)

/-- The flag with exactly this spelling. -/
def ofSpelling? (cs : List Char) : Option Flag := table.lookup cs

/-- The flag whose short spelling has this letter. -/
def ofLetter? (c : Char) : Option Flag := ofSpelling? ['-', c]

end Flag

end TapeMachine.CommandLine
