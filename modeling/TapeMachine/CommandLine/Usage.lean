import TapeMachine.CommandLine.Flag
import TapeMachine.Text.Quoted

/-!
# Usage and help

The texts that explain the command line, and what can be wrong with one.
-/

namespace TapeMachine.CommandLine

/-- The name of the program. -/
def programName : String := "tape-compiler"

/-- Lines, each with a line feed behind it. -/
def block (lines : List String) : String := String.join (lines.map (· ++ "\n"))

/-- The short explanation of the command line. -/
def usage : String := block
  ["usage: tape-compiler [-h] [-o OUTPUT] [--no-comments]",
   "                     [--comment-prefix COMMENT_PREFIX] [--numbers]",
   "                     [--memory-size MEMORY_SIZE] [-v]",
   "                     source"]

/-- The full explanation of the command line. -/
def help : String := usage ++ block
  ["",
   "Compile tape assembly into numeric instructions",
   "",
   "positional arguments:",
   "  source                Path to the source file",
   "",
   "options:",
   "  -h, --help            show this help message and exit",
   "  -o OUTPUT, --output OUTPUT",
   "                        Destination file (defaults to stdout)",
   "  --no-comments         Do not append comments to instructions",
   "  --comment-prefix COMMENT_PREFIX",
   "                        Text placed before each comment",
   "  --numbers             Annotate comments with the addresses each instruction",
   "                        occupies",
   "  --memory-size MEMORY_SIZE",
   "                        Number of RAM cells available for variables",
   "  -v, --verbose         Log compilation steps to stderr"]

/-- What is wrong with a command line. -/
inductive Flaw where
  | sourceMissing
  | unrecognized (words : List String)
  | valueMissing (flag : Flag)
  | valueIgnored (flag : Flag) (value : String)
  | notANumber (flag : Flag) (value : String)
  | ambiguous (word : String) (candidates : List String)
deriving DecidableEq, Repr

namespace Flaw

/-- The wording of a flaw. -/
def message : Flaw → String
  | sourceMissing => "the following arguments are required: source"
  | unrecognized words => "unrecognized arguments: " ++ " ".intercalate words
  | valueMissing flag => s!"argument {flag.title}: expected one argument"
  | valueIgnored flag value =>
    s!"argument {flag.title}: ignored explicit argument {Text.quoted value}"
  | notANumber flag value => s!"argument {flag.title}: invalid int value: {Text.quoted value}"
  | ambiguous word candidates =>
    s!"ambiguous option: {word} could match " ++ ", ".intercalate candidates

/-- What is printed about a flaw: the usage, and then its wording. -/
def report (f : Flaw) : String := usage ++ s!"{programName}: error: {f.message}\n"

end Flaw

end TapeMachine.CommandLine
