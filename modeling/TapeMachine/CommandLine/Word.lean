import TapeMachine.CommandLine.Usage
import TapeMachine.Text.Digit

/-!
# Words of the command line

Every word is a value, a flag or the terminator `--`, after which all words are values. A flag may
have its value attached: with an equals sign to either spelling, or directly to the short one. A
long flag may be cut short as long as no other starts the same way. A word that starts with a dash
and is no flag is still a value if it is the dash alone, a negative number, or has a space in it.
-/

namespace TapeMachine.CommandLine

/-- What a word of the command line is. -/
inductive Word where
  | value (text : String)
  | terminator
  | flag (f : Flag) (long : Bool) (attached : Option (List Char))
  | unknown (text : String)
deriving DecidableEq, Repr

namespace Word

/-- The part before the first equals sign, and the part behind it if there is one. -/
def splitEquals : List Char → List Char × Option (List Char)
  | [] => ([], none)
  | c :: cs =>
    if c = '=' then ([], some cs)
    else let (name, rest) := splitEquals cs; (c :: name, rest)

/-- Whether a text has one or more digits and nothing else. -/
def isDigits (cs : List Char) : Bool := !cs.isEmpty && cs.all fun c => (Text.digit? c).isSome

/-- Whether the text behind a dash makes a negative number: digits, or a point with digits after
it and possibly before it. A line feed at the end does not count. -/
def isNumber (cs : List Char) : Bool :=
  let cs := if cs.getLast? = some '\n' then cs.dropLast else cs
  let whole := cs.takeWhile (· ≠ '.')
  match cs.dropWhile (· ≠ '.') with
  | [] => isDigits whole
  | _ :: fraction => (whole.isEmpty || isDigits whole) && isDigits fraction

/-- What a word is if no flag is spelled like it. -/
def other (cs : List Char) : Word :=
  let text := String.ofList cs
  if isNumber (cs.drop 1) || cs.contains ' ' then .value text else .unknown text

/-- What a word is that starts with two dashes and is no flag in full. -/
def abbreviated (cs : List Char) : Except Flaw Word :=
  let (name, rest) := splitEquals cs
  match Flag.table.filter fun entry => name.isPrefixOf entry.1 with
  | [] => .ok (other cs)
  | [(_, f)] => .ok (.flag f true rest)
  | entries =>
    .error (.ambiguous (String.ofList cs) (entries.map fun entry => String.ofList entry.1))

/-- What a word is that starts with a dash and has more characters. -/
def dashed (second : Char) (tail : List Char) : Except Flaw Word :=
  let cs := '-' :: second :: tail
  match Flag.ofSpelling? cs with
  | some f => .ok (.flag f (second == '-') none)
  | none =>
    match splitEquals cs with
    | (name, some text) =>
      match Flag.ofSpelling? name with
      | some f => .ok (.flag f (second == '-') (some text))
      | none => undecided second tail cs
    | (_, none) => undecided second tail cs
where
  /-- What such a word is if no flag is spelled like it or like its part before an equals sign. -/
  undecided (second : Char) (tail cs : List Char) : Except Flaw Word :=
    if second = '-' then abbreviated cs
    else match Flag.ofLetter? second with
      | some f => .ok (.flag f false (some tail))
      | none => .ok (other cs)

/-- What a word is. -/
def classify (text : String) : Except Flaw Word :=
  match text.toList with
  | '-' :: second :: tail => dashed second tail
  | _ => .ok (.value text)

/-- What the words of a command line are. -/
def classifyAll : List String → Except Flaw (List Word)
  | [] => .ok []
  | "--" :: texts => .ok (.terminator :: texts.map .value)
  | text :: texts => do return (← classify text) :: (← classifyAll texts)

end Word

end TapeMachine.CommandLine
