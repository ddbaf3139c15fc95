import TapeMachine.Text.Blank

/-!
# Paths

A path is shown in its simplest spelling: empty parts and `.` parts say nothing and are dropped,
`..` parts stay.
-/

namespace TapeMachine.CommandLine

/-- A path: what it starts from, and its parts. -/
structure Path where
  /-- Empty for a relative path, otherwise one slash or exactly two. -/
  root : String := ""
  parts : List String := []
deriving DecidableEq, Repr

namespace Path

/-- The pieces of a text between slashes. -/
def pieces : List Char → List (List Char)
  | [] => [[]]
  | c :: cs => if c = '/' then [] :: pieces cs else Text.consHead c (pieces cs)

/-- What a path starts from: two slashes count as two, more of them as one. -/
def rootOf : List Char → String
  | '/' :: '/' :: '/' :: _ => "/"
  | '/' :: '/' :: _ => "//"
  | '/' :: _ => "/"
  | _ => ""

/-- Reads a path. -/
def ofString (s : String) : Path where
  root := rootOf s.toList
  parts := ((pieces s.toList).map String.ofList).filter fun p => p ≠ "" ∧ p ≠ "."

/-- The simplest spelling of a path. -/
def toString (p : Path) : String :=
  if p.root = "" ∧ p.parts = [] then "." else p.root ++ "/".intercalate p.parts

end Path

end TapeMachine.CommandLine
