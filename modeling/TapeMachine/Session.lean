import TapeMachine.Assembler.Exec

/-!
# Sessions

A session assembles a text into a listing. Once it has succeeded it keeps the listing. If it fails,
everything the assembler knows stays, and another attempt goes through the current text from its
first line on top of that.
-/

namespace TapeMachine

/-- The settings of a session. -/
structure Options extends Style where
  /-- The number of RAM cells for variables. -/
  memorySize : Int := CellPool.defaultSize
deriving DecidableEq, Repr

/-- An assembler with the text it works on. -/
structure Session where
  text : String
  options : Options
  source : String
  assembler : Assembler
  /-- The finished instructions. -/
  instructions : List (Instruction Target) := []
  /-- The finished listing. -/
  result : Option (List String) := none

namespace Session

/-- The name of a source for which no other is given. -/
def defaultSource : String := "<string>"

/-- A session that has not assembled anything yet. -/
def create (text : String) (options : Options) (source : String) : Except Misuse Session := do
  return { text, options, source, assembler := { storage := ← Storage.ofSize options.memorySize } }

/-- The failure of a text that ends inside a block. -/
def unclosed (block : OpenBlock) (source : String) : Failure :=
  .diagnostic ⟨.neverClosed block.construct.opener, some block.line, some source⟩

/-- Writes the addresses of labels into the instructions. -/
def resolve : Step (List (Instruction Target)) := fun s =>
  let log := (Tape.patches s.label s.tape.fixups).foldl
    (fun log (f, address) => log.push (.patched f.index f.field.name address)) s.log
  match Tape.resolve s.label s.tape with
  | .ok instructions tape => .ok instructions { s with tape, log }
  | .error f tape => .error (.ofFault f) { s with tape, log }

/-- What is reported at the end. -/
def summary (source : String) (s : Assembler) (instructions : List (Instruction Target)) : Event :=
  .compiled source instructions.length s.storage.pool.used s.definitions.all.length

/-- Finishes a text all of whose statements are carried out. -/
def finish (s : Session) : EStateM.Result Failure Session (List String) :=
  match resolve s.assembler with
  | .error failure assembler => .error failure { s with assembler }
  | .ok instructions assembler =>
    match listing assembler.label s.options.toStyle 0 instructions with
    | .error m => .error (.misuse m) { s with assembler, instructions }
    | .ok lines =>
      .ok lines
        { s with
          assembler := assembler.report (summary s.source assembler instructions)
          instructions
          result := some lines }

/-- The listing of the text. -/
def compile : EStateM Failure Session (List String) := fun s =>
  match s.result with
  | some lines => .ok lines s
  | none =>
    match Assembler.run s.source (Source.statements s.text) s.assembler with
    | .error failure assembler => .error failure { s with assembler }
    | .ok _ assembler =>
      let s := { s with assembler }
      match assembler.blocks with
      | block :: _ => .error (unclosed block s.source) s
      | [] => s.finish

end Session

/-- The listing of a text, and the log. -/
def compile (text : String) (options : Options := {})
    (source : String := Session.defaultSource) : Except Failure (List String) × Array Event :=
  match Session.create text options source with
  | .error m => (.error (.misuse m), #[])
  | .ok session =>
    match session.compile with
    | .ok lines session => (.ok lines, session.assembler.log)
    | .error failure session => (.error failure, session.assembler.log)

/-- The lines of a listing as one text. -/
def joinLines (lines : List String) : String := "\n".intercalate lines

end TapeMachine
