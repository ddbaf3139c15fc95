import Mathlib.Logic.Embedding.Basic
import TapeMachine.Proofs.Lockstep
import TapeMachine.Proofs.Readback

/-!
# Renaming a program

The variables of the main program, the variables of each definition's body and the definitions can
be given other names, all independently of each other. A `Renaming` says which, and `Renaming.lines`
applies it to the statements of a program: which variables are meant depends on the body that a line
lies in.

* `parse_line`: a renamed line is the same statement with other names.
* `exists_renames`: the renamed statements are those of a text, each on its old line.
-/

namespace TapeMachine

/-! ## Names -/

/-- The names that variables and definitions can have. -/
def Identifier : Type := { name : String // isIdentifier name.toList = true }

instance : DecidableEq Identifier :=
  inferInstanceAs (DecidableEq { name : String // isIdentifier name.toList = true })

/-- A name under a renaming of the identifiers. What is no identifier stays as it is. -/
def respell (f : Identifier ↪ Identifier) (name : String) : String :=
  if h : isIdentifier name.toList = true then (f ⟨name, h⟩).1 else name

theorem isIdentifier_respell (f : Identifier ↪ Identifier) (name : String) :
    isIdentifier (respell f name).toList = isIdentifier name.toList := by
  unfold respell
  split
  · rename_i h
    rw [h]
    exact (f ⟨name, h⟩).2
  · rfl

theorem respell_of_not_isIdentifier (f : Identifier ↪ Identifier) {name : String}
    (h : ¬ isIdentifier name.toList = true) : respell f name = name := dif_neg h

/-- Different names stay different. -/
theorem respell_injective (f : Identifier ↪ Identifier) : Function.Injective (respell f) := by
  intro a b h
  have hsame : isIdentifier a.toList = isIdentifier b.toList := by
    rw [← isIdentifier_respell f a, h, isIdentifier_respell]
  by_cases ha : isIdentifier a.toList = true
  · have hb : isIdentifier b.toList = true := hsame ▸ ha
    rw [respell, dif_pos ha, respell, dif_pos hb] at h
    exact congrArg Subtype.val (f.injective (Subtype.ext h))
  · have hb : ¬ isIdentifier b.toList = true := hsame ▸ ha
    rwa [respell_of_not_isIdentifier f ha, respell_of_not_isIdentifier f hb] at h

/-- No character of an identifier is blank or starts a comment. -/
theorem plain_of_isIdentifier {cs : List Char} (h : isIdentifier cs = true) {c : Char}
    (hc : c ∈ cs) : Text.isBlank c = false ∧ c ≠ '#' := by
  have hrest : isIdentRest c = true := by
    cases cs with
    | nil => cases hc
    | cons d ds =>
      simp only [isIdentifier, Bool.and_eq_true, List.all_eq_true] at h
      rcases List.mem_cons.mp hc with rfl | hc
      · have hstart := h.1
        simp only [isIdentStart, Bool.or_eq_true, isIdentRest, Char.isAlphanum] at hstart ⊢
        exact hstart.imp_left .inl
      · exact h.2 c hc
  constructor
  · have hcode : ((65 ≤ c.toNat ∧ c.toNat ≤ 90 ∨ 97 ≤ c.toNat ∧ c.toNat ≤ 122) ∨
        48 ≤ c.toNat ∧ c.toNat ≤ 57) ∨ c = '_' := by
      delta isIdentRest Char.isAlphanum Char.isAlpha Char.isUpper Char.isLower Char.isDigit at hrest
      simpa [UInt32.le_iff_toNat_le] using hrest
    rcases hcode with hcode | rfl
    · simp [Text.isBlank, Text.inRanges, Text.blankRanges]
      omega
    · decide
  · rintro rfl
    exact absurd hrest (by decide)

/-! ## Operands -/

/-- A word that is a variable gets the variable's new name. Other words stay. -/
def respellOperand (f : Identifier ↪ Identifier) (word : String) : String :=
  match Operand.parse word with
  | .ok (.var name) => "$" ++ respell f name
  | _ => word

/-- An operand with another name for its variable. -/
def Operand.respell (f : Identifier ↪ Identifier) : Operand → Operand
  | .var name => .var (TapeMachine.respell f name)
  | .immediate n => .immediate n
  | .direct address => .direct address

/-- Only a name behind a dollar sign is a variable. -/
theorem parse_eq_var {token name : String} (h : Operand.parse token = .ok (.var name)) :
    '$' ∈ token.toList ∧ isIdentifier name.toList = true := by
  unfold Operand.parse at h
  generalize htrim : Text.trim token.toList = cs at h
  unfold Operand.parseTrimmed at h
  split at h
  · cases h
  · split at h
    · rename_i hname
      cases h
      refine ⟨Text.mem_of_mem_trim (by simp [htrim]), by simpa using hname⟩
    · cases h
  · dsimp only at h
    split at h
    · obtain ⟨n, -, h⟩ := bind_eq_ok_iff.mp h
      split at h <;> cases h
    · obtain ⟨n, -, h⟩ := bind_eq_ok_iff.mp h
      split at h <;> cases h

theorem parse_dollar {name : String} (h : isIdentifier name.toList = true) :
    Operand.parse ("$" ++ name) = .ok (.var name) := by
  have hchars : ("$" ++ name).toList = '$' :: name.toList := by simp
  have hblank : ∀ c ∈ '$' :: name.toList, Text.isBlank c = false := by
    intro c hc
    rcases List.mem_cons.mp hc with rfl | hc
    · decide
    · exact (plain_of_isIdentifier h hc).1
  rw [Operand.parse, hchars, Text.trim_of_forall hblank, Operand.parseTrimmed, if_pos h,
    String.ofList_toList]

/-- **The renamed word is the operand with the new name.** -/
theorem parse_respellOperand (f : Identifier ↪ Identifier) (word : String) :
    Operand.parse (respellOperand f word) = (Operand.parse word).map (Operand.respell f) := by
  unfold respellOperand
  cases hp : Operand.parse word with
  | error fault => exact hp
  | ok operand =>
    cases operand with
    | var name =>
      have hname := (parse_eq_var hp).2
      exact parse_dollar ((isIdentifier_respell f name).trans hname)
    | immediate n => exact hp
    | direct address => exact hp

/-- No keyword has a dollar sign. -/
theorem ofWord?_of_mem {word : String} (h : '$' ∈ word.toList) : Keyword.ofWord? word = none := by
  have hupper : '$' ∈ Text.upper word.toList :=
    List.mem_flatMap.mpr ⟨'$', h, by decide⟩
  have hspelling : ∀ k ∈ Keyword.all, '$' ∉ k.spelling.toList := by decide
  rw [Keyword.ofWord?, List.find?_eq_none]
  intro k hk heq
  refine hspelling k hk ?_
  rw [of_decide_eq_true heq]
  exact hupper

/-- Variables are no keywords, under either name. -/
theorem ofWord?_respellOperand (f : Identifier ↪ Identifier) (word : String) :
    Keyword.ofWord? (respellOperand f word) = Keyword.ofWord? word := by
  unfold respellOperand
  split
  · rename_i name hp
    rw [ofWord?_of_mem (parse_eq_var hp).1, ofWord?_of_mem (by simp)]
  · rfl

/-! ## Statements -/

/-- A condition with other names for its variables. -/
def Condition.respell (f : Identifier ↪ Identifier) : Condition → Condition
  | .compare c left right => .compare c (respellOperand f left) (respellOperand f right)
  | .constant c => .constant c

/-- Words that are no condition are none with other names for the variables either. -/
theorem agree_parse_condition (f : Identifier ↪ Identifier) (kind : BranchKind)
    (words : List String) :
    Agree .reasons (fun c c' => c' = c.respell f) (Condition.parse kind words)
      (Condition.parse kind (words.map (respellOperand f))) := by
  cases words with
  | nil => exact .fault rfl
  | cons head args =>
    rw [List.map_cons]
    simp only [Condition.parse, ofWord?_respellOperand]
    cases Keyword.ofWord? head with
    | none => exact .fault rfl
    | some keyword =>
      cases keyword with
      | comparison c =>
        rcases args with _ | ⟨_, _ | ⟨_, _ | ⟨_, _⟩⟩⟩
        · exact .fault rfl
        · exact .fault rfl
        · exact .ok rfl
        · exact .fault rfl
      | constant c =>
        cases args with
        | nil => exact .ok rfl
        | cons => exact .fault rfl
      | _ => exact .fault rfl

/-- A statement with other names for its variables and definitions. -/
def Statement.respell (f g : Identifier ↪ Identifier) : Statement → Statement
  | .assign destination source => .assign (respellOperand f destination) (respellOperand f source)
  | .combine op left right destination =>
    .combine op (respellOperand f left) (respellOperand f right) (respellOperand f destination)
  | .compare c left right destination =>
    .compare c (respellOperand f left) (respellOperand f right) (respellOperand f destination)
  | .constant c destination => .constant c (respellOperand f destination)
  | .define name => .define (TapeMachine.respell g name)
  | .endDefine => .endDefine
  | .call name => .call (TapeMachine.respell g name)
  | .branch kind condition => .branch kind (condition.map (respellOperand f))
  | .endBranch kind => .endBranch kind

/-- New names: for the variables of the main program, for those of each body, by the line that the
body starts on, and for the definitions. -/
structure Renaming where
  main : Identifier ↪ Identifier
  body : Nat → Identifier ↪ Identifier
  definition : Identifier ↪ Identifier

/-- The body behind a statement on the given line that lies in a body: bodies go by the line that
they start on. -/
def Statement.bodyBehind (line : Nat) (body : Option Nat) : Statement → Option Nat
  | .define _ => some line
  | .endDefine => none
  | _ => body

/-- The body behind a line. -/
def SourceLine.bodyBehind (line : SourceLine) (body : Option Nat) : Option Nat :=
  match Statement.parse line.head line.args with
  | .ok st => st.bodyBehind line.number body
  | .error _ => body

namespace Renaming

/-- The new names of the variables of a body, or of the main program. -/
def names (r : Renaming) : Option Nat → Identifier ↪ Identifier
  | none => r.main
  | some start => r.body start

/-- A line that lies in the given body, with the new names: definitions are named by lines that
start or call one, variables by all others. -/
def line (r : Renaming) (body : Option Nat) (line : SourceLine) : SourceLine :=
  { line with
    args :=
      match Keyword.ofWord? line.head with
      | some .define | some .call => line.args.map (respell r.definition)
      | _ => line.args.map (respellOperand (r.names body)) }

/-- The lines of a program with the new names. -/
def lines (r : Renaming) : Option Nat → List SourceLine → List SourceLine
  | _, [] => []
  | body, line :: rest => r.line body line :: r.lines (line.bodyBehind body) rest

/-- **A renamed line is the same statement with other names.** -/
theorem parse_line (r : Renaming) (body : Option Nat) (line : SourceLine) :
    Statement.parse (r.line body line).head (r.line body line).args =
      (Statement.parse line.head line.args).map
        (Statement.respell (r.names body) r.definition) := by
  obtain ⟨number, head, args⟩ := line
  simp only [Renaming.line, Statement.parse]
  cases Keyword.ofWord? head with
  | none => rfl
  | some keyword =>
    rcases args with _ | ⟨a, _ | ⟨b, _ | ⟨c, _ | ⟨d, args⟩⟩⟩⟩
    case cons.nil =>
      cases keyword with
      | define =>
        simp only [List.map_cons, List.map_nil, isIdentifier_respell]
        by_cases ha : isIdentifier a.toList = true
        · simp only [if_pos ha]
          rfl
        · simp only [if_neg ha, respell_of_not_isIdentifier r.definition ha]
          rfl
      | _ => rfl
    all_goals cases keyword <;> rfl

end Renaming

/-! ## Texts -/

theorem Plain.respell {word : String} (h : Plain word) (f : Identifier ↪ Identifier) :
    Plain (respell f word) := by
  by_cases hid : isIdentifier word.toList = true
  · have hid' := (isIdentifier_respell f word).trans hid
    refine ⟨?_, fun c hc => plain_of_isIdentifier hid' hc⟩
    intro hnil
    rw [hnil] at hid'
    cases hid'
  · rwa [respell_of_not_isIdentifier f hid]

theorem Plain.respellOperand {word : String} (h : Plain word) (f : Identifier ↪ Identifier) :
    Plain (respellOperand f word) := by
  unfold TapeMachine.respellOperand
  split
  · rename_i name hp
    have hid := (isIdentifier_respell f name).trans (parse_eq_var hp).2
    have hchars : ("$" ++ TapeMachine.respell f name).toList =
        '$' :: (TapeMachine.respell f name).toList := by simp
    rw [Plain, hchars]
    refine ⟨List.cons_ne_nil _ _, fun c hc => ?_⟩
    rcases List.mem_cons.mp hc with rfl | hc
    · decide
    · exact plain_of_isIdentifier hid hc
  · exact h

theorem Renaming.plain_line {line : SourceLine} (h : ∀ w ∈ line.head :: line.args, Plain w)
    (r : Renaming) (body : Option Nat) :
    ∀ w ∈ (r.line body line).head :: (r.line body line).args, Plain w := by
  intro w hw
  rcases List.mem_cons.mp hw with rfl | hw
  · exact h _ List.mem_cons_self
  · simp only [Renaming.line] at hw
    split at hw
    all_goals
      obtain ⟨v, hv, rfl⟩ := List.mem_map.mp hw
      have hplain := h v (List.mem_cons_of_mem _ hv)
    · exact hplain.respell r.definition
    · exact hplain.respell r.definition
    · exact hplain.respellOperand (r.names body)

/-- Words with blanks between them. -/
def spaced (ws : List String) : String := " ".intercalate ws

theorem toList_spaced_cons (w v : String) (ws : List String) :
    (spaced (w :: v :: ws)).toList = w.toList ++ ' ' :: (spaced (v :: ws)).toList := by
  simp [spaced]

theorem forall_mem_spaced {p : Char → Prop} (hp : p ' ') {ws : List String}
    (h : ∀ w ∈ ws, ∀ c ∈ w.toList, p c) : ∀ c ∈ (spaced ws).toList, p c := by
  induction ws with
  | nil => simp [spaced]
  | cons w ws ih =>
    cases ws with
    | nil => simpa [spaced] using h
    | cons v ws =>
      intro c hc
      rw [toList_spaced_cons, List.mem_append, List.mem_cons] at hc
      rcases hc with hc | rfl | hc
      · exact h w List.mem_cons_self c hc
      · exact hp
      · exact ih (fun x hx => h x (List.mem_cons_of_mem w hx)) c hc

theorem words_spaced {ws : List String} (h : ∀ w ∈ ws, Plain w) :
    Text.words (spaced ws).toList = ws.map String.toList := by
  induction ws with
  | nil => rfl
  | cons w ws ih =>
    obtain ⟨hne, hw⟩ := h w List.mem_cons_self
    have hblank : ∀ c ∈ w.toList, Text.isBlank c = false := fun c hc => (hw c hc).1
    cases ws with
    | nil =>
      have hword : Text.words (w.toList ++ []) = w.toList :: Text.words [] :=
        Text.words_append hne hblank rfl
      rw [spaced, String.intercalate_singleton, ← List.append_nil w.toList, hword]
      rfl
    | cons v ws =>
      have hspace : Text.isBlank ' ' = true := by decide
      have hends : Text.endsWord (' ' :: (spaced (v :: ws)).toList) = true := hspace
      rw [toList_spaced_cons, Text.words_append hne hblank hends, Text.words, if_pos hspace,
        ih fun x hx => h x (List.mem_cons_of_mem w hx)]
      rfl

/-- The words of a line, written out. -/
def SourceLine.written (line : SourceLine) : String := spaced (line.head :: line.args)

/-- A line that is written out reads as itself. -/
theorem statement?_written {line : SourceLine} (h : ∀ w ∈ line.head :: line.args, Plain w) :
    Source.statement? line.number line.written.toList = some line := by
  have hmark : ∀ c ∈ line.written.toList, c ≠ '#' :=
    forall_mem_spaced (by decide) fun w hw c hc => ((h w hw).2 c hc).2
  have hcode : Source.code line.written.toList = line.written.toList := by
    have hcode : Source.code (line.written.toList ++ []) = line.written.toList ++ [] :=
      code_append hmark
    rwa [List.append_nil] at hcode
  have hwords : (Text.words line.written.toList).map String.ofList = line.head :: line.args := by
    rw [SourceLine.written, words_spaced h, List.map_map]
    simp [Function.comp_def]
  simp only [Source.statement?, hcode, hwords]

theorem unbroken_written {line : SourceLine} (h : ∀ w ∈ line.head :: line.args, Plain w) :
    Unbroken line.written := by
  unfold Unbroken SourceLine.written
  have hspace : Text.isBreak ' ' = false := by decide
  refine forall_mem_spaced hspace fun w hw => ?_
  exact unbroken_of_not_blank fun c hc => ((h w hw).2 c hc).1

/-- Lines that are written as one text have the statements that they have. A last line that is empty
gets lost, and has none. -/
theorem statementsFrom_joinLines {ls : List String} (h : ∀ l ∈ ls, Unbroken l) (n : Nat) :
    Source.statementsFrom n (Text.lines (joinLines ls).toList) =
      Source.statementsFrom n (ls.map String.toList) := by
  induction ls generalizing n with
  | nil => rfl
  | cons l ls ih =>
    cases ls with
    | nil =>
      rw [joinLines, String.intercalate_singleton]
      by_cases hl : l.toList = []
      · rw [List.map_singleton, hl]
        rfl
      · rw [Text.lines_eq_singleton hl (h l List.mem_cons_self)]
        rfl
    | cons m ls =>
      rw [toList_joinLines_cons, Text.lines_append (h l List.mem_cons_self), List.map_cons,
        Source.statementsFrom, Source.statementsFrom,
        ih fun x hx => h x (List.mem_cons_of_mem l hx)]

namespace Renaming

variable {r : Renaming}

/-- The second text is the first with the new names: it has the renamed statements, each on its old
line. Blanks and comments are free. -/
def Renames (r : Renaming) (text text' : String) : Prop :=
  Source.statements text' = r.lines none (Source.statements text)

instance (r : Renaming) (text text' : String) : Decidable (r.Renames text text') :=
  inferInstanceAs (Decidable (_ = _))

/-- The lines of a text of which the first has the given number, written out with the new names. -/
def rewrite (r : Renaming) : Option Nat → Nat → List (List Char) → List String
  | _, _, [] => []
  | body, n, l :: rest =>
    match Source.statement? n l with
    | none => "" :: r.rewrite body (n + 1) rest
    | some line => (r.line body line).written :: r.rewrite (line.bodyBehind body) (n + 1) rest

theorem unbroken_rewrite (body : Option Nat) (n : Nat) (ls : List (List Char)) :
    ∀ l ∈ r.rewrite body n ls, Unbroken l := by
  induction ls generalizing body n with
  | nil => simp [rewrite]
  | cons l rest ih =>
    rw [rewrite]
    cases hl : Source.statement? n l with
    | none =>
      intro x hx
      rcases List.mem_cons.mp hx with rfl | hx
      · decide
      · exact ih body (n + 1) x hx
    | some line =>
      intro x hx
      rcases List.mem_cons.mp hx with rfl | hx
      · exact unbroken_written (r.plain_line (fun w hw => plain_of_statement? hl hw) body)
      · exact ih (line.bodyBehind body) (n + 1) x hx

theorem statementsFrom_rewrite (body : Option Nat) (n : Nat) (ls : List (List Char)) :
    Source.statementsFrom n ((r.rewrite body n ls).map String.toList) =
      r.lines body (Source.statementsFrom n ls) := by
  induction ls generalizing body n with
  | nil => rfl
  | cons l rest ih =>
    rw [rewrite, Source.statementsFrom]
    cases hl : Source.statement? n l with
    | none =>
      have hempty : Source.statement? n "".toList = none := rfl
      simp only [List.map_cons, Source.statementsFrom, hempty, ih]
    | some line =>
      have hnumber : (r.line body line).number = n := by
        rw [← number_of_statement? hl]
        rfl
      have hwritten :=
        statement?_written (r.plain_line (fun w hw => plain_of_statement? hl hw) body)
      rw [hnumber] at hwritten
      simp only [List.map_cons, Source.statementsFrom, hwritten, lines, ih]

/-- **Every text can be renamed.** -/
theorem exists_renames (r : Renaming) (text : String) : ∃ text', r.Renames text text' := by
  refine ⟨joinLines (r.rewrite none 1 (Text.lines text.toList)), ?_⟩
  rw [Renames, Source.statements, statementsFrom_joinLines (unbroken_rewrite none 1 _),
    statementsFrom_rewrite]
  rfl

end Renaming

end TapeMachine
