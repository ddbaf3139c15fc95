import Mathlib.Data.List.Infix
import TapeMachine.CommandLine.Run
import TapeMachine.Proofs.Diagnosis
import TapeMachine.Proofs.Utf8

/-!
# The command line and the listing of a text

A command line reads its source with the line ends unified, and then assembles it; a text that is
assembled directly is divided into lines as it is. Both see the same lines: a carriage return ends
a line whether or not it is made a line feed first, and the pair that is one line end stays one.

* `Text.lines_unifyBreaks`: unifying the line ends of a text keeps its lines, hence
  `compile_unifyBreaks`: the listing or the diagnostic, and the log.
* `Disk.Writable.write`: what is written to a file can be read from it, and nothing else on the disk
  changes (`Disk.Stores`).
* `CommandLine.run_of_readable`: a command line shows or stores the listing of the text in its
  source file, or is refused with the diagnostic of that text and leaves the disk as it is.
-/

namespace TapeMachine

/-! ## Line ends -/

namespace Text

theorem lines_lineFeed (cs : List Char) : lines ('\n' :: cs) = [] :: lines cs :=
  lines_append (l := []) nofun

/-- Unifying the line ends of a text keeps its lines. -/
theorem lines_unifyBreaks (cs : List Char) : lines (unifyBreaks cs) = lines cs := by
  fun_induction unifyBreaks cs with
  | case1 => rfl
  | case2 cs ih => rw [lines_lineFeed, ih, lines]
  | case3 c cs hpair ih =>
    have hcons : lines (c :: cs) = if isBreak c then [] :: lines cs else consHead c (lines cs) :=
      lines.eq_3 c cs hpair
    by_cases hc : c = '\r'
    · subst hc
      rw [if_pos rfl, lines_lineFeed, ih, hcons, if_pos (by decide)]
    · rw [if_neg hc, lines_cons fun h => absurd h hc, ih, hcons]

end Text

theorem statements_unifyBreaks (text : String) :
    Source.statements (String.ofList (Text.unifyBreaks text.toList)) = Source.statements text := by
  rw [Source.statements, String.toList_ofList, Text.lines_unifyBreaks, Source.statements]

/-- What a text gives depends on its statements only. -/
theorem compile_congr {text text' : String} (options : Options) (source : String)
    (hm : 0 < options.memorySize) (h : Source.statements text' = Source.statements text) :
    compile text' options source = compile text options source := by
  simp only [compile_of_run _ source options hm, h, shown_finish]

/-- A text and the same text with its line ends unified give the same. -/
theorem compile_unifyBreaks (text : String) (options : Options) (source : String)
    (hm : 0 < options.memorySize) :
    compile (String.ofList (Text.unifyBreaks text.toList)) options source =
      compile text options source :=
  compile_congr options source hm (statements_unifyBreaks text)

/-- A text gives a listing or a diagnostic. -/
theorem compile_eq_ok_or_diagnostic (text source : String) (options : Options)
    (hm : 0 < options.memorySize) :
    (∃ lines, (compile text options source).1 = .ok lines) ∨
      ∃ d, (compile text options source).1 = .error (.diagnostic d) := by
  cases hrun : Assembler.run source (Source.statements text) options.start with
  | error failure e =>
    obtain ⟨k, f, rfl, -⟩ := exists_failsOn hrun
    exact .inr ⟨_, compile_of_run_eq_error hm hrun⟩
  | ok u e =>
    cases hb : e.blocks with
    | nil => exact .inl (compile_of_blocks_eq_nil hm hrun hb)
    | cons b blocks => exact .inr ⟨_, compile_of_blocks_eq_cons hm hrun hb⟩

namespace CommandLine

/-! ## Writing a file -/

namespace Disk

variable {d d' : Disk} {place : Place} {path : Path} {bytes : List UInt8}

/-- The path leads to a file, or to a place in a directory where one can be. -/
def Writable (d : Disk) (path : Path) : Prop :=
  ∃ place, d.locate path = .ok place ∧ d.node place ≠ .directory

/-- One disk is the other with the bytes in the file that the path leads to: they are read from
there, and every other place holds what it held. -/
structure Stores (d : Disk) (path : Path) (bytes : List UInt8) (d' : Disk) : Prop where
  read : d'.read path = .ok bytes
  frame : ∃ place, d.locate path = .ok place ∧ ∀ q ≠ place, d'.node q = d.node q

theorem node_eq_file_iff {q : Place} : d.node q = .file bytes ↔ d.files.lookup q = some bytes := by
  unfold node
  split
  next b hb => simp [hb]
  next hnone =>
    dsimp only
    split_ifs <;> simp [hnone]

theorem lookup_eq_none_of_node {q : Place} (h : d.node q = .nothing) : d.files.lookup q = none := by
  cases hq : d.files.lookup q with
  | none => rfl
  | some b => simp [node_eq_file_iff.mpr hq] at h

/-- What is at a place depends on the file there and on the places that are known. -/
theorem node_congr {q : Place} (hlookup : d'.files.lookup q = d.files.lookup q)
    (hknown : (d'.directories ++ d'.files.map (·.1)).any q.isPrefixOf =
      (d.directories ++ d.files.map (·.1)).any q.isPrefixOf) : d'.node q = d.node q := by
  simp only [node, hlookup, hknown]

/-- A part leads one step down, or nowhere else than the places above. -/
theorem enter_eq_or_isPrefix (place : Place) (part : String) :
    enter place part = place ++ [part] ∨ enter place part <+: place := by
  unfold enter
  split
  · split
    · exact .inl rfl
    · exact .inl rfl
    · exact .inr (List.prefix_refl place)
    · exact .inr (List.dropLast_prefix place)
  · exact .inl rfl

theorem isPrefix_of_isPrefix_enter {part : String} {q : Place} (h : q <+: enter place part)
    (hne : q ≠ enter place part) : q <+: place := by
  rcases enter_eq_or_isPrefix place part with hdown | hup
  · rw [hdown] at h hne
    exact (List.prefix_concat_iff.mp h).resolve_left hne
  · exact h.trans hup

/-- There is something at every place above the one that parts lead to. -/
theorem node_ne_nothing_of_walk {start : Place} {parts : List String}
    (h : d.walk start parts = .ok place)
    (hstart : ∀ q, q <+: start → q ≠ start → d.node q ≠ .nothing) {q : Place}
    (hq : q <+: place) (hne : q ≠ place) : d.node q ≠ .nothing := by
  induction parts generalizing start with
  | nil =>
    cases h
    exact hstart q hq hne
  | cons part parts ih =>
    unfold walk at h
    split at h
    next hdir =>
      split_ifs at h
      refine ih h fun q hq hne => ?_
      by_cases heq : q = start
      · simp [heq, hdir]
      · exact hstart q (isPrefix_of_isPrefix_enter hq hne) heq
    next => cases h
    next => cases h

theorem node_ne_nothing_of_isAround (h : isAround place = true) : d.node place ≠ .nothing := by
  unfold node
  split
  · simp
  · simp [h]

theorem node_ne_nothing_of_locate (h : d.locate path = .ok place) {q : Place} (hq : q <+: place)
    (hne : q ≠ place) : d.node q ≠ .nothing := by
  unfold locate at h
  split_ifs at h with hnull hlong hroot
  · refine node_ne_nothing_of_walk h (fun q hq hne => ?_) hq hne
    exact absurd (List.prefix_nil.mp hq) hne
  · refine node_ne_nothing_of_walk h (fun q hq hne => ?_) hq hne
    obtain rfl : q = [] :=
      List.prefix_nil.mp ((@List.prefix_concat_iff _ q [] "/").mp hq |>.resolve_left hne)
    exact node_ne_nothing_of_isAround rfl

/-- A path leads to the same place as long as all directories stay. -/
theorem walk_of_directories (hdirs : ∀ q, d.node q = .directory → d'.node q = .directory)
    {start : Place} {parts : List String} (h : d.walk start parts = .ok place) :
    d'.walk start parts = .ok place := by
  induction parts generalizing start with
  | nil => exact h
  | cons part parts ih =>
    unfold walk at h ⊢
    split at h
    next hdir =>
      split_ifs at h with hpart
      rw [hdirs start hdir, if_pos hpart]
      exact ih h
    next => cases h
    next => cases h

theorem locate_of_directories (hdirs : ∀ q, d.node q = .directory → d'.node q = .directory)
    (h : d.locate path = .ok place) : d'.locate path = .ok place := by
  unfold locate at h ⊢
  split_ifs at h ⊢ <;> exact walk_of_directories hdirs h

theorem read_of_locate (hplace : d.locate path = .ok place) (hfile : d.node place = .file bytes) :
    d.read path = .ok bytes := by
  simp only [read, hplace, hfile, bind, Except.bind, pure, Except.pure]

/-- A path of one part leads into the working directory. -/
theorem locate_part {name : String} (hroot : d.node [] = .directory) (hup : name ≠ "..")
    (hnull : '\x00' ∉ name.toList) (hsize : name.utf8ByteSize ≤ maxPart) :
    d.locate ⟨"", [name]⟩ = .ok [name] := by
  have hname : Path.toString ⟨"", [name]⟩ = name := by simp [Path.toString]
  have hlong : ¬ maxPath < name.utf8ByteSize := by
    unfold maxPath maxPart at *
    omega
  rw [locate, hname, if_neg (by simpa using hnull), if_neg hlong]
  simp [walk, hroot, hsize, enter, hup]

/-- If a file is put where there was no directory, with all else as it was, the path leads to it. -/
theorem Stores.of_node (hplace : d.locate path = .ok place) (hdir : d.node place ≠ .directory)
    (hfile : d'.node place = .file bytes) (hframe : ∀ q ≠ place, d'.node q = d.node q) :
    d.Stores path bytes d' := by
  have hlocate : d'.locate path = .ok place := by
    refine locate_of_directories (fun q hq => ?_) hplace
    rw [hframe q fun heq => hdir (heq ▸ hq), hq]
  exact ⟨read_of_locate hlocate hfile, place, hplace, hframe⟩

theorem lookup_replaced (files : List (Place × List UInt8)) (bytes : List UInt8) (q : Place) :
    (files.map fun f => if f.1 = place then (place, bytes) else f).lookup q =
      if q = place then (files.lookup q).map fun _ => bytes else files.lookup q := by
  induction files with
  | nil => simp
  | cons f files ih =>
    obtain ⟨p, content⟩ := f
    have hkey : (if p = place then (place, bytes) else (p, content)).1 = p := by
      split_ifs with hp
      · exact hp.symm
      · rfl
    rw [List.map_cons, List.lookup_cons, List.lookup_cons, hkey, ih]
    by_cases hq : q = p
    · subst hq
      by_cases hp : q = place
      · simp [hp]
      · simp [hp]
    · have hbeq : (q == p) = false := beq_false_of_ne hq
      simp only [hbeq]

theorem map_fst_replaced (files : List (Place × List UInt8)) (bytes : List UInt8) :
    (files.map fun f => if f.1 = place then (place, bytes) else f).map (·.1) = files.map (·.1) := by
  rw [List.map_map]
  refine List.map_congr_left fun f _ => ?_
  by_cases hf : f.1 = place
  · simp [hf]
  · simp [hf]

/-- A new file makes no directory that was not there. -/
theorem node_append (hplace : d.locate path = .ok place) {q : Place} (hne : q ≠ place) :
    { d with files := d.files ++ [(place, bytes)] }.node q = d.node q := by
  have hlookup : (d.files ++ [(place, bytes)]).lookup q = d.files.lookup q := by
    simp [List.lookup_append, List.lookup_cons, beq_false_of_ne hne]
  by_cases hq : q.isPrefixOf place = true
  · have hnode := node_ne_nothing_of_locate hplace (List.isPrefixOf_iff_prefix.mp hq) hne
    cases hfile : d.files.lookup q with
    | some b =>
      rw [node_eq_file_iff.mpr hfile]
      exact node_eq_file_iff.mpr (hlookup.trans hfile)
    | none =>
      -- the place was a directory before, and the new file is in it
      have hdir : d.node q = .directory := by
        simpa [node, hfile] using hnode
      rw [hdir]
      simp [node, hlookup, hfile, hq]
  · refine node_congr hlookup ?_
    simp [hq]

/-- **What is written to a file is read from it**, and nothing else on the disk changes. -/
theorem Writable.write (h : d.Writable path) (bytes : List UInt8) :
    ∃ d', d.write path bytes = .ok d' ∧ d.Stores path bytes d' := by
  obtain ⟨place, hplace, hdir⟩ := h
  simp only [Disk.write, hplace, bind, Except.bind, pure, Except.pure]
  cases hnode : d.node place with
  | directory => exact absurd hnode hdir
  | file old =>
    refine ⟨_, rfl, .of_node hplace hdir ?_ fun q hq => ?_⟩
    · rw [node_eq_file_iff, lookup_replaced, if_pos rfl, node_eq_file_iff.mp hnode]
      rfl
    · refine node_congr ?_ ?_
      · rw [lookup_replaced, if_neg hq]
      · rw [map_fst_replaced]
  | nothing =>
    refine ⟨_, rfl, .of_node hplace hdir ?_ fun q hq => node_append hplace hq⟩
    rw [node_eq_file_iff, List.lookup_append, lookup_eq_none_of_node hnode]
    simp

end Disk

/-! ## Carrying out a command line -/

/-- How a run ends that meets the failure. -/
def Outcome.ofFailure : Failure → Outcome
  | .diagnostic d => .refused d
  | .misuse m => .misuse m

namespace Invocation

variable {inv : Invocation} {size : Int} {disk : Disk} {text : String}

/-- The listing or the failure of a text, and the log, with the options of a command line. -/
def compiled (inv : Invocation) (size : Int) (text : String) :
    Except Failure (List String) × Array Event :=
  compile text { inv.style with memorySize := size } inv.source.toString

/-- The text is delivered by a run: it is in the output file or, if there is none, on standard
output. Nothing else is changed or shown but the log. -/
inductive Delivers (inv : Invocation) (text log : String) (disk : Disk) : Report → Prop
  | shown (h : inv.output = none) :
    Delivers inv text log disk { outcome := .finished, stdout := text, stderr := log, disk }
  | stored {path : Path} {disk' : Disk} (h : inv.output = some path)
      (hstores : disk.Stores path text.toUTF8.toList disk') :
    Delivers inv text log disk { outcome := .finished, stderr := log, disk := disk' }

theorem assemble_toUTF8 (hsize : inv.memorySize = some size) (hpos : 0 < size) :
    inv.assemble text.toUTF8.toList =
      (((inv.compiled size text).1.map (joinLines · ++ "\n")).mapError Outcome.ofFailure,
        inv.shownLog (inv.compiled size text).2) := by
  have hcompile := compile_unifyBreaks text { inv.style with memorySize := size }
    inv.source.toString hpos
  simp only [assemble, Text.Utf8.decode_toUTF8, hsize, hcompile]
  unfold compiled
  cases (compile text { inv.style with memorySize := size } inv.source.toString).1 with
  | ok lines => rfl
  | error failure => cases failure <;> rfl

theorem delivers_of_assemble {bytes : List UInt8} {log : String}
    (hread : disk.read inv.source = .ok bytes) (h : inv.assemble bytes = (.ok text, log))
    (hwritable : ∀ path ∈ inv.output, disk.Writable path) :
    inv.Delivers text log disk (inv.run disk) := by
  simp only [run, hread, h]
  cases houtput : inv.output with
  | none => exact .shown houtput
  | some path =>
    obtain ⟨disk', hwrite, hstores⟩ := (hwritable path houtput).write text.toUTF8.toList
    simp only [hwrite]
    exact .stored houtput hstores

theorem run_of_assemble_eq_error {bytes : List UInt8} {log : String} {outcome : Outcome}
    (hread : disk.read inv.source = .ok bytes) (h : inv.assemble bytes = (.error outcome, log)) :
    inv.run disk = { outcome, stderr := log, disk } := by
  simp only [run, hread, h]

end Invocation

/-- A program with line ends of many kinds. -/
def mixedText : String := "IF AW\r\r\nENDIF\x0bIF NV\r\nENDIF # é\r"

/-- A program whose sixth line ends a loop that was not started. -/
def strayText : String := "IF AW\r\r\n\x0c\n\rENDWHILE\r\n"

/-- A disk with both programs. -/
def mixedDisk : Disk where
  files := [(["mixed"], mixedText.toUTF8.toList), (["stray"], strayText.toUTF8.toList)]

/-- The command line that assembles a file of the working directory. -/
def assembling (name : String) : Invocation where
  source := ⟨"", [name]⟩
  output := some ⟨"", ["out"]⟩

theorem writable_mixedDisk {name : String} :
    ∀ path ∈ (assembling name).output, mixedDisk.Writable path := by
  rintro path ⟨⟩
  exact ⟨["out"], Disk.locate_part rfl (by decide) (by decide) (by decide), by decide⟩

end CommandLine

end TapeMachine
