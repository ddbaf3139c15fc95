import Mathlib.Data.List.Induction
import Mathlib.Logic.Function.Basic
import TapeMachine.Draft
import TapeMachine.Proofs.Backpatch
import TapeMachine.Proofs.Effect

/-!
# Writing on a tape

Instructions are emitted, labels are bound and the tape is resolved, in any order and with any
number of attempts that fail. What an attempt to resolve the tape comes to depends only on what was
emitted and on the first address that each label was given.

* `Sheet.records_edited`: after any edits the labels have these addresses and the tape holds the
  emitted instructions.
* `attempt_of_edits`: what an attempt comes to, and that failed attempts leave no trace in it.
* `Draft.exists_edits`: a draft is a sheet to which this applies, whatever was done to it.
-/

namespace TapeMachine

/-- What can be done to a tape and its labels. -/
inductive Edit (L : Type) where
  | emit (i : Instruction L)
  | bind (l : L) (address : Int)
  | resolve
deriving DecidableEq, Repr

/-- A tape and what its labels stand for at present. -/
structure Sheet (L : Type) where
  tape : Tape L := {}
  label : L → Label

variable {L : Type}

namespace Edit

/-- The instruction that is emitted. -/
def instruction? : Edit L → Option (Instruction L)
  | emit i => some i
  | _ => none

/-- The address that the label is given. -/
def address? [DecidableEq L] (e : Edit L) (l : L) : Option Int :=
  match e with
  | bind l' a => if l' = l then some a else none
  | _ => none

/-- The instructions that edits emit. -/
def emitted (edits : List (Edit L)) : List (Instruction L) := edits.filterMap instruction?

/-- The address that a label is bound to: the first that it is given. -/
def address [DecidableEq L] (edits : List (Edit L)) (l : L) : Option Int :=
  edits.findSome? (·.address? l)

theorem emitted_concat (edits : List (Edit L)) (e : Edit L) :
    emitted (edits ++ [e]) = emitted edits ++ e.instruction?.toList := by
  rw [emitted, List.filterMap_append, emitted]
  cases e <;> rfl

@[simp] theorem address_nil [DecidableEq L] (l : L) : address ([] : List (Edit L)) l = none := rfl

theorem address_append [DecidableEq L] (edits more : List (Edit L)) (l : L) :
    address (edits ++ more) l = (address edits l).or (address more l) := List.findSome?_append

theorem address_cons [DecidableEq L] (e : Edit L) (edits : List (Edit L)) (l : L) :
    address (e :: edits) l = (e.address? l).or (address edits l) := by
  rw [address, List.findSome?_cons, address]
  cases e.address? l <;> rfl

theorem address_eq_none_iff [DecidableEq L] {edits : List (Edit L)} {l : L} :
    address edits l = none ↔ ∀ a, .bind l a ∉ edits := by
  rw [address, List.findSome?_eq_none_iff]
  constructor
  · intro h a ha
    simpa [address?] using h _ ha
  · intro h e he
    cases e with
    | emit i => rfl
    | resolve => rfl
    | bind l' a =>
      refine if_neg ?_
      rintro rfl
      exact h a he

/-- Attempts to resolve the tape emit nothing and bind nothing. -/
theorem emitted_filter [DecidableEq L] (edits : List (Edit L)) :
    emitted (edits.filter (· ≠ .resolve)) = emitted edits := by
  rw [emitted, emitted, List.filterMap_filter]
  refine List.filterMap_congr fun e _ => ?_
  cases e <;> simp [instruction?]

theorem address_filter [DecidableEq L] (edits : List (Edit L)) :
    address (edits.filter (· ≠ .resolve)) = address edits := by
  funext l
  induction edits with
  | nil => rfl
  | cons e edits ih =>
    by_cases he : e = .resolve
    · subst he
      exact ih
    · rw [List.filter_cons_of_pos (by simpa using he), address_cons, address_cons, ih]

end Edit

namespace Sheet

/-- An empty tape, and labels that have nothing but names. -/
def blank (name : L → String) : Sheet L where
  label l := ⟨name l, none⟩

/-- Appends an instruction. -/
def emit (s : Sheet L) (i : Instruction L) : Sheet L := { s with tape := s.tape.emit i }

/-- Gives a label its address. -/
def bind [DecidableEq L] (s : Sheet L) (l : L) (address : Int) : Except Misuse (Sheet L) := do
  return { s with label := Function.update s.label l (← (s.label l).bind address) }

/-- Writes the addresses of labels into the instructions. -/
def resolve : EStateM Fault (Sheet L) (List (Instruction L)) := fun s =>
  match Tape.resolve s.label s.tape with
  | .ok instructions tape => .ok instructions { s with tape }
  | .error f tape => .error f { s with tape }

/-- What an attempt to resolve the tape comes to. -/
def attempt (s : Sheet L) : Except Fault (List (Instruction L)) :=
  match s.resolve with
  | .ok instructions _ => .ok instructions
  | .error f _ => .error f

/-- The sheet after an edit, be it carried out or refused. -/
def after [DecidableEq L] (s : Sheet L) : Edit L → Sheet L
  | .emit i => s.emit i
  | .bind l address =>
    match s.bind l address with
    | .ok s' => s'
    | .error _ => s
  | .resolve =>
    match s.resolve with
    | .ok _ s' => s'
    | .error _ s' => s'

/-- The sheet after edits of a blank one. -/
def edited [DecidableEq L] (name : L → String) (edits : List (Edit L)) : Sheet L :=
  edits.foldl after (blank name)

/-! ## What is on a sheet -/

/-- The labels have the given addresses and the tape holds the given code. -/
structure Records (name : L → String) (address : L → Option Int) (code : List (Instruction L))
    (s : Sheet L) : Prop where
  label : s.label = fun l => ⟨name l, address l⟩
  tape : Tape.Holds address code s.tape

variable {name : L → String} {address : L → Option Int} {code : List (Instruction L)} {s : Sheet L}

theorem records_blank (name : L → String) : (blank name).Records name (fun _ => none) [] :=
  ⟨rfl, .of_fresh _ Tape.fresh_empty⟩

/-- The first address of a label stays, whether or not it is given another. -/
theorem Records.after_bind [DecidableEq L] (h : s.Records name address code) (l : L) (a : Int) :
    (s.after (.bind l a)).Records name
      (fun l' => (address l').or ((Edit.bind l a).address? l')) code := by
  have hl : s.label l = ⟨name l, address l⟩ := by rw [h.label]
  cases ha : address l with
  | some known =>
    have hrefused : s.after (.bind l a) = s := by
      simp only [after, bind, hl, Label.bind, ha]
      rfl
    have hsame : (fun l' => (address l').or ((Edit.bind l a).address? l')) = address := by
      funext l'
      by_cases hl : l = l'
      · subst hl
        simp [ha]
      · simp [Edit.address?, hl]
    rw [hrefused, hsame]
    exact h
  | none =>
    have hbound : s.after (.bind l a) =
        { s with label := Function.update s.label l ⟨name l, some a⟩ } := by
      simp only [after, bind, hl, Label.bind, ha]
      rfl
    rw [hbound]
    refine ⟨?_, h.tape.mono fun l' a' ha' => by simp [ha']⟩
    funext l'
    by_cases hl : l = l'
    · subst hl
      simp [Edit.address?, ha]
    · simp [Edit.address?, Function.update_of_ne (Ne.symm hl), h.label, hl]

theorem Records.resolve_of_bound (h : s.Records name address code)
    (hb : Tape.unbound? address code = none) :
    s.resolve = .ok (code.map (Instruction.settle address))
      { s with tape := ⟨code.map (Instruction.settle address), []⟩ } := by
  obtain ⟨hlabel, htape⟩ := h
  have hlook : (fun l => (s.label l).address) = address := by rw [hlabel]
  rw [← hlook] at htape hb ⊢
  simp only [resolve, htape.resolve_of_bound hb]

theorem Records.resolve_of_unbound (h : s.Records name address code) {l : L}
    (hl : Tape.unbound? address code = some l) :
    ∃ s', s.resolve = .error (.targetUnbound (name l)) s' ∧ s'.tape.fixups = s.tape.fixups ∧
      s'.Records name address code := by
  obtain ⟨hlabel, htape⟩ := h
  have hlook : (fun l => (s.label l).address) = address := by rw [hlabel]
  have hname : (s.label l).name = name l := by rw [hlabel]
  rw [← hlook] at htape hl ⊢
  obtain ⟨t, hresolve, hfixups, ht⟩ := htape.resolve_of_unbound hl
  rw [hname] at hresolve
  refine ⟨{ s with tape := t }, by simp only [resolve, hresolve], hfixups, ?_, ht⟩
  show s.label = fun l => ⟨name l, (s.label l).address⟩
  rw [hlabel]

/-- An attempt changes neither what the labels stand for nor the code, whatever it comes to. -/
theorem Records.after_resolve [DecidableEq L] (h : s.Records name address code) :
    (s.after .resolve).Records name address code := by
  cases hb : Tape.unbound? address code with
  | none =>
    simp only [after, h.resolve_of_bound hb]
    have hdone := Tape.Holds.intro (Tape.unbound?_eq_none_iff.mp hb) .nil
    rw [List.append_nil, List.append_nil] at hdone
    exact ⟨h.label, hdone⟩
  | some l =>
    obtain ⟨s', hresolve, -, hs'⟩ := h.resolve_of_unbound hb
    simp only [after, hresolve]
    exact hs'

theorem edited_concat [DecidableEq L] (name : L → String) (edits : List (Edit L)) (e : Edit L) :
    edited name (edits ++ [e]) = (edited name edits).after e := by
  rw [edited, List.foldl_concat, edited]

/-- What an edit adds to a sheet. -/
theorem Records.after [DecidableEq L] (h : s.Records name address code) (e : Edit L) :
    (s.after e).Records name (fun l => (address l).or (e.address? l))
      (code ++ e.instruction?.toList) := by
  cases e with
  | emit i => simpa [Edit.address?] using ⟨h.label, h.tape.emit i⟩
  | bind l a => simpa [Edit.instruction?] using h.after_bind l a
  | resolve => simpa [Edit.address?, Edit.instruction?] using h.after_resolve

/-- **What is on a sheet**: the first address of every label, and all instructions. -/
theorem records_edited [DecidableEq L] (name : L → String) (edits : List (Edit L)) :
    (edited name edits).Records name (Edit.address edits) (Edit.emitted edits) := by
  induction edits using List.reverseRecOn with
  | nil => exact records_blank name
  | append_singleton edits e ih =>
    have haddress : Edit.address (edits ++ [e]) =
        fun l => (Edit.address edits l).or (e.address? l) := by
      funext l
      simp [Edit.address_append, Edit.address_cons]
    rw [edited_concat, haddress, Edit.emitted_concat]
    exact ih.after e

end Sheet

/-! ## Attempts to resolve -/

/-- Bindings as edits. -/
def Edit.binds (bindings : List (L × Int)) : List (Edit L) := bindings.map fun p => .bind p.1 p.2

theorem Edit.emitted_resolve_binds (edits : List (Edit L)) (bindings : List (L × Int)) :
    emitted (edits ++ .resolve :: binds bindings) = emitted edits := by
  have hbinds : (binds bindings).filterMap instruction? = [] := by
    simp [binds, List.filterMap_eq_nil_iff, instruction?]
  rw [emitted, List.filterMap_append, List.filterMap_cons_none rfl, hbinds, List.append_nil]
  rfl

theorem Edit.address_resolve_binds [DecidableEq L] (edits : List (Edit L))
    (bindings : List (L × Int)) :
    address (edits ++ .resolve :: binds bindings) = address (edits ++ binds bindings) := by
  funext l
  rw [address_append, address_append, address_cons]
  rfl

/-- Labels that get an address by the bindings, if not before. -/
theorem Edit.unbound?_of_binds [DecidableEq L] {edits : List (Edit L)} {bindings : List (L × Int)}
    (h : ∀ l ∈ Tape.targets (emitted edits), address edits l = none → ∃ a, (l, a) ∈ bindings) :
    Tape.unbound? (address (edits ++ binds bindings)) (emitted edits) = none := by
  rw [Tape.unbound?_eq_none_iff]
  intro i hi l hl
  rw [address_append, Option.isSome_or]
  cases ha : address edits l with
  | some a => rfl
  | none =>
    obtain ⟨a, hmem⟩ := h l (Tape.mem_targets_iff.mpr ⟨i, hi, hl⟩) ha
    have hbound : address (binds bindings) l ≠ none := fun hnone =>
      address_eq_none_iff.mp hnone a (List.mem_map_of_mem hmem)
    simpa [Option.isSome_iff_ne_none] using hbound

namespace Sheet

variable {name : L → String} {address : L → Option Int} {code : List (Instruction L)} {s : Sheet L}

theorem Records.attempt_of_bound (h : s.Records name address code)
    (hb : Tape.unbound? address code = none) :
    s.attempt = .ok (code.map (Instruction.settle address)) := by
  rw [attempt, h.resolve_of_bound hb]

theorem Records.attempt_of_unbound [DecidableEq L] (h : s.Records name address code) {l : L}
    (hl : Tape.unbound? address code = some l) :
    s.attempt = .error (.targetUnbound (name l)) ∧
      (s.after .resolve).tape.fixups = s.tape.fixups := by
  obtain ⟨s', hresolve, hfixups, -⟩ := h.resolve_of_unbound hl
  exact ⟨by rw [attempt, hresolve], by simp only [Sheet.after, hresolve, hfixups]⟩

/-- What an attempt comes to is settled by the addresses and the code. -/
theorem Records.attempt_eq [DecidableEq L] {s' : Sheet L} (h : s.Records name address code)
    (h' : s'.Records name address code) : s.attempt = s'.attempt := by
  cases hb : Tape.unbound? address code with
  | none => rw [h.attempt_of_bound hb, h'.attempt_of_bound hb]
  | some l => rw [(h.attempt_of_unbound hb).1, (h'.attempt_of_unbound hb).1]

theorem Records.exists_bind_iff [DecidableEq L] (h : s.Records name address code) (l : L)
    (a : Int) :
    (∃ s', s.bind l a = .ok s') ↔ address l = none := by
  have hl : s.label l = ⟨name l, address l⟩ := by rw [h.label]
  cases ha : address l with
  | none => simp [bind, hl, Label.bind, ha, pure, Except.pure, Bind.bind, Except.bind]
  | some known => simp [bind, hl, Label.bind, ha, Bind.bind, Except.bind]

end Sheet

/-- **Backpatching is exact and survives failed attempts.** Take any edits of a blank sheet.

* A label can be bound if and only if it was not bound before.
* If all labels in the emitted instructions are bound, resolving gives these instructions in order
  with every label replaced by its address. Otherwise the first label without an address is at
  fault, in the order of instructions and fields, and all fixups are kept.
* An attempt comes to the same as if there had been none before it.
* After a failed attempt, binding the labels that were missing makes the next one succeed. -/
theorem attempt_of_edits [DecidableEq L] (name : L → String) (edits : List (Edit L)) :
    (∀ l a, (∃ s, (Sheet.edited name edits).bind l a = .ok s) ↔ ∀ a', .bind l a' ∉ edits) ∧
      (Tape.unbound? (Edit.address edits) (Edit.emitted edits) = none →
        (Sheet.edited name edits).attempt =
          .ok ((Edit.emitted edits).map (Instruction.settle (Edit.address edits)))) ∧
      (∀ l, Tape.unbound? (Edit.address edits) (Edit.emitted edits) = some l →
        (Sheet.edited name edits).attempt = .error (.targetUnbound (name l)) ∧
          (Sheet.edited name (edits ++ [.resolve])).tape.fixups =
            (Sheet.edited name edits).tape.fixups) ∧
      (Sheet.edited name edits).attempt =
        (Sheet.edited name (edits.filter (· ≠ .resolve))).attempt ∧
      ∀ bindings : List (L × Int),
        (∀ l ∈ Tape.targets (Edit.emitted edits), Edit.address edits l = none →
          ∃ a, (l, a) ∈ bindings) →
        (Sheet.edited name (edits ++ .resolve :: Edit.binds bindings)).attempt =
          .ok ((Edit.emitted edits).map
            (Instruction.settle (Edit.address (edits ++ Edit.binds bindings)))) := by
  have h := Sheet.records_edited name edits
  refine ⟨fun l a => ?_, h.attempt_of_bound, fun l hl => ?_, ?_, fun bindings hbindings => ?_⟩
  · rw [h.exists_bind_iff, Edit.address_eq_none_iff]
  · rw [Sheet.edited_concat]
    exact h.attempt_of_unbound hl
  · have hfiltered := Sheet.records_edited name (edits.filter (· ≠ .resolve))
    rw [Edit.address_filter, Edit.emitted_filter] at hfiltered
    exact h.attempt_eq hfiltered
  · have hagain := Sheet.records_edited name (edits ++ .resolve :: Edit.binds bindings)
    rw [Edit.emitted_resolve_binds, Edit.address_resolve_binds] at hagain
    exact hagain.attempt_of_bound (Edit.unbound?_of_binds hbindings)

/-- Two labels `start` and `end`, both in one instruction. The first attempt fails at `end`; the
second has its address by then and fails at `start`. -/
def doubleJump : List (Edit Bool) :=
  [.emit { opcode := .condition .equal true, a := .label true, b := .number 3,
           destination := .label false, comment := "twice" },
   .resolve, .bind true 8, .resolve, .bind true 12,
   .emit { opcode := .alu .move true, b := .label true, destination := .register .programCounter }]

theorem attempt_of_doubleJump :
    let name : Bool → String := fun l => if l then "end" else "start"
    (Sheet.edited name doubleJump).attempt = .error (.targetUnbound "start") ∧
      (Sheet.edited name (doubleJump ++ [.resolve])).tape.fixups.length = 3 ∧
      (Sheet.edited name (doubleJump ++ [.resolve, .bind false 0])).attempt =
        .ok [{ opcode := .condition .equal true, a := .number 8, b := .number 3,
               destination := .number 0, comment := "twice" },
             { opcode := .alu .move true, b := .number 8,
               destination := .register .programCounter }] := by
  intro name
  have h := attempt_of_edits name doubleJump
  have hfault := h.2.2.1 false (by decide)
  have hmissing : ∀ l ∈ Tape.targets (Edit.emitted doubleJump), Edit.address doubleJump l = none →
      ∃ a, (l, a) ∈ [(false, (0 : Int))] := by
    intro l _ hl
    cases l with
    | false => exact ⟨0, List.mem_singleton_self _⟩
    | true => exact absurd hl (by decide)
  refine ⟨hfault.1, ?_, (h.2.2.2.2 _ hmissing).trans (by rfl)⟩
  rw [hfault.2]
  rfl

/-! ## Drafts

A draft refers to its labels by names, and a name can be used for a new label. Whatever is done to a
draft, its tape and labels are those of an edited sheet: the labels are counted, and each has the
name that it was made with. -/

/-- The names of labels do not matter for what is on the tape. -/
theorem Sheet.tape_edited [DecidableEq L] (name name' : L → String) (edits : List (Edit L)) :
    (edited name edits).tape = (edited name' edits).tape := by
  induction edits using List.reverseRecOn with
  | nil => rfl
  | append_singleton edits e ih =>
    have hlabel := (records_edited name edits).label
    have hlabel' := (records_edited name' edits).label
    rw [edited_concat, edited_concat]
    cases e with
    | emit i => simp only [after, emit, ih]
    | bind l a =>
      have hbind : ∀ s : Sheet L, (s.after (.bind l a)).tape = s.tape := by
        intro s
        simp only [after, bind]
        cases (s.label l).bind a <;> rfl
      rw [hbind, hbind, ih]
    | resolve =>
      have hpatches : ∀ fixups, Tape.patches (edited name edits).label fixups =
          Tape.patches (edited name' edits).label fixups := by
        intro fixups
        induction fixups with
        | nil => rfl
        | cons f fixups ih => simp only [Tape.patches, hlabel, hlabel'] at ih ⊢; rw [ih]
      have hpending : ∀ fixups, Tape.pending? (edited name edits).label fixups =
          Tape.pending? (edited name' edits).label fixups := by
        intro fixups
        simp only [Tape.pending?, Label.isBound, hlabel, hlabel']
      simp only [after, resolve, Tape.resolve, hpatches, hpending, ih]
      cases Tape.pending? (edited name' edits).label (edited name' edits).tape.fixups <;> rfl

/-- A label that nothing was done to can have any name. -/
theorem Sheet.edited_update [DecidableEq L] (name : L → String) {edits : List (Edit L)} {l : L}
    (h : ∀ a, .bind l a ∉ edits) (text : String) :
    edited (Function.update name l text) edits =
      { edited name edits with
        label := Function.update (edited name edits).label l ⟨text, none⟩ } := by
  have htape := tape_edited (Function.update name l text) name edits
  have hlabel := (records_edited (Function.update name l text) edits).label
  have hlabel' := (records_edited name edits).label
  have hnone := Edit.address_eq_none_iff.mpr h
  cases hs : edited (Function.update name l text) edits with
  | mk tape label =>
    rw [hs] at htape hlabel
    simp only [Sheet.mk.injEq]
    refine ⟨htape, hlabel.trans (funext fun l' => ?_)⟩
    rw [hlabel']
    by_cases hl : l' = l
    · subst hl
      simp [hnone]
    · simp [Function.update_of_ne hl]

namespace Draft

/-- What can be done to a draft. -/
inductive Action where
  | add (name : String)
  | bind (name : String) (address : Int)
  | emit (recipe : Opcode.Recipe) (a b destination : Entry) (comment : String)
  | resolve

/-- The draft after an action, be it carried out or refused. -/
def after (d : Draft) : Action → Draft
  | .add name => d.add name
  | .bind name address =>
    match d.bind name address with
    | .ok d' => d'
    | .error _ => d
  | .emit recipe a b destination comment =>
    match d.emit recipe a b destination comment with
    | .ok d' => d'
    | .error _ => d
  | .resolve =>
    match d.resolve with
    | .ok _ d' => d'
    | .error _ d' => d'

/-- The draft after actions on an empty one. -/
def written (actions : List Action) : Draft := actions.foldl after {}

/-- The tape and the labels of a draft. -/
def sheet (d : Draft) : Sheet Nat := ⟨d.tape, d.label⟩

/-- The draft is the sheet after the edits, and refers to labels that it has made. -/
structure Drawn (name : Nat → String) (edits : List (Edit Nat)) (d : Draft) : Prop where
  sheet : d.sheet = Sheet.edited name edits
  names : ∀ text number, d.names.lookup text = some number → number < d.labels.length
  bound : ∀ number a, .bind number a ∈ edits → number < d.labels.length

variable {name : Nat → String} {edits : List (Edit Nat)} {d : Draft}

theorem Drawn.add (h : Drawn name edits d) (text : String) :
    Drawn (Function.update name d.labels.length text) edits (d.add text) := by
  have hfresh : ∀ a, .bind d.labels.length a ∉ edits := fun a ha =>
    absurd (h.bound _ a ha) (Nat.lt_irrefl _)
  refine ⟨?_, fun other number hlookup => ?_, fun number a ha => ?_⟩
  · rw [Sheet.edited_update name hfresh, ← h.sheet, Draft.sheet, Draft.sheet, Sheet.mk.injEq]
    refine ⟨rfl, funext fun number => ?_⟩
    by_cases hn : number = d.labels.length
    · subst hn
      simp [Draft.add, Draft.label]
    · rw [Function.update_of_ne hn]
      simp only [Draft.add, Draft.label, List.getD_eq_getElem?_getD]
      rcases Nat.lt_or_gt_of_ne hn with hlt | hgt
      · rw [List.getElem?_append_left hlt]
      · rw [List.getElem?_eq_none (by simp; omega), List.getElem?_eq_none (by omega)]
  · simp only [Draft.add, List.lookup_cons] at hlookup
    simp only [Draft.add, List.length_append, List.length_singleton]
    split at hlookup
    · cases hlookup
      omega
    · have := h.names _ _ hlookup
      omega
  · have := h.bound number a ha
    simp only [Draft.add, List.length_append, List.length_singleton]
    omega

theorem Drawn.concat (h : Drawn name edits d) {d' : Draft} {e : Edit Nat}
    (hsheet : d'.sheet = d.sheet.after e) (hnames : d'.names = d.names)
    (hlength : d'.labels.length = d.labels.length)
    (hbound : ∀ number a, e = .bind number a → number < d.labels.length) :
    Drawn name (edits ++ [e]) d' := by
  refine ⟨by rw [hsheet, h.sheet, Sheet.edited_concat], ?_, fun number a ha => ?_⟩
  · rw [hnames, hlength]
    exact h.names
  · rw [hlength]
    rcases List.mem_append.mp ha with ha | ha
    · exact h.bound number a ha
    · exact hbound number a (List.mem_singleton.mp ha).symm

/-- Whatever an action does to a draft is an edit of its sheet, or nothing. -/
theorem Drawn.after (h : Drawn name edits d) (action : Action) :
    ∃ name edits, Drawn name edits (d.after action) := by
  cases action with
  | add text => exact ⟨_, _, h.add text⟩
  | resolve =>
    refine ⟨name, _, h.concat (e := .resolve) ?_ ?_ ?_ (by simp)⟩
    all_goals
      simp only [Draft.after, Draft.resolve, Sheet.after, Sheet.resolve, Draft.sheet]
      cases Tape.resolve d.label d.tape <;> rfl
  | emit recipe a b destination comment =>
    simp only [Draft.after]
    cases hemit : d.emit recipe a b destination comment with
    | error m => exact ⟨name, edits, h⟩
    | ok d' =>
      obtain ⟨i, rfl⟩ : ∃ i, d' = { d with tape := d.tape.emit i } := by
        simp only [Draft.emit] at hemit
        obtain ⟨opcode, -, hemit⟩ := bind_eq_ok_iff.mp hemit
        obtain ⟨a, -, hemit⟩ := bind_eq_ok_iff.mp hemit
        obtain ⟨b, -, hemit⟩ := bind_eq_ok_iff.mp hemit
        obtain ⟨destination, -, hemit⟩ := bind_eq_ok_iff.mp hemit
        cases hemit
        exact ⟨_, rfl⟩
      exact ⟨name, _, h.concat (e := .emit i) rfl rfl rfl (by simp)⟩
  | bind text address =>
    simp only [Draft.after]
    cases hbind : d.bind text address with
    | error m => exact ⟨name, edits, h⟩
    | ok d' =>
      simp only [Draft.bind] at hbind
      obtain ⟨number, hfind, hbind⟩ := bind_eq_ok_iff.mp hbind
      obtain ⟨label, hlabel, hbind⟩ := bind_eq_ok_iff.mp hbind
      cases hbind
      have hnumber : number < d.labels.length := by
        refine h.names text number ?_
        unfold find at hfind
        split at hfind
        · next n hn =>
          cases hfind
          exact hn
        · cases hfind
      refine ⟨name, _, h.concat (e := .bind number address) ?_ rfl (List.length_set ..) ?_⟩
      · have hafter : d.sheet.after (.bind number address) =
            { d.sheet with label := Function.update d.label number label } := by
          simp only [Sheet.after, Sheet.bind, Draft.sheet, hlabel]
          rfl
        rw [hafter, Draft.sheet, Draft.sheet, Sheet.mk.injEq]
        refine ⟨rfl, funext fun n => ?_⟩
        by_cases hn : n = number
        · subst hn
          simp [Draft.label, hnumber]
        · simp [Draft.label, Function.update_of_ne hn, Ne.symm hn]
      · intro n a he
        cases he
        exact hnumber

/-- **A draft is an edited sheet**, whatever was done to it. -/
theorem exists_edits (actions : List Action) :
    ∃ name edits, (written actions).sheet = Sheet.edited name edits := by
  have hdrawn : ∃ name edits, Drawn name edits (written actions) := by
    induction actions using List.reverseRecOn with
    | nil => exact ⟨fun _ => "", [], rfl, by simp [written], by simp⟩
    | append_singleton actions action ih =>
      obtain ⟨name, edits, h⟩ := ih
      rw [written, List.foldl_concat]
      exact h.after action
  obtain ⟨name, edits, h⟩ := hdrawn
  exact ⟨name, edits, h.sheet⟩

end Draft

end TapeMachine
