import Mathlib.Data.List.Forall2
import TapeMachine.Tape

/-!
# Backpatching is substitution

`Instruction.settle` replaces the labels of an instruction by their addresses, all at once. A tape
may stand somewhere on the way to that: an attempt to resolve it that fails has replaced the labels
up to the one at fault. `Tape.Holds` says that a tape holds given code in this sense.

* `Tape.Holds.resolve_of_bound`: if all labels in the code are bound, the tape resolves to the code
  with its labels replaced, whatever was patched before.
* `Tape.Holds.resolve_of_unbound`: otherwise the first label without an address is at fault, the
  fixups stay, and the tape still holds the code.
* `Tape.Fresh.resolve`: the case of a tape that was only ever emitted to.
-/

namespace TapeMachine

variable {L : Type}

/-- The field with its label replaced by the label's address, if it has one. -/
def Slot.settle (address : L → Option Int) : Slot L → Slot L
  | .label l =>
    match address l with
    | some a => .number a
    | none => .label l
  | slot => slot

theorem Slot.label?_eq_some_iff {slot : Slot L} {l : L} :
    slot.label? = some l ↔ slot = .label l := by
  cases slot <;> simp [Slot.label?]

theorem Slot.settle_of_label?_eq_none (address : L → Option Int) {slot : Slot L}
    (h : slot.label? = none) : slot.settle address = slot := by
  cases slot with
  | label l => cases h
  | number n => rfl
  | register r => rfl

namespace Instruction

/-- The instruction with all its labels replaced by their addresses. -/
def settle (address : L → Option Int) (i : Instruction L) : Instruction L :=
  { i with
    a := i.a.settle address
    b := i.b.settle address
    destination := i.destination.settle address }

/-- The label stands in a field of the instruction. -/
def Uses (i : Instruction L) (l : L) : Prop :=
  i.a = .label l ∨ i.b = .label l ∨ i.destination = .label l

theorem mem_labels_iff {i : Instruction L} {f : Field} {l : L} :
    (f, l) ∈ i.labels ↔ i.get f = .label l := by
  cases f <;> simp [labels, get, Slot.label?_eq_some_iff]

theorem uses_iff {i : Instruction L} {l : L} : i.Uses l ↔ ∃ f, (f, l) ∈ i.labels := by
  simp only [mem_labels_iff]
  constructor
  · rintro (h | h | h)
    · exact ⟨.a, h⟩
    · exact ⟨.b, h⟩
    · exact ⟨.destination, h⟩
  · rintro ⟨f, h⟩
    cases f with
    | a => exact .inl h
    | b => exact .inr (.inl h)
    | destination => exact .inr (.inr h)

/-- Only the addresses of labels that stand in the instruction matter. -/
theorem settle_congr {address address' : L → Option Int} {i : Instruction L}
    (h : ∀ l, i.Uses l → address l = address' l) : i.settle address = i.settle address' := by
  have hs : ∀ slot : Slot L, (∀ l, slot = .label l → address l = address' l) →
      slot.settle address = slot.settle address' := by
    intro slot hslot
    cases slot with
    | label l => simp only [Slot.settle, hslot l rfl]
    | number n => rfl
    | register r => rfl
  unfold settle
  rw [hs i.a fun l hl => h l (.inl hl), hs i.b fun l hl => h l (.inr (.inl hl)),
    hs i.destination fun l hl => h l (.inr (.inr hl))]

theorem get_set_self (i : Instruction L) (f : Field) (slot : Slot L) :
    (i.set f slot).get f = slot := by
  cases f <;> rfl

theorem get_set_of_ne (i : Instruction L) {f g : Field} (h : g ≠ f) (slot : Slot L) :
    (i.set f slot).get g = i.get g := by
  cases f <;> cases g <;> first | rfl | exact absurd rfl h

/-! ### Instructions on the way -/

/-- The second instruction is the first with some of its labels replaced. -/
structure Patched (address : L → Option Int) (i j : Instruction L) : Prop where
  opcode : j.opcode = i.opcode
  comment : j.comment = i.comment
  slots : ∀ f, j.get f = i.get f ∨ j.get f = (i.get f).settle address

namespace Patched

variable {address address' : L → Option Int} {i j : Instruction L}

theorem refl (address : L → Option Int) (i : Instruction L) : Patched address i i :=
  ⟨rfl, rfl, fun _ => .inl rfl⟩

theorem mono (h : Patched address i j) (hmono : ∀ l a, address l = some a → address' l = some a) :
    Patched address' i j := by
  refine ⟨h.opcode, h.comment, fun f => ?_⟩
  rcases h.slots f with hf | hf
  · exact .inl hf
  · cases hslot : i.get f with
    | number n => exact .inl (by rw [hf, hslot]; rfl)
    | register r => exact .inl (by rw [hf, hslot]; rfl)
    | label l =>
      cases ha : address l with
      | none => exact .inl (by rw [hf, hslot]; simp [Slot.settle, ha])
      | some a => exact .inr (by rw [hf, hslot]; simp [Slot.settle, ha, hmono l a ha])

theorem set (h : Patched address i j) {f : Field} {l : L} {a : Int} (hf : i.get f = .label l)
    (ha : address l = some a) : Patched address i (j.set f (.number a)) := by
  refine ⟨?_, ?_, fun g => ?_⟩
  · cases f <;> exact h.opcode
  · cases f <;> exact h.comment
  · by_cases hg : g = f
    · subst hg
      exact .inr (by rw [get_set_self, hf, Slot.settle, ha])
    · rw [get_set_of_ne j hg]
      exact h.slots g

/-- A field without a label is as it was. -/
theorem get_eq (h : Patched address i j) {f : Field} (hf : (i.get f).label? = none) :
    j.get f = i.get f := by
  rcases h.slots f with hj | hj
  · exact hj
  · rw [hj, Slot.settle_of_label?_eq_none address hf]

/-- Writing the addresses into some fields: the labels in these are replaced, and whatever was
replaced before stays so. -/
theorem foldl_set {address : L → Int} (h : Patched (fun l => some (address l)) i j)
    (fields : List Field) :
    ∃ j', (fields.filterMap fun f => (i.get f).label?.map (f, ·)).foldl
        (fun j p => j.set p.1 (.number (address p.2))) j = j' ∧
      Patched (fun l => some (address l)) i j' ∧
      ∀ f, f ∈ fields ∨ j.get f = (i.get f).settle (fun l => some (address l)) →
        j'.get f = (i.get f).settle fun l => some (address l) := by
  induction fields generalizing j with
  | nil => exact ⟨j, rfl, h, fun f hf => hf.resolve_left List.not_mem_nil⟩
  | cons g fields ih =>
    cases hg : (i.get g).label? with
    | none =>
      obtain ⟨j', hfold, hj', hdone⟩ := ih h
      refine ⟨j', ?_, hj', fun f hf => hdone f ?_⟩
      · rw [List.filterMap_cons_none (by rw [hg]; rfl), hfold]
      · by_cases hfg : f = g
        · subst hfg
          exact .inr (by rw [h.get_eq hg, Slot.settle_of_label?_eq_none _ hg])
        · exact hf.imp_left fun hmem => (List.mem_cons.mp hmem).resolve_left hfg
    | some l =>
      have hl := Slot.label?_eq_some_iff.mp hg
      obtain ⟨j', hfold, hj', hdone⟩ := ih (h.set hl rfl)
      refine ⟨j', ?_, hj', fun f hf => hdone f ?_⟩
      · rw [List.filterMap_cons_some (by rw [hg]; rfl), List.foldl_cons, hfold]
      · by_cases hfg : f = g
        · subst hfg
          exact .inr (by rw [get_set_self, hl, Slot.settle])
        · rw [get_set_of_ne j hfg]
          exact hf.imp_left fun hmem => (List.mem_cons.mp hmem).resolve_left hfg

/-- Writing the addresses one field at a time replaces all labels. -/
theorem foldl_set_labels {address : L → Int} (h : Patched (fun l => some (address l)) i j) :
    i.labels.foldl (fun j p => j.set p.1 (.number (address p.2))) j =
      i.settle fun l => some (address l) := by
  obtain ⟨j', hfold, hj', hdone⟩ := h.foldl_set [.a, .b, .destination]
  have ha := hdone .a (.inl (by decide))
  have hb := hdone .b (.inl (by decide))
  have hd := hdone .destination (.inl (by decide))
  rw [labels, hfold]
  have hopcode := hj'.opcode
  have hcomment := hj'.comment
  obtain ⟨opcode, a, b, destination, comment⟩ := j'
  simp only [get] at ha hb hd hopcode hcomment
  rw [ha, hb, hd, hopcode, hcomment, settle]

end Patched

end Instruction

namespace Tape

/-- The fixups of instructions that are emitted from position `n` on. -/
def fixupsFrom : Nat → List (Instruction L) → List (Fixup L)
  | _, [] => []
  | n, i :: is => i.labels.map (fun p => ⟨n, p.1, p.2⟩) ++ fixupsFrom (n + 1) is

/-- A tape to which instructions were emitted and nothing else was done. -/
def Fresh (t : Tape L) : Prop := t = emitAll {} t.instructions

theorem emitAll_append (t : Tape L) (code code' : List (Instruction L)) :
    t.emitAll (code ++ code') = (t.emitAll code).emitAll code' := by
  simp [emitAll]

theorem fresh_empty : ({} : Tape L).Fresh := rfl

theorem Fresh.emitAll {t : Tape L} (h : t.Fresh) (code : List (Instruction L)) :
    (t.emitAll code).Fresh := by
  rw [Fresh, instructions_emitAll, emitAll_append, ← h]

theorem fixups_emitAll (t : Tape L) (code : List (Instruction L)) :
    (t.emitAll code).fixups = t.fixups ++ fixupsFrom t.size code := by
  induction code generalizing t with
  | nil => simp [Tape.emitAll, fixupsFrom]
  | cons i is ih =>
    have h : (t.emitAll (i :: is)).fixups = ((t.emit i).emitAll is).fixups := rfl
    have hsize : (t.emit i).size = t.size + 1 := by simp [size]
    rw [h, ih, hsize, fixupsFrom, ← List.append_assoc]
    rfl

theorem mem_fixupsFrom {n : Nat} {code : List (Instruction L)} {f : Fixup L}
    (h : f ∈ fixupsFrom n code) : ∃ i ∈ code, i.Uses f.label := by
  induction code generalizing n with
  | nil => simp [fixupsFrom] at h
  | cons i is ih =>
    rw [fixupsFrom, List.mem_append, List.mem_map] at h
    rcases h with ⟨p, hp, rfl⟩ | h
    · exact ⟨i, List.mem_cons_self, Instruction.uses_iff.mpr ⟨p.1, hp⟩⟩
    · obtain ⟨j, hj, hu⟩ := ih h
      exact ⟨j, List.mem_cons_of_mem i hj, hu⟩

theorem fixupsFrom_append (n : Nat) (code code' : List (Instruction L)) :
    fixupsFrom n (code ++ code') = fixupsFrom n code ++ fixupsFrom (n + code.length) code' := by
  induction code generalizing n with
  | nil => simp [fixupsFrom]
  | cons i code ih =>
    rw [List.cons_append, fixupsFrom, ih, fixupsFrom, List.append_assoc, List.length_cons,
      Nat.add_assoc, Nat.add_comm 1]

theorem Fresh.fixups_eq {t : Tape L} (h : t.Fresh) : t.fixups = fixupsFrom 0 t.instructions := by
  conv_lhs => rw [h, fixups_emitAll]
  rfl

/-- The labels that stand in the code, in the order of instructions and fields. -/
def targets (code : List (Instruction L)) : List L := code.flatMap fun i => i.labels.map (·.2)

theorem targets_append (code code' : List (Instruction L)) :
    targets (code ++ code') = targets code ++ targets code' := List.flatMap_append

theorem mem_targets_iff {code : List (Instruction L)} {l : L} :
    l ∈ targets code ↔ ∃ i ∈ code, i.Uses l := by
  simp [targets, Instruction.uses_iff]

/-- The first label in the code that has no address. -/
def unbound? (address : L → Option Int) (code : List (Instruction L)) : Option L :=
  (targets code).find? fun l => (address l).isNone

theorem unbound?_eq_none_iff {address : L → Option Int} {code : List (Instruction L)} :
    unbound? address code = none ↔
      ∀ i ∈ code, ∀ l, i.Uses l → (address l).isSome = true := by
  simp only [unbound?, List.find?_eq_none, mem_targets_iff, Bool.not_eq_true,
    Option.isNone_eq_false_iff]
  exact ⟨fun h i hi l hl => h l ⟨i, hi, hl⟩, fun h l ⟨i, hi, hl⟩ => h i hi l hl⟩

theorem unbound?_append (address : L → Option Int) (code code' : List (Instruction L)) :
    unbound? address (code ++ code') = (unbound? address code).or (unbound? address code') := by
  rw [unbound?, targets_append, List.find?_append, unbound?, unbound?]

theorem map_label_fixupsFrom (n : Nat) (code : List (Instruction L)) :
    (fixupsFrom n code).map (·.label) = targets code := by
  induction code generalizing n with
  | nil => rfl
  | cons i code ih =>
    rw [fixupsFrom, List.map_append, ih, List.map_map]
    rfl

/-! ## Patching in order -/

theorem modify_append_cons {α : Type} (pre : List α) (x : α) (post : List α) (f : α → α) :
    (pre ++ x :: post).modify pre.length f = pre ++ f x :: post := by
  simp [List.modify_eq_take_drop]

theorem patch_append (pre : List (Instruction L)) (i : Instruction L) (post : List (Instruction L))
    (field : Field) (l : L) (a : Int) :
    patch (pre ++ i :: post) (⟨pre.length, field, l⟩, a) =
      pre ++ i.set field (.number a) :: post :=
  modify_append_cons pre i post _

/-- Patching the fixups of one instruction. -/
theorem foldl_patch_labels (address : L → Int) (pre : List (Instruction L)) (i : Instruction L)
    (post : List (Instruction L)) (labels : List (Field × L)) :
    (labels.map fun p => ((⟨pre.length, p.1, p.2⟩ : Fixup L), address p.2)).foldl patch
        (pre ++ i :: post) =
      pre ++ labels.foldl (fun j p => j.set p.1 (.number (address p.2))) i :: post := by
  induction labels generalizing i with
  | nil => rfl
  | cons p ps ih =>
    rw [List.map_cons, List.foldl_cons, List.foldl_cons, patch_append]
    exact ih _

/-- Patching all fixups replaces all labels, also where some are replaced already. The instructions
before the current one are carried along, since the fixups count positions from the start of the
tape. -/
theorem foldl_patch_fixupsFrom (address : L → Int) (pre : List (Instruction L))
    {code current : List (Instruction L)}
    (h : List.Forall₂ (Instruction.Patched fun l => some (address l)) code current) :
    ((fixupsFrom pre.length code).map fun f => (f, address f.label)).foldl patch (pre ++ current) =
      pre ++ code.map (Instruction.settle fun l => some (address l)) := by
  induction h generalizing pre with
  | nil => simp [fixupsFrom]
  | @cons i j code current hij _ ih =>
    have hi : (i.labels.map fun p => ((⟨pre.length, p.1, p.2⟩ : Fixup L), address p.2)).foldl patch
        (pre ++ j :: current) = pre ++ i.settle (fun l => some (address l)) :: current := by
      rw [foldl_patch_labels, hij.foldl_set_labels]
    have hpre := ih (pre ++ [i.settle fun l => some (address l)])
    rw [List.length_append, List.length_singleton] at hpre
    rw [fixupsFrom, List.map_append, List.map_map, List.foldl_append]
    simp only [Function.comp_def]
    rw [hi]
    simpa using hpre

theorem patches_eq_map {look : L → Label} {fixups : List (Fixup L)}
    (h : ∀ f ∈ fixups, (look f.label).isBound = true) :
    patches look fixups = fixups.map fun f => (f, ((look f.label).address).getD 0) := by
  induction fixups with
  | nil => rfl
  | cons f fs ih =>
    obtain ⟨a, ha⟩ := Option.isSome_iff_exists.mp (h f List.mem_cons_self)
    rw [patches, ha, List.map_cons, ha, ih fun g hg => h g (List.mem_cons_of_mem f hg)]
    rfl

theorem mem_patches {look : L → Label} {fixups : List (Fixup L)} {p : Fixup L × Int}
    (h : p ∈ patches look fixups) : p.1 ∈ fixups ∧ (look p.1.label).address = some p.2 := by
  induction fixups with
  | nil => simp [patches] at h
  | cons f fs ih =>
    cases ha : (look f.label).address with
    | none => simp [patches, ha] at h
    | some a =>
      rw [patches, ha, List.mem_cons] at h
      rcases h with rfl | h
      · exact ⟨List.mem_cons_self, ha⟩
      · exact (ih h).imp_left (List.mem_cons_of_mem f)

/-- Patching one field of the code, be it patched already or not. -/
theorem forall₂_patch {address : L → Option Int} {code current : List (Instruction L)} {n : Nat}
    (h : List.Forall₂ (Instruction.Patched address) code current) {p : Fixup L × Int}
    (hp : p.1 ∈ fixupsFrom n code) (ha : address p.1.label = some p.2)
    (pre : List (Instruction L)) (hpre : pre.length = n) :
    ∃ current', patch (pre ++ current) p = pre ++ current' ∧
      List.Forall₂ (Instruction.Patched address) code current' := by
  induction h generalizing n pre with
  | nil => simp [fixupsFrom] at hp
  | @cons i j code current hij hrest ih =>
    rw [fixupsFrom, List.mem_append, List.mem_map] at hp
    rcases hp with ⟨q, hq, hf⟩ | hp
    · subst hpre
      obtain ⟨f, a⟩ := p
      subst hf
      exact ⟨_, patch_append pre j current q.1 q.2 a,
        .cons (hij.set (Instruction.mem_labels_iff.mp hq) ha) hrest⟩
    · obtain ⟨current', hpatch, hcurrent'⟩ := ih hp (pre ++ [j]) (by simp [hpre])
      refine ⟨j :: current', ?_, .cons hij hcurrent'⟩
      simpa using hpatch

theorem forall₂_foldl_patch {address : L → Option Int} {code current : List (Instruction L)}
    {n : Nat} (h : List.Forall₂ (Instruction.Patched address) code current)
    {ps : List (Fixup L × Int)}
    (hps : ∀ p ∈ ps, p.1 ∈ fixupsFrom n code ∧ address p.1.label = some p.2)
    (pre : List (Instruction L)) (hpre : pre.length = n) :
    ∃ current', ps.foldl patch (pre ++ current) = pre ++ current' ∧
      List.Forall₂ (Instruction.Patched address) code current' := by
  induction ps generalizing current with
  | nil => exact ⟨current, rfl, h⟩
  | cons p ps ih =>
    obtain ⟨hmem, ha⟩ := hps p List.mem_cons_self
    obtain ⟨current', hpatch, hcurrent'⟩ := forall₂_patch h hmem ha pre hpre
    rw [List.foldl_cons, hpatch]
    exact ih hcurrent' fun q hq => hps q (List.mem_cons_of_mem p hq)

/-! ## Tapes that hold code -/

/-- The tape holds the code. Up to some point all labels are replaced and their fixups are done
with; behind it some labels are replaced and all of them have their fixups. -/
inductive Holds (address : L → Option Int) : List (Instruction L) → Tape L → Prop
  | intro {done rest current : List (Instruction L)}
      (hdone : ∀ i ∈ done, ∀ l, i.Uses l → (address l).isSome = true)
      (hrest : List.Forall₂ (Instruction.Patched address) rest current) :
      Holds address (done ++ rest)
        ⟨done.map (Instruction.settle address) ++ current, fixupsFrom done.length rest⟩

namespace Holds

variable {address : L → Option Int} {code : List (Instruction L)} {t : Tape L}

theorem of_fresh (address : L → Option Int) (h : t.Fresh) : Holds address t.instructions t := by
  have hfixups := h.fixups_eq
  obtain ⟨instructions, fixups⟩ := t
  dsimp only at hfixups
  subst hfixups
  have hnone : ∀ i ∈ ([] : List (Instruction L)), ∀ l, i.Uses l → (address l).isSome = true :=
    fun i hi => absurd hi List.not_mem_nil
  exact .intro hnone (List.forall₂_same.mpr fun i _ => .refl address i)

/-- An instruction is appended with all its fixups. -/
theorem emit (h : Holds address code t) (i : Instruction L) :
    Holds address (code ++ [i]) (t.emit i) := by
  cases h with
  | @intro done rest current hdone hrest =>
    have hi := List.rel_append hrest (.cons (.refl address i) .nil)
    have hsize : done.length + current.length = done.length + rest.length := by
      rw [hrest.length_eq]
    have htape : Tape.emit ⟨done.map (Instruction.settle address) ++ current,
        fixupsFrom done.length rest⟩ i =
        ⟨done.map (Instruction.settle address) ++ (current ++ [i]),
          fixupsFrom done.length (rest ++ [i])⟩ := by
      simp [Tape.emit, size, fixupsFrom_append, fixupsFrom, hsize]
    rw [htape, List.append_assoc]
    exact .intro hdone hi

/-- More labels get their addresses. -/
theorem mono {address' : L → Option Int} (h : Holds address code t)
    (hmono : ∀ l a, address l = some a → address' l = some a) : Holds address' code t := by
  cases h with
  | @intro done rest current hdone hrest =>
    have hsettled : done.map (Instruction.settle address) =
        done.map (Instruction.settle address') := by
      refine List.map_congr_left fun i hi => Instruction.settle_congr fun l hl => ?_
      obtain ⟨a, ha⟩ := Option.isSome_iff_exists.mp (hdone i hi l hl)
      rw [ha, hmono l a ha]
    rw [hsettled]
    refine .intro (fun i hi l hl => ?_) (hrest.imp fun i j hij => hij.mono hmono)
    obtain ⟨a, ha⟩ := Option.isSome_iff_exists.mp (hdone i hi l hl)
    simp [hmono l a ha]

/-- The first fixup that waits is that of the first label in the code without an address: the
labels whose fixups are done with are all bound. -/
theorem label_pending? {look : L → Label} (h : Holds (fun l => (look l).address) code t) :
    (pending? look t.fixups).map (·.label) = unbound? (fun l => (look l).address) code := by
  cases h with
  | @intro done rest current hdone hrest =>
    rw [unbound?_append, unbound?_eq_none_iff.mpr hdone, Option.none_or, unbound?,
      ← map_label_fixupsFrom done.length, List.find?_map]
    simp only [pending?, Label.isBound, Option.not_isSome, Function.comp_def]

/-- **Backpatching is substitution**, whatever was patched before. -/
theorem resolve_of_bound {look : L → Label} (h : Holds (fun l => (look l).address) code t)
    (hbound : unbound? (fun l => (look l).address) code = none) :
    Tape.resolve look t =
      .ok (code.map (Instruction.settle fun l => (look l).address))
        ⟨code.map (Instruction.settle fun l => (look l).address), []⟩ := by
  have hpending : pending? look t.fixups = none := by
    rw [← h.label_pending?, Option.map_eq_none_iff] at hbound
    exact hbound
  have hall : ∀ f ∈ t.fixups, (look f.label).isBound = true := by
    simpa [pending?] using hpending
  have hpatches := patches_eq_map hall
  -- a total function agrees with the addresses on all labels of the code
  have htotal : ∀ l a, (look l).address = some a → some ((look l).address.getD 0) = some a := by
    intro l a ha
    rw [ha]
    rfl
  cases h with
  | @intro done rest current hdone hrest =>
    have hpatch := foldl_patch_fixupsFrom (fun l => (look l).address.getD 0)
      (done.map (Instruction.settle fun l => (look l).address))
      (hrest.imp fun i j hij => hij.mono htotal)
    have hsettle : rest.map (Instruction.settle fun l => some ((look l).address.getD 0)) =
        rest.map (Instruction.settle fun l => (look l).address) := by
      refine List.map_congr_left fun i hi => Instruction.settle_congr fun l hl => ?_
      obtain ⟨a, ha⟩ := Option.isSome_iff_exists.mp
        (unbound?_eq_none_iff.mp hbound i (List.mem_append_right done hi) l hl)
      rw [ha]
      rfl
    rw [List.length_map, hsettle, ← List.map_append] at hpatch
    simp only [Tape.resolve, hpending, hpatches, hpatch]

/-- **A failed attempt loses nothing.** The first label without an address is at fault, the fixups
stay, and the tape holds the same code. -/
theorem resolve_of_unbound {look : L → Label} (h : Holds (fun l => (look l).address) code t) {l : L}
    (hl : unbound? (fun l => (look l).address) code = some l) :
    ∃ t', Tape.resolve look t = .error (.targetUnbound (look l).name) t' ∧ t'.fixups = t.fixups ∧
      Holds (fun l => (look l).address) code t' := by
  rw [← h.label_pending?, Option.map_eq_some_iff] at hl
  obtain ⟨f, hf, rfl⟩ := hl
  refine ⟨⟨(patches look t.fixups).foldl patch t.instructions, t.fixups⟩,
    by simp only [Tape.resolve, hf], rfl, ?_⟩
  cases h with
  | @intro done rest current hdone hrest =>
    obtain ⟨current', hpatched, hcurrent'⟩ := forall₂_foldl_patch hrest
      (fun p hp => mem_patches hp) (done.map (Instruction.settle fun l => (look l).address))
      (List.length_map _)
    simp only [hpatched]
    exact .intro hdone hcurrent'

end Holds

/-- If all labels that stand in the instructions of a fresh tape are bound, the tape resolves to its
instructions with every label replaced by its address. -/
theorem Fresh.resolve {t : Tape L} (ht : t.Fresh) {look : L → Label}
    (h : ∀ i ∈ t.instructions, ∀ l, i.Uses l → (look l).isBound = true) :
    ∃ t', Tape.resolve look t =
      .ok (t.instructions.map (Instruction.settle fun l => (look l).address)) t' :=
  ⟨_, (Holds.of_fresh (fun l => (look l).address) ht).resolve_of_bound
    (unbound?_eq_none_iff.mpr h)⟩

end Tape

end TapeMachine
