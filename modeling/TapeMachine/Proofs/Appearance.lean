import TapeMachine.Proofs.Lockstep

/-!
# What a text looks like

Blank lines, comments, the blanks between words and the case of keywords carry no meaning.
`SourceLine.normal` is what is left of a statement without them. Two texts with the same normal
statements are run side by side. Their states differ in the lines on which the open blocks start,
and in nothing else (`Assembler.Shifted`), because a keyword is only ever looked at in upper case.

* `agree_parse`: statements with the same normal form are read alike.
* `Assembler.Shifted.exec`, `Assembler.Shifted.run`: a statement, and a run, on both sides.
* `compile_of_normal_eq`: both texts have the same listing, or fail at the same statement.
-/

namespace TapeMachine

/-! ## The normal form of a statement -/

/-- The word in upper case. -/
def capital (word : String) : String := String.ofList (Text.upper word.toList)

/-- The words of a statement with its keywords in upper case: the first word, and in a branch also
the first word of the condition. -/
def SourceLine.normal (line : SourceLine) : List String :=
  if capital line.head = "IF" ∨ capital line.head = "WHILE" then
    capital line.head :: line.args.modifyHead capital
  else capital line.head :: line.args

theorem upper_eq_of_capital_eq {word word' : String} (h : capital word' = capital word) :
    Text.upper word'.toList = Text.upper word.toList := by
  have hchars := congrArg String.toList h
  simpa only [capital, String.toList_ofList] using hchars

/-- A keyword is looked at in upper case only. -/
theorem ofWord?_eq_of_capital_eq {word word' : String} (h : capital word' = capital word) :
    Keyword.ofWord? word' = Keyword.ofWord? word := by
  unfold Keyword.ofWord?
  rw [upper_eq_of_capital_eq h]

/-- The keywords of branches. -/
theorem exists_ofWord?_branch_iff {word : String} :
    (∃ kind, Keyword.ofWord? word = some (.branch kind)) ↔
      capital word = "IF" ∨ capital word = "WHILE" := by
  constructor
  · rintro ⟨kind, h⟩
    have hspelling : (Keyword.branch kind).spelling.toList = Text.upper word.toList := by
      simpa using List.find?_some h
    unfold capital
    rw [← hspelling, String.ofList_toList]
    cases kind with
    | conditional => exact .inl rfl
    | loop => exact .inr rfl
  · have hword : ∀ other : String, capital other = other → capital word = other →
        Keyword.ofWord? word = Keyword.ofWord? other :=
      fun other hother h => ofWord?_eq_of_capital_eq (h.trans hother.symm)
    rintro (h | h)
    · exact ⟨.conditional, (hword "IF" (by decide) h).trans (by decide)⟩
    · exact ⟨.loop, (hword "WHILE" (by decide) h).trans (by decide)⟩

/-- Two statements that are the same but for the case of a condition's keyword. -/
inductive Statement.Alike : Statement → Statement → Prop
  | refl (st : Statement) : Alike st st
  | branch (kind : BranchKind) {words words' : List String}
      (h : words'.modifyHead capital = words.modifyHead capital) :
      Alike (.branch kind words) (.branch kind words')

/-- **Statements with the same normal form are read alike.** -/
theorem agree_parse {line line' : SourceLine} (h : line'.normal = line.normal) :
    Agree .reasons Statement.Alike (Statement.parse line.head line.args)
      (Statement.parse line'.head line'.args) := by
  have hhead : capital line'.head = capital line.head := by
    have hfirst := congrArg List.head? h
    unfold SourceLine.normal at hfirst
    split at hfirst <;> split at hfirst <;> simpa using hfirst
  have hword := ofWord?_eq_of_capital_eq hhead
  unfold SourceLine.normal at h
  rw [hhead] at h
  by_cases hbranch : ∃ kind, Keyword.ofWord? line.head = some (.branch kind)
  · have hcapital := exists_ofWord?_branch_iff.mp hbranch
    obtain ⟨kind, hkind⟩ := hbranch
    rw [if_pos hcapital, if_pos hcapital, List.cons.injEq] at h
    rw [parse_of_ofWord?_branch _ hkind, parse_of_ofWord?_branch _ (hword.trans hkind)]
    exact .ok (.branch kind h.2)
  · have hcapital := mt exists_ofWord?_branch_iff.mpr hbranch
    rw [if_neg hcapital, if_neg hcapital, List.cons.injEq] at h
    rw [h.2]
    unfold Statement.parse
    rw [hword]
    cases Keyword.ofWord? line.head with
    | none => exact .fault rfl
    | some keyword => exact (Agree.refl _).mono fun st st' hst => hst ▸ .refl st

theorem agree_parse_condition_of_modifyHead_eq (kind : BranchKind) {words words' : List String}
    (h : words'.modifyHead capital = words.modifyHead capital) :
    Agree .reasons (· = ·) (Condition.parse kind words) (Condition.parse kind words') := by
  cases words with
  | nil =>
    cases words' with
    | nil => exact .refl _
    | cons head' args' => cases h
  | cons head args =>
    cases words' with
    | nil => cases h
    | cons head' args' =>
      rw [List.modifyHead_cons, List.modifyHead_cons, List.cons.injEq] at h
      obtain ⟨hhead, rfl⟩ := h
      simp only [Condition.parse, ofWord?_eq_of_capital_eq hhead]
      cases Keyword.ofWord? head with
      | none => exact .fault rfl
      | some keyword => exact .refl _

/-! ## States -/

variable {R : Nat → Nat → Prop} {s s' : Assembler} {n n' : Nat}

/-- The same block, started on the line that goes with its line. -/
def OpenBlock.Shifted (R : Nat → Nat → Prop) (b b' : OpenBlock) : Prop :=
  b'.construct = b.construct ∧ R b.line b'.line

/-- The second state is the first, with its open blocks on other lines. -/
inductive Assembler.Shifted (R : Nat → Nat → Prop) (s : Assembler) : Assembler → Prop
  | intro {blocks : List OpenBlock} (h : List.Forall₂ (OpenBlock.Shifted R) s.blocks blocks) :
      Shifted R s { s with blocks }

theorem forall₂_tail {α β : Type} {P : α → β → Prop} {xs : List α} {ys : List β}
    (h : List.Forall₂ P xs ys) : List.Forall₂ P xs.tail ys.tail := by
  cases h with
  | nil => exact .nil
  | cons _ h => exact h

namespace Assembler.Shifted

/-- The same blocks are open. -/
theorem constructs_eq (h : s.Shifted R s') : s'.constructs = s.constructs := by
  cases h with
  | intro h =>
    have hmap : ∀ {bs bs' : List OpenBlock}, List.Forall₂ (OpenBlock.Shifted R) bs bs' →
        bs'.map (·.construct) = bs.map (·.construct) := by
      intro bs bs' h
      induction h with
      | nil => rfl
      | cons hb _ ih => rw [List.map_cons, List.map_cons, hb.1, ih]
    exact hmap h

theorem definitions_eq (h : s.Shifted R s') : s'.definitions = s.definitions := by
  cases h
  rfl

theorem branches_eq (h : s.Shifted R s') (kind : BranchKind) :
    s'.branches kind = s.branches kind := by
  cases h
  cases kind <;> rfl

theorem agree_test (h : s.Shifted R s') (kind : BranchKind) {words words' : List String}
    (hwords : words'.modifyHead capital = words.modifyHead capital) :
    Agree .reasons (· = ·) (s.test kind words) (s'.test kind words') := by
  refine (agree_parse_condition_of_modifyHead_eq kind hwords).bind fun c c' hc => ?_
  have hnext : s'.nextBody kind = s.nextBody kind := by
    rw [Assembler.nextBody, Assembler.nextBody, h.branches_eq]
  have hstorage : s'.storage = s.storage := by
    cases h
    rfl
  subst hc
  rw [hnext, hstorage]
  exact .refl _

theorem simple (h : s.Shifted R s') (c : Simple) :
    Alongside .reasons (Assembler.Shifted R) (c.statement.exec n s) (c.statement.exec n' s') := by
  have hassemble : c.assemble s' = c.assemble s := by
    cases h
    cases c <;> rfl
  refine .simple (.of_eq hassemble) trivial fun p p' hp => ?_
  subst hp
  cases h with
  | intro h => exact .intro h

theorem define (h : s.Shifted R s') (hn : R n n') (name : String) :
    (s.define n name).Shifted R (s'.define n' name) := by
  cases h with
  | intro h => exact .intro (.cons ⟨rfl, hn⟩ h)

theorem branch (h : s.Shifted R s') (hn : R n n') (kind : BranchKind)
    (test : List (Instruction Target)) :
    (s.branch n kind test).Shifted R (s'.branch n' kind test) := by
  cases h with
  | intro h => cases kind <;> exact .intro (.cons ⟨rfl, hn⟩ h)

theorem endDefine (h : s.Shifted R s') (d : Definition) :
    (s.endDefine d).Shifted R (s'.endDefine d) := by
  cases h with
  | intro h => exact .intro (forall₂_tail h)

theorem endBranch (h : s.Shifted R s') (kind : BranchKind) (number : Nat) (b : Branch) :
    (s.endBranch kind number b).Shifted R (s'.endBranch kind number b) := by
  cases h with
  | intro h => cases kind <;> exact .intro (forall₂_tail h)

/-- **A statement on both sides**, up to the case of its condition's keyword. -/
theorem exec (h : s.Shifted R s') (hs : Healthy s) (hs' : Healthy s') (hn : R n n')
    {st st' : Statement} (hst : st.Alike st') :
    Alongside .reasons (Assembler.Shifted R) (st.exec n s) (st'.exec n' s') := by
  have hbranch : ∀ kind {words words' : List String},
      words'.modifyHead capital = words.modifyHead capital →
        Alongside .reasons (Assembler.Shifted R) (Statement.execBranch n kind words s)
          (Statement.execBranch n' kind words' s') := by
    intro kind words words' hwords
    refine .branch hs hs' (.mayBranch (by rw [h.branches_eq]) (h.agree_test kind hwords)) trivial ?_
    rintro test _ rfl
    exact h.branch hn kind test
  cases hst with
  | branch kind hwords => exact hbranch kind hwords
  | refl =>
    cases st with
    | assign d src => exact h.simple (.assign d src)
    | combine op x y d => exact h.simple (.combine op x y d)
    | compare c x y d => exact h.simple (.compare c x y d)
    | constant c d => exact h.simple (.constant c d)
    | call name => exact h.simple (.call name)
    | branch kind words => exact hbranch kind rfl
    | define name =>
      have hlatest : s'.definitions.latest = s.definitions.latest.map id := by
        rw [h.definitions_eq]
        cases s.definitions.latest <;> rfl
      have hfind : s'.definitions.find? name = (s.definitions.find? name).map id := by
        rw [h.definitions_eq, Option.map_id_fun, id]
      exact .define hs hs' (.mayDefine hlatest hfind) trivial fun _ _ => h.define hn name
    | endDefine =>
      refine .endDefine hs hs' (.mayClose h.constructs_eq (.of_eq (by rw [h.definitions_eq])))
        trivial ?_
      rintro - d _ rfl
      exact h.endDefine d
    | endBranch kind =>
      exact .endBranch hs hs' (.mayClose h.constructs_eq (.of_eq (by rw [h.branches_eq]))) trivial
        (h.endBranch kind)

theorem process (h : s.Shifted R s') (hs : Healthy s) (hs' : Healthy s') {line line' : SourceLine}
    (hn : R line.number line'.number) (hline : line'.normal = line.normal) :
    Alongside .reasons (Assembler.Shifted R) (Assembler.process line s)
      (Assembler.process line' s') :=
  .process (agree_parse hline) trivial fun _ _ hst _ => h.exec hs hs' hn hst

end Assembler.Shifted

/-! ## Runs -/

/-- The statements before the `i`-th are carried out, and that one fails. -/
def FailsAt (source : String) (lines : List SourceLine) (s : Assembler) (i : Nat) (f : Fault) :
    Prop :=
  ∃ line m e, lines[i]? = some line ∧ Assembler.run source (lines.take i) s = .ok () m ∧
    Assembler.process line m = .error (.ofFault f) e

namespace FailsAt

variable {source : String} {lines : List SourceLine} {line : SourceLine} {m e : Assembler}
  {i : Nat} {f : Fault}

theorem zero (h : Assembler.process line s = .error (.ofFault f) e) :
    FailsAt source (line :: lines) s 0 f :=
  ⟨line, s, e, rfl, rfl, h⟩

theorem succ (hp : Assembler.process line s = .ok () m) (h : FailsAt source lines m i f) :
    FailsAt source (line :: lines) s (i + 1) f := by
  obtain ⟨failing, m', e, hi, hrun, hfails⟩ := h
  refine ⟨failing, m', e, hi, ?_, hfails⟩
  rw [List.take_succ_cons]
  exact run_cons_eq_ok_iff.mpr ⟨m, hp, hrun⟩

/-- The failure names the line of the statement. -/
theorem run (h : FailsAt source lines s i f) :
    ∃ line e, lines[i]? = some line ∧ Assembler.run source lines s =
      .error (.diagnostic ⟨f, some (line.number : Int), some source⟩) e := by
  obtain ⟨line, m, e, hi, hrun, hp⟩ := h
  obtain ⟨hlt, rfl⟩ := List.getElem?_eq_some_iff.mp hi
  refine ⟨lines[i], e, hi, ?_⟩
  have hsplit := run_append source (lines.take i) (lines.drop i) s
  rw [List.take_append_drop, hrun, List.drop_eq_getElem_cons hlt] at hsplit
  rw [hsplit]
  simp only [Assembler.run, Step.bind_apply, Assembler.step, hp]
  rfl

end FailsAt

/-- **Two runs of statements with the same normal forms** are carried out both, or fail at the same
statement, with the same kind of mistake. -/
theorem Assembler.Shifted.run (h : s.Shifted R s') (source : String)
    {lines lines' : List SourceLine}
    (hlines : List.Forall₂ (fun l l' => R l.number l'.number ∧ l'.normal = l.normal) lines lines')
    (hs : Healthy s) (hs' : Healthy s') :
    (∃ e e', Assembler.run source lines s = .ok () e ∧ Assembler.run source lines' s' = .ok () e' ∧
        e.Shifted R e') ∨
      ∃ i f f', f'.kind = f.kind ∧ FailsAt source lines s i f ∧ FailsAt source lines' s' i f' := by
  induction hlines generalizing s s' with
  | nil => exact .inl ⟨s, s', rfl, rfl, h⟩
  | @cons line line' lines lines' hline hlines ih =>
    have hstep := h.process hs hs' hline.1 hline.2
    generalize hp : Assembler.process line s = x at hstep
    generalize hp' : Assembler.process line' s' = x' at hstep
    cases hstep with
    | @ok m m' hm =>
      rcases ih hm (hs.process hp) (hs'.process hp') with hok | ⟨i, f, f', hk, hf, hf'⟩
      · obtain ⟨e, e', hrun, hrun', he⟩ := hok
        exact .inl ⟨e, e', run_cons_eq_ok_iff.mpr ⟨m, hp, hrun⟩,
          run_cons_eq_ok_iff.mpr ⟨m', hp', hrun'⟩, he⟩
      · exact .inr ⟨i + 1, f, f', hk, hf.succ hp, hf'.succ hp'⟩
    | error hreason _ =>
      obtain ⟨f, rfl, -⟩ := exists_fault_of_process hs.coherent hp
      obtain ⟨f', rfl, -⟩ := exists_fault_of_process hs'.coherent hp'
      exact .inr ⟨0, f, f', Tolerance.reasons_alike_iff.mp hreason, .zero hp, .zero hp'⟩
    | excused hreason => exact hreason.elim

/-! ## Texts -/

/-- The lines of the same statement in two texts. -/
def SameStatement (text text' : String) (n n' : Nat) : Prop :=
  ∃ i : Nat, ∃ line line' : SourceLine, (Source.statements text)[i]? = some line ∧
    (Source.statements text')[i]? = some line' ∧ line.number = n ∧ line'.number = n'

/-- The diagnostic is about the `i`-th statement of the text and names its line: either this is the
first statement that fails, or it starts the innermost of the blocks that are open at the end. -/
inductive Blames (text source : String) (options : Options) (i : Nat) (d : Diagnostic) : Prop
  | fails {line : SourceLine} (hi : (Source.statements text)[i]? = some line)
      (hd : d.line = some (line.number : Int))
      (hf : FailsAt source (Source.statements text) options.start i d.fault) :
      Blames text source options i d
  | leftOpen {line : SourceLine} {e : Assembler} {b : OpenBlock} {blocks : List OpenBlock}
      (hi : (Source.statements text)[i]? = some line) (hd : d.line = some (line.number : Int))
      (hrun : Assembler.run source (Source.statements text) options.start = .ok () e)
      (hb : e.blocks = b :: blocks) (hline : b.line = line.number)
      (hf : d.fault = .neverClosed b.construct.opener) : Blames text source options i d

section Fresh

variable {text text' source : String} {options : Options}

theorem forall₂_sameStatement
    (h : (Source.statements text').map SourceLine.normal =
      (Source.statements text).map SourceLine.normal) :
    List.Forall₂ (fun l l' => SameStatement text text' l.number l'.number ∧ l'.normal = l.normal)
      (Source.statements text) (Source.statements text') := by
  have hlength : (Source.statements text).length = (Source.statements text').length := by
    simpa using (congrArg List.length h).symm
  refine List.forall₂_iff_get.mpr ⟨hlength, fun i hi hi' => ?_⟩
  refine ⟨⟨i, _, _, List.getElem?_eq_getElem hi, List.getElem?_eq_getElem hi', rfl, rfl⟩, ?_⟩
  have hnormal := List.getElem_of_eq h (i := i) (by simpa using hi')
  simpa using hnormal

theorem blames_of_failsAt {i : Nat} {f : Fault} (hm : 0 < options.memorySize)
    (h : FailsAt source (Source.statements text) options.start i f) :
    ∃ d, (compile text options source).1 = .error (.diagnostic d) ∧ d.fault = f ∧
      Blames text source options i d := by
  obtain ⟨line, e, hi, hrun⟩ := h.run
  exact ⟨_, compile_of_run_eq_error hm hrun, rfl, .fails hi rfl h⟩

/-- Both texts are carried out to the end, and then leave the same blocks open. -/
theorem compile_of_shifted (hm : 0 < options.memorySize) {e e' : Assembler}
    (hrun : Assembler.run source (Source.statements text) options.start = .ok () e)
    (hrun' : Assembler.run source (Source.statements text') options.start = .ok () e')
    (h : e.Shifted (SameStatement text text') e') :
    (∃ ls, (compile text options source).1 = .ok ls ∧ (compile text' options source).1 = .ok ls) ∨
      ∃ d d' i, (compile text options source).1 = .error (.diagnostic d) ∧
        (compile text' options source).1 = .error (.diagnostic d') ∧
        d'.fault.kind = d.fault.kind ∧ Blames text source options i d ∧
        Blames text' source options i d' := by
  cases h with
  | intro h =>
    generalize hb : e.blocks = blocks at h
    cases h with
    | nil =>
      obtain ⟨ls, hc⟩ := compile_of_blocks_eq_nil hm hrun hb
      refine .inl ⟨ls, hc, ?_⟩
      have he : { e with blocks := [] } = e := by rw [← hb]
      rw [he] at hrun'
      simp only [compile_of_run text source options hm, hrun, hb, shown_finish] at hc
      simp only [compile_of_run text' source options hm, hrun', hb, shown_finish]
      exact hc
    | @cons b b' rest rest' hinner hrest =>
      obtain ⟨hconstruct, i, line, line', hi, hi', hline, hline'⟩ := hinner
      refine .inr ⟨_, _, i, compile_of_blocks_eq_cons hm hrun hb,
        compile_of_blocks_eq_cons hm hrun' rfl, rfl, ?_, ?_⟩
      · exact .leftOpen hi (by rw [hline]) hrun hb hline.symm rfl
      · exact .leftOpen hi' (by rw [hline']) hrun' rfl hline'.symm rfl

end Fresh

/-- **What a text looks like does not matter.** Take two texts with the same statements, up to the
case of keywords, under the same options. Either both have a listing, and it is the same, or both
fail with the same kind of mistake at the same statement, and each names the line of that statement.
Without cells nothing is assembled at all. -/
theorem compile_of_normal_eq {text text' : String}
    (h : (Source.statements text').map SourceLine.normal =
      (Source.statements text).map SourceLine.normal) (options : Options) (source : String) :
    (∃ ls, (compile text options source).1 = .ok ls ∧ (compile text' options source).1 = .ok ls) ∨
      (∃ d d' i, (compile text options source).1 = .error (.diagnostic d) ∧
        (compile text' options source).1 = .error (.diagnostic d') ∧
        d'.fault.kind = d.fault.kind ∧ Blames text source options i d ∧
        Blames text' source options i d') ∨
      options.memorySize ≤ 0 ∧ (compile text options source).1 = .error (.misuse .poolSize) ∧
        (compile text' options source).1 = .error (.misuse .poolSize) := by
  by_cases hm : 0 < options.memorySize
  · have hstart : options.start.Shifted (SameStatement text text') options.start := .intro .nil
    rcases hstart.run source (forall₂_sameStatement h) (.start options) (.start options) with
      ⟨e, e', hrun, hrun', hshifted⟩ | ⟨i, f, f', hk, hf, hf'⟩
    · rcases compile_of_shifted hm hrun hrun' hshifted with hok | hopen
      · exact .inl hok
      · exact .inr (.inl hopen)
    · obtain ⟨d, hd, rfl, hblames⟩ := blames_of_failsAt hm hf
      obtain ⟨d', hd', rfl, hblames'⟩ := blames_of_failsAt hm hf'
      exact .inr (.inl ⟨d, d', i, hd, hd', hk, hblames, hblames'⟩)
  · exact .inr (.inr ⟨by omega, compile_of_memorySize_nonpos hm _ _,
      compile_of_memorySize_nonpos hm _ _⟩)

/-- A definition that ends inside a branch. -/
def crossedText : String := "DEF f\nIF EQ 1 2\nENDDEF"

/-- The same with blank lines, comments and keywords in lower case. -/
def looseText : String := "# f\n  def f\n\n\tiF eq  1 2 # test\n \nenddef"

theorem compile_of_looseText :
    (Source.statements looseText).map SourceLine.normal =
        (Source.statements crossedText).map SourceLine.normal ∧
      ∃ d d' i, (compile crossedText {} "main").1 = .error (.diagnostic d) ∧
        (compile looseText {} "main").1 = .error (.diagnostic d') ∧ d.line = some 3 ∧
        d'.fault.kind = .nesting ∧ Blames crossedText "main" {} i d ∧
        Blames looseText "main" {} i d' := by
  have hnormal : (Source.statements looseText).map SourceLine.normal =
      (Source.statements crossedText).map SourceLine.normal := by
    decide +kernel
  have hcrossed : (compile crossedText {} "main").1 =
      .error (.diagnostic ⟨.crossedBlocks "ENDDEF" "IF" 2, some 3, some "main"⟩) :=
    compile_of_failureOf (by decide) (by decide +kernel)
  refine ⟨hnormal, ?_⟩
  rcases compile_of_normal_eq hnormal {} "main" with ⟨ls, hok, -⟩ |
    ⟨d, d', i, hd, hd', hkind, hblames, hblames'⟩ | ⟨hcells, -⟩
  · rw [hcrossed] at hok
    cases hok
  · rw [hcrossed] at hd
    cases hd
    exact ⟨_, d', i, hcrossed, hd', rfl, hkind, hblames, hblames'⟩
  · exact absurd hcells (by decide)

end TapeMachine
