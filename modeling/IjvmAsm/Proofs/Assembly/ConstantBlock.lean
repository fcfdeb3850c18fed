import IjvmAsm.Proofs.Assembly.Standing
import IjvmAsm.Proofs.Assembly.WellFormed
import IjvmAsm.Proofs.Source.Numeral

/-!
# The block of constants

What a block of constants comes to, line by line: a line declares a constant if it has a name and a
literal, the name is an identifier that no line before it has got, and the literal is one of 32
bits. Any other line is refused for the first of these that fails. It leaves the constants as they
are, so a later line may still get the name.

There are no constants before the block that is accepted, and none come behind it.
-/

namespace IjvmAsm.Assembly

/-- The line is one that declares the constant where its name is free. `more` stands behind. -/
inductive Declares (line : Source.Line) : Constant → List String → Prop
  | intro {name literal : String} {more : List String} {value : Int32}
      (tokens : Source.tokensOf line.text = name :: literal :: more)
      (named : Source.isIdentifier name = true) (means : Literal.Means literal value.toInt) :
      Declares line ⟨name, value, line.number, .declared⟩ more

def Free (pool : List Constant) (name : String) : Prop := ∀ c ∈ pool, c.name ≠ name

/-- A name and a literal that make no constant, and the first of the checks that they fail. -/
inductive Unfit (pool : List Constant) (name literal : String) : Problem → Prop
  | name (unnamed : Source.isIdentifier name = false) :
      Unfit pool name literal (.constantName name)
  | taken {c : Constant} (named : Source.isIdentifier name = true)
      (first : pool.find? (fun c => c.name == name) = some c) :
      Unfit pool name literal (.constantTaken name c.line)
  | value {cause : LiteralError} (named : Source.isIdentifier name = true) (free : Free pool name)
      (read : Progress.constantValue literal = .error cause) :
      Unfit pool name literal (.constantValue cause)

inductive Misdeclares (pool : List Constant) (line : Source.Line) : Problem → Prop
  | short (tokens : (Source.tokensOf line.text).length < 2) : Misdeclares pool line .missingValue
  | unfit {name literal : String} {more : List String} {problem : Problem}
      (tokens : Source.tokensOf line.text = name :: literal :: more)
      (unfit : Unfit pool name literal problem) : Misdeclares pool line problem

def trailing (name : String) (more : List String) : List Problem :=
  if more.isEmpty then [] else [.trailingTokens name]

/-- Lines take the constants from the first list to the second, and this is what is reported. -/
inductive Tabled (file : String) :
    List Constant → List Source.Line → List Constant → List Diagnostic → Prop
  | nil (pool : List Constant) : Tabled file pool [] pool []
  | blank {pool pool' : List Constant} {line : Source.Line} {rest : List Source.Line}
      {reports : List Diagnostic} (blank : line.text.isEmpty = true)
      (more : Tabled file pool rest pool' reports) : Tabled file pool (line :: rest) pool' reports
  | declared {pool pool' : List Constant} {line : Source.Line} {rest : List Source.Line}
      {c : Constant} {behind : List String} {reports : List Diagnostic}
      (declares : Declares line c behind) (free : Free pool c.name)
      (more : Tabled file (pool ++ [c]) rest pool' reports) :
      Tabled file pool (line :: rest) pool'
        ((trailing c.name behind).map (fun p => p.diagnostic file line.number) ++ reports)
  | refused {pool pool' : List Constant} {line : Source.Line} {rest : List Source.Line}
      {problem : Problem} {reports : List Diagnostic} (solid : line.text.isEmpty = false)
      (misdeclares : Misdeclares pool line problem) (more : Tabled file pool rest pool' reports) :
      Tabled file pool (line :: rest) pool' (problem.diagnostic file line.number :: reports)

/-! ### The checks of a line -/

section

variable {pool : List Constant} {name literal : String} {line : Source.Line} {problem : Problem}

theorem free_iff : Free pool name ↔ pool.find? (fun c => c.name == name) = none := by
  simp only [Free, List.find?_eq_none, beq_iff_eq, ne_eq]

theorem constantValue_eq_ok_iff {value : Int32} :
    Progress.constantValue literal = .ok value.toInt ↔ Literal.Means literal value.toInt := by
  rw [Progress.constantValue, Literal.characterOrSigned_eq_ok_iff (by decide) (by decide)]
  exact and_iff_left ⟨value.le_toInt, value.toInt_lt⟩

theorem exists_means {n : Int} (h : Progress.constantValue literal = .ok n) :
    ∃ value : Int32, Literal.Means literal value.toInt := by
  obtain ⟨hmeans, hleast, hgreatest⟩ :=
    (Literal.characterOrSigned_eq_ok_iff (by decide) (by decide)).1 h
  refine ⟨Int32.ofInt n, ?_⟩
  rwa [Int32.toInt_ofInt_of_le hleast hgreatest]

/-- A name and a literal make a constant, or fail a check. -/
theorem fit_or_unfit (pool : List Constant) (name literal : String) :
    (Source.isIdentifier name = true ∧ Free pool name ∧
      ∃ value : Int32, Literal.Means literal value.toInt) ∨
      ∃ problem, Unfit pool name literal problem := by
  cases hname : Source.isIdentifier name with
  | false => exact .inr ⟨_, .name hname⟩
  | true =>
    cases hfirst : pool.find? fun c => c.name == name with
    | some taken => exact .inr ⟨_, .taken hname hfirst⟩
    | none =>
      cases hread : Progress.constantValue literal with
      | error cause => exact .inr ⟨_, .value hname (free_iff.2 hfirst) hread⟩
      | ok n => exact .inl ⟨rfl, free_iff.2 hfirst, exists_means hread⟩

theorem declares_or_misdeclares (pool : List Constant) (line : Source.Line) :
    (∃ c more, Declares line c more ∧ Free pool c.name) ∨
      ∃ problem, Misdeclares pool line problem := by
  match htokens : Source.tokensOf line.text with
  | [] => exact .inr ⟨_, .short (by rw [htokens]; exact Nat.zero_lt_two)⟩
  | [_] => exact .inr ⟨_, .short (by rw [htokens]; exact Nat.one_lt_two)⟩
  | name :: literal :: more =>
    rcases fit_or_unfit pool name literal with ⟨hname, hfree, value, hmeans⟩ | ⟨problem, hunfit⟩
    · exact .inl ⟨_, more, .intro htokens hname hmeans, hfree⟩
    · exact .inr ⟨problem, .unfit htokens hunfit⟩

/-- A line without tokens declares nothing. -/
theorem Declares.solid {c : Constant} {more : List String} (h : Declares line c more) :
    line.text.isEmpty = false := by
  obtain @⟨name, literal, more, value, tokens, -, -⟩ := h
  by_contra hempty
  rw [Bool.not_eq_false, String.isEmpty_iff] at hempty
  rw [hempty] at tokens
  cases tokens

/-- A line that is refused is an error. -/
theorem Misdeclares.severity (h : Misdeclares pool line problem) : problem.severity = .error := by
  cases h with
  | short => rfl
  | unfit _ unfit => cases unfit <;> rfl

theorem exists_tabled (file : String) (pool : List Constant) (lines : List Source.Line) :
    ∃ pool' reports, Tabled file pool lines pool' reports := by
  induction lines generalizing pool with
  | nil => exact ⟨pool, [], .nil pool⟩
  | cons line rest ih =>
    cases hblank : line.text.isEmpty with
    | true =>
      obtain ⟨pool', reports, hmore⟩ := ih pool
      exact ⟨pool', reports, .blank hblank hmore⟩
    | false =>
      rcases declares_or_misdeclares pool line with
        ⟨c, behind, hdeclares, hfree⟩ | ⟨problem, hmisdeclares⟩
      · obtain ⟨pool', reports, hmore⟩ := ih (pool ++ [c])
        exact ⟨pool', _, .declared hdeclares hfree hmore⟩
      · obtain ⟨pool', reports, hmore⟩ := ih pool
        exact ⟨pool', _, .refused hblank hmisdeclares hmore⟩

/-- Every line that says something is a constant or an error. -/
theorem Tabled.countP_isError {file : String} {pool' : List Constant} {lines : List Source.Line}
    {reports : List Diagnostic} (h : Tabled file pool lines pool' reports) :
    reports.countP Diagnostic.isError + pool'.length =
      pool.length + lines.countP fun line => !line.text.isEmpty := by
  induction h with
  | nil pool => exact Nat.add_comm _ _
  | blank blank _ ih =>
    rw [ih, List.countP_cons_of_neg (by simp [blank])]
  | @declared pool pool' line rest c behind reports declares free _ ih =>
    have hwarning : ((trailing c.name behind).map fun p => p.diagnostic file line.number).countP
        Diagnostic.isError = 0 := by
      unfold trailing
      split_ifs <;> rfl
    have hsolid := declares.solid
    rw [List.countP_append, hwarning, Nat.zero_add, ih, List.length_append, List.length_singleton,
      List.countP_cons_of_pos (by simp [hsolid])]
    omega
  | @refused pool pool' line rest problem reports solid misdeclares _ ih =>
    have herror : (problem.diagnostic file line.number).isError = true := by
      rw [Diagnostic.isError, Problem.diagnostic, misdeclares.severity]
      rfl
    rw [List.countP_cons_of_pos herror, List.countP_cons_of_pos (by simp [solid])]
    omega

end

/-! ### What a line of the block does -/

/-- From `a` to `b` the constants have become these and this has been reported. -/
structure Tabling (a b : Progress) (pool : List Constant) (reports : List Diagnostic) : Prop where
  others : b = { a with
    program := { a.program with constants := pool.toArray }
    journal := b.journal }
  reports : b.journal.diagnostics.toList = a.journal.diagnostics.toList ++ reports

namespace Tabling

variable {a b c : Progress} {pool pool' : List Constant} {reports more : List Diagnostic}

theorem refl (a : Progress) : Tabling a a a.program.constants.toList [] :=
  ⟨rfl, (List.append_nil _).symm⟩

theorem trans (h : Tabling a b pool reports) (h' : Tabling b c pool' more) :
    Tabling a c pool' (reports ++ more) := by
  refine ⟨?_, by rw [h'.reports, h.reports, List.append_assoc]⟩
  rw [h'.others, h.others]

theorem block (h : Tabling a b pool reports) : b.block = a.block := by
  rw [h.others]

theorem constants (h : Tabling a b pool reports) : b.program.constants.toList = pool := by
  rw [h.others]

end Tabling

namespace Progress

variable {s : Setup} {a : Progress} {line : Source.Line} {lines : List Source.Line}
  {pool pool' : List Constant} {name literal : String} {n : Nat} {problem : Problem}

theorem findConstant?_eq (p : Program) (name : String) :
    p.findConstant? name = p.constants.toList.find? fun c => c.name == name :=
  Array.find?_toList.symm

theorem readConstant_of_unfit {p : Program} (h : Unfit p.constants.toList name literal problem) :
    readConstant p name literal n = .error problem := by
  unfold readConstant
  cases h with
  | name unnamed => simp only [unnamed, Bool.not_false, ↓reduceIte]
  | taken named first =>
    simp only [named, findConstant?_eq, first, Bool.not_true, Bool.false_eq_true, ↓reduceIte]
  | value named free read =>
    simp only [named, findConstant?_eq, free_iff.1 free, read, Bool.not_true, Bool.false_eq_true,
      ↓reduceIte]

theorem readConstant_of_means {p : Program} {value : Int32}
    (hname : Source.isIdentifier name = true) (hfree : Free p.constants.toList name)
    (hmeans : Literal.Means literal value.toInt) :
    readConstant p name literal n = .ok ⟨name, value, n, .declared⟩ := by
  unfold readConstant
  simp only [hname, findConstant?_eq, free_iff.1 hfree, constantValue_eq_ok_iff.2 hmeans,
    Int32.ofInt_toInt, Bool.not_true, Bool.false_eq_true, ↓reduceIte]

theorem filterMap_problems (s : Setup) (n : Nat) (problems : List Problem) :
    (problems.map (s.problem n)).filterMap Event.diagnostic? =
      problems.map fun problem => problem.diagnostic s.file n := by
  induction problems with
  | nil => rfl
  | cons problem rest ih =>
    rw [List.map_cons, List.map_cons, ← ih]
    rfl

theorem tabling_of_declares {c : Constant} {more : List String} (h : Declares line c more)
    (hfree : Free a.program.constants.toList c.name) :
    Tabling a (a.constantLine s line) (a.program.constants.toList ++ [c])
      ((trailing c.name more).map fun problem => problem.diagnostic s.file line.number) := by
  obtain @⟨name, literal, more, value, tokens, named, means⟩ := h
  unfold constantLine
  simp only [tokens, readConstant_of_means named hfree means]
  refine ⟨?_, ?_⟩
  · have hpush : ∀ c, (a.program.constants.toList ++ [c]).toArray = a.program.constants.push c := by
      intro c
      rw [← Array.toList_push, Array.toArray_toList]
    rw [hpush]
  · have hwarned : (if more.isEmpty then [] else [s.problem line.number (.trailingTokens name)]) =
        (trailing name more).map (s.problem line.number) := by
      unfold trailing
      split_ifs <;> rfl
    rw [hwarned, Journal.toList_diagnostics_appendList, List.filterMap_append, filterMap_problems]
    exact congrArg _ (List.append_nil _)

theorem tabling_of_misdeclares (h : Misdeclares a.program.constants.toList line problem) :
    Tabling a (a.constantLine s line) a.program.constants.toList
      [problem.diagnostic s.file line.number] := by
  have hnoted : Tabling a (a.note [s.problem line.number problem]) a.program.constants.toList
      [problem.diagnostic s.file line.number] :=
    ⟨rfl, Journal.toList_diagnostics_appendList _ _⟩
  unfold constantLine
  cases h with
  | short tokens =>
    match htokens : Source.tokensOf line.text with
    | [] => exact hnoted
    | [_] => exact hnoted
    | _ :: _ :: _ =>
      rw [htokens] at tokens
      exact absurd tokens (Nat.not_lt.2 (Nat.le_add_left 2 _))
  | unfit tokens unfit =>
    simp only [tokens, readConstant_of_unfit unfit]
    exact hnoted

theorem step_constants (hblock : a.block = .constants)
    (hopen : line.text ≠ Closing.constants.text) : a.step s line =
      .ok (if line.text.isEmpty then a else a.constantLine s line) := by
  obtain ⟨program, closed, seen, block, journal⟩ := a
  cases hblock
  exact if_neg hopen

theorem exists_readLines_of_tabled {reports : List Diagnostic}
    (h : Tabled s.file pool lines pool' reports) (hblock : a.block = .constants)
    (hpool : a.program.constants.toList = pool)
    (hopen : ∀ line ∈ lines, line.text ≠ Closing.constants.text) :
    ∃ b, readLines s a lines = .ok b ∧ Tabling a b pool' reports := by
  induction h generalizing a with
  | nil pool =>
    subst hpool
    exact ⟨a, rfl, .refl a⟩
  | @blank pool pool' line rest reports blank _ ih =>
    obtain ⟨hline, hrest⟩ := List.forall_mem_cons.1 hopen
    obtain ⟨b, hread, htabling⟩ := ih hblock hpool hrest
    refine ⟨b, ?_, htabling⟩
    rw [readLines, step_constants hblock hline, if_pos blank]
    exact hread
  | @declared pool pool' line rest c behind reports declares free _ ih =>
    obtain ⟨hline, hrest⟩ := List.forall_mem_cons.1 hopen
    subst hpool
    have hfirst : Tabling a (a.constantLine s line) _ _ := tabling_of_declares declares free
    obtain ⟨b, hread, htabling⟩ := ih (hfirst.block.trans hblock) hfirst.constants hrest
    refine ⟨b, ?_, hfirst.trans htabling⟩
    rw [readLines, step_constants hblock hline, declares.solid]
    exact hread
  | @refused pool pool' line rest problem reports solid misdeclares _ ih =>
    obtain ⟨hline, hrest⟩ := List.forall_mem_cons.1 hopen
    subst hpool
    have hfirst : Tabling a (a.constantLine s line) _ _ := tabling_of_misdeclares misdeclares
    obtain ⟨b, hread, htabling⟩ := ih (hfirst.block.trans hblock) hfirst.constants hrest
    refine ⟨b, ?_, hfirst.trans htabling⟩
    rw [readLines, step_constants hblock hline, solid]
    exact hread

end Progress

/-! ### Before the block and behind it -/

namespace Standing

variable {x : Standing}

/-- A block of constants goes on, or is closed. -/
theorem next_of_constants (h : x.place = .constants) (text : String) :
    x.next text = x ∨ (x.next text).constantsClosed = true ∧ (x.next text).place = .outside := by
  unfold next
  simp only [h]
  split_ifs
  · exact .inr ⟨rfl, rfl⟩
  · exact .inl rfl

/-- Another line does not close one, and opens none if one has been closed. -/
theorem next_of_ne (h : x.place ≠ .constants) (text : String) :
    (x.next text).constantsClosed = x.constantsClosed ∧
      (x.constantsClosed = true → (x.next text).place ≠ .constants) := by
  obtain ⟨closed, seen, place⟩ := x
  cases place with
  | outside =>
    simp only [next, nextOutside]
    split_ifs with hopening hearlier
    · exact ⟨rfl, fun _ => Place.noConfusion⟩
    · rw [Bool.or_eq_true, not_or] at hearlier
      exact ⟨rfl, fun hclosed => absurd hclosed hearlier.1⟩
    all_goals exact ⟨rfl, fun _ => Place.noConfusion⟩
  | constants => exact absurd rfl h
  | body closing started =>
    simp only [next]
    split_ifs <;> exact ⟨rfl, fun _ => Place.noConfusion⟩
  | declarations closing =>
    simp only [next]
    split_ifs <;> exact ⟨rfl, fun _ => Place.noConfusion⟩
  | rejected closing within =>
    simp only [next]
    split_ifs
    · cases within <;> exact ⟨rfl, fun _ => Place.noConfusion⟩
    · exact ⟨rfl, fun _ => Place.noConfusion⟩

end Standing

namespace Progress

variable {s : Setup} {a a' b : Progress} {line : Source.Line} {lines : List Source.Line}

/-- There are no constants before their block, and it is not open when it has been closed. -/
structure Staged (a : Progress) : Prop where
  before : a.constantsClosed = false → a.block.place ≠ .constants → a.program.constants = #[]
  behind : a.constantsClosed = true → a.block.place ≠ .constants

theorem staged_start : Staged {} := ⟨fun _ _ => rfl, nofun⟩

/-- Only a line of the block of constants declares one. -/
theorem constants_of_step (h : a.step s line = .ok a') (hplace : a.block.place ≠ .constants) :
    a'.program.constants = a.program.constants := by
  cases (advance_of_step h).1 with
  | idle program => rw [program]
  | constant within =>
    rw [within] at hplace
    exact absurd rfl hplace
  | main _ _ program => rw [program]
  | method _ _ program => rw [program]
  | statement _ program => rw [program]
  | slots _ program => rw [program]
  | closing _ program => rw [program]

theorem Staged.step (h : Staged a) (hsolid : Text.StartsSolid line.text.toList)
    (hstep : a.step s line = .ok a') : Staged a' := by
  have hnext := standing_step hsolid hstep
  have hclosed : a'.constantsClosed = (a.standing.next line.text).constantsClosed :=
    congrArg Standing.constantsClosed hnext
  have hplace : a'.block.place = (a.standing.next line.text).place :=
    congrArg Standing.place hnext
  by_cases hwithin : a.block.place = .constants
  · rcases Standing.next_of_constants (x := a.standing) hwithin line.text with hsame | ⟨hend, hout⟩
    · rw [hsame] at hclosed hplace
      refine ⟨fun _ hne => absurd (hplace.trans hwithin) hne, fun hbehind => ?_⟩
      exact absurd hwithin (h.behind (hclosed.symm.trans hbehind))
    · rw [hend] at hclosed
      rw [hout] at hplace
      refine ⟨fun hopen => ?_, fun _ => ?_⟩
      · cases hclosed.symm.trans hopen
      · rw [hplace]
        exact nofun
  · obtain ⟨hsame, hbehind⟩ := Standing.next_of_ne (x := a.standing) hwithin line.text
    rw [hsame] at hclosed
    refine ⟨fun hopen _ => ?_, fun hend => ?_⟩
    · rw [constants_of_step hstep hwithin]
      exact h.before (hclosed.symm.trans hopen) hwithin
    · rw [hplace]
      exact hbehind (hclosed.symm.trans hend)

theorem staged_of_readLines (hsolid : ∀ line ∈ lines, Text.StartsSolid line.text.toList)
    (hread : readLines s {} lines = .ok a) : Staged a :=
  readLines_induction staged_start (fun _ hline _ _ h hstep => h.step (hsolid _ hline) hstep) hread

/-- Behind their block the constants stay as they are. -/
theorem constants_of_closed (hclosed : a.constantsClosed = true) (h : Staged a)
    (hsolid : ∀ line ∈ lines, Text.StartsSolid line.text.toList)
    (hread : readLines s a lines = .ok b) : b.program.constants = a.program.constants := by
  have hkept : Staged b ∧ b.constantsClosed = true ∧ b.program.constants = a.program.constants := by
    refine readLines_induction (P := fun b => Staged b ∧ b.constantsClosed = true ∧
      b.program.constants = a.program.constants) ⟨h, hclosed, rfl⟩ ?_ hread
    rintro line hline c c' ⟨hstaged, hend, hsame⟩ hstep
    have hplace := hstaged.behind hend
    have hnext := congrArg Standing.constantsClosed (standing_step (hsolid line hline) hstep)
    refine ⟨hstaged.step (hsolid line hline) hstep, ?_, ?_⟩
    · exact hnext.trans ((Standing.next_of_ne (x := c.standing) hplace line.text).1.trans hend)
    · rw [constants_of_step hstep hplace, hsame]
  exact hkept.2.2

theorem step_constantsOpening (h : a.standing = ⟨false, false, .outside⟩)
    (htext : line.text = constantsOpening) :
    a.step s line = .ok { a.note [lineNote s line] with block := .constants } := by
  obtain ⟨hclosed, hseen, hplace⟩ := block_of_standing h
  have houtside := outside_of_place hplace
  obtain ⟨program, closed, seen, block, journal⟩ := a
  cases hclosed
  cases hseen
  cases houtside
  unfold step outsideLine openConstants lineNote
  rw [htext]
  rfl

theorem step_constantsClosing (hblock : a.block = .constants)
    (htext : line.text = Closing.constants.text) :
    a.step s line = .ok { a with constantsClosed := true, block := .outside } := by
  obtain ⟨program, closed, seen, block, journal⟩ := a
  cases hblock
  exact if_pos htext

/-- A block of constants that is accepted, with the lines that open and close it. -/
theorem exists_readLines_of_block {block : List Source.Line} {opening closing : Source.Line}
    {pool : List Constant} {reports : List Diagnostic} (hempty : a.program.constants = #[])
    (hstanding : a.standing = ⟨false, false, .outside⟩) (hopening : opening.text = constantsOpening)
    (hinside : ∀ line ∈ block, line.text ≠ Closing.constants.text)
    (hclosing : closing.text = Closing.constants.text)
    (h : Tabled s.file [] block pool reports) :
    ∃ b, readLines s a (opening :: (block ++ [closing])) = .ok b ∧
      b.standing = ⟨true, false, .outside⟩ ∧ b.program.constants.toList = pool ∧
      b.journal.diagnostics.toList = a.journal.diagnostics.toList ++ reports := by
  have hopened : (a.note [lineNote s opening]).program.constants = #[] := hempty
  obtain ⟨c, hread, htabling⟩ :=
    exists_readLines_of_tabled (a := { a.note [lineNote s opening] with block := .constants }) h rfl
      (congrArg Array.toList hopened) hinside
  have hblock : c.block = .constants := htabling.block
  refine ⟨{ c with constantsClosed := true, block := .outside }, ?_, ?_, htabling.constants, ?_⟩
  · rw [readLines_cons_eq_ok]
    exact ⟨_, step_constantsOpening hstanding hopening,
      readLines_snoc_eq_ok.2 ⟨c, hread, step_constantsClosing hblock hclosing⟩⟩
  · have hseen : c.mainSeen = a.mainSeen := by rw [htabling.others]; rfl
    rw [(block_of_standing hstanding).2.1] at hseen
    rw [standing, hseen]
    rfl
  · refine htabling.reports.trans ?_
    have hnoted : (a.note [lineNote s opening]).journal.diagnostics = a.journal.diagnostics :=
      Journal.diagnostics_appendList rfl
    rw [← hnoted]

end Progress

open Progress

/-- The first block of constants, if it stands before the entry method: the constants and what is
reported are what its lines come to, one after the other. No constants follow later. -/
theorem tabled_of_lines {s : Setup} {source : Bytes} {a : Progress}
    {before block after : List Source.Line} {opening closing : Source.Line}
    (hlines : (Source.Lines.ofBytes source).lines =
      before ++ opening :: (block ++ closing :: after))
    (hread : readLines s {} before = .ok a) (hstanding : a.standing = ⟨false, false, .outside⟩)
    (hopening : opening.text = constantsOpening)
    (hinside : ∀ line ∈ block, line.text ≠ Closing.constants.text)
    (hclosing : closing.text = Closing.constants.text) :
    ∃ b, readLines s a (opening :: (block ++ [closing])) = .ok b ∧
      b.standing = ⟨true, false, .outside⟩ ∧
      (∀ pool reports, Tabled s.file [] block pool reports ↔ b.program.constants.toList = pool ∧
        b.journal.diagnostics.toList = a.journal.diagnostics.toList ++ reports) ∧
      b.journal.errors + b.program.constants.size =
        a.journal.errors + block.countP (fun line => !line.text.isEmpty) ∧
      (b.program.constants.toList.map Constant.name).Nodup ∧
      (∀ c ∈ b.program.constants, Source.isIdentifier c.name = true) ∧
      ∀ later c, later <+: after → readLines s b later = .ok c →
        c.program.constants = b.program.constants := by
  have hsolid : ∀ line ∈ before ++ opening :: (block ++ closing :: after),
      Text.StartsSolid line.text.toList := by
    rw [← hlines]
    exact fun _ => startsSolid_of_mem_lines
  simp only [List.forall_mem_append, List.forall_mem_cons] at hsolid
  obtain ⟨hbefore, hfirst, hblock, hlast, hafter⟩ := hsolid
  obtain ⟨hclosed, hseen, hplace⟩ := block_of_standing hstanding
  have hempty : a.program.constants = #[] :=
    (staged_of_readLines hbefore hread).before hclosed (by rw [hplace]; exact nofun)
  have hblockRead : ∀ {pool reports}, Tabled s.file [] block pool reports → _ := fun htabled =>
    exists_readLines_of_block hempty hstanding hopening hinside hclosing htabled
  obtain ⟨pool, reports, htabled⟩ := exists_tabled s.file [] block
  obtain ⟨b, hb, hbstanding, rfl, hreports⟩ := hblockRead htabled
  have hwhole : readLines s {} (before ++ opening :: (block ++ [closing])) = .ok b :=
    readLines_append_eq_ok.2 ⟨a, hread, hb⟩
  have hstaged : Staged b := by
    refine staged_of_readLines ?_ hwhole
    simp only [List.forall_mem_append, List.forall_mem_cons]
    exact ⟨hbefore, hfirst, hblock, hlast, nofun⟩
  obtain ⟨hnames, hdistinct⟩ := distinct_of_readLines hwhole
  refine ⟨b, hb, hbstanding, fun pool' reports' => ⟨fun htabled' => ?_, ?_⟩, ?_, hdistinct, hnames,
    fun later c hlater hc => ?_⟩
  · obtain ⟨b', hb', -, hpool', hreports'⟩ := hblockRead htabled'
    cases hb.symm.trans hb'
    exact ⟨hpool', hreports'⟩
  · rintro ⟨rfl, hreports'⟩
    rw [List.append_cancel_left (hreports'.symm.trans hreports)]
    exact htabled
  · have hcount := htabled.countP_isError
    rw [List.length_nil, Nat.zero_add, Array.length_toList] at hcount
    rw [← hcount, ← Nat.add_assoc, Journal.errors, Journal.errors, ← Array.countP_toList, hreports,
      List.countP_append, Array.countP_toList]
  · obtain ⟨hend, -, -⟩ := block_of_standing hbstanding
    exact constants_of_closed hend hstaged (fun line hline => hafter line (hlater.subset hline)) hc

/-- A name is given again, the value of another is no literal, the name is given a character with
something behind it, then there is no name and no value. -/
def mixedBlock : List Source.Line :=
  [⟨2, "A 1"⟩, ⟨3, "A 2"⟩, ⟨4, "B x"⟩, ⟨5, ""⟩, ⟨6, "B ' ' !"⟩, ⟨7, "7 7"⟩, ⟨8, "C"⟩]

def mixed : Bytes := Text.unlines
  [".constant", "A 1", "A 2", "B x", "", "B ' ' !", "7 7", "C", ".end-constant"]

def mixedConstants : List Constant := [⟨"A", 1, 2, .declared⟩, ⟨"B", 32, 6, .declared⟩]

def mixedReports : List Diagnostic :=
  [Problem.diagnostic (.constantTaken "A" 2) "t.jas" 3,
    Problem.diagnostic (.constantValue (.invalid "x")) "t.jas" 4,
    Problem.diagnostic (.trailingTokens "B") "t.jas" 6,
    Problem.diagnostic (.constantName "7") "t.jas" 7,
    Problem.diagnostic .missingValue "t.jas" 8]

theorem tabled_mixed : Tabled "t.jas" [] mixedBlock mixedConstants mixedReports := by
  have hlines : (Source.Lines.ofBytes mixed).lines =
      [] ++ ⟨1, ".constant"⟩ :: (mixedBlock ++ ⟨9, ".end-constant"⟩ :: []) := by decide +kernel
  obtain ⟨b, hread, -, htabled, -⟩ :=
    tabled_of_lines (s := { file := "t.jas" }) (a := {}) hlines rfl rfl rfl (by decide) rfl
  have hcomputed : (readLines { file := "t.jas" } {}
      (⟨1, ".constant"⟩ :: (mixedBlock ++ [⟨9, ".end-constant"⟩]))).toOption.map (fun b =>
        (b.program.constants.toList, b.journal.diagnostics.toList)) =
      some (mixedConstants, mixedReports) := by
    decide +kernel
  rw [hread] at hcomputed
  obtain ⟨hpool, hreports⟩ := Prod.mk.inj (Option.some.inj hcomputed)
  exact (htabled _ _).2 ⟨hpool, hreports⟩

end IjvmAsm.Assembly
