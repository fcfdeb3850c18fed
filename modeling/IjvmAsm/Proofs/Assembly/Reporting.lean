import IjvmAsm.Proofs.Assembly.Standing
import IjvmAsm.Proofs.Assembly.WellFormed
import IjvmAsm.Proofs.Program.LinkReports

/-!
# What a run reports, and in which order

Whatever a line does, what it reports is told for this line of the source. So the reports of a run
come in the order of the lines, and those of linking behind them: that there is no entry method, or
a name that is taken and then the references that are left, in the order of their lines, as
instructions are kept in the order of theirs.
-/

namespace IjvmAsm

/-- What has been delivered, and how often errors and warnings have been counted. -/
structure Reporter where
  errors : Nat := 0
  warnings : Nat := 0
  delivered : List Diagnostic := []

namespace Reporter

def take (r : Reporter) : Event → Reporter
  | .remark .. => r
  | .diagnostic d =>
    match d.severity with
    | .error => { r with errors := r.errors + 1, delivered := r.delivered ++ [d] }
    | .warning => { r with warnings := r.warnings + 1, delivered := r.delivered ++ [d] }

/-- The counts agree with what is delivered. -/
theorem foldl_take (r : Reporter) (events : List Event) : events.foldl take r =
    { errors := r.errors + (events.filterMap Event.diagnostic?).countP Diagnostic.isError
      warnings := r.warnings + (events.filterMap Event.diagnostic?).countP fun d => !d.isError
      delivered := r.delivered ++ events.filterMap Event.diagnostic? } := by
  induction events generalizing r with
  | nil => simp
  | cons e rest ih =>
    rw [List.foldl_cons, ih]
    cases e with
    | remark level text => rfl
    | diagnostic d =>
      obtain ⟨file, line, severity, message⟩ := d
      cases severity with
      | error =>
        simp [take, Event.diagnostic?, Diagnostic.isError]
        omega
      | warning =>
        simp [take, Event.diagnostic?, Diagnostic.isError]
        omega

end Reporter

namespace Assembly

/-- Whatever is reported among the events is a problem on the line. -/
def Tells (s : Setup) (n : Nat) (events : List Event) : Prop :=
  ∀ d ∈ events.filterMap Event.diagnostic?, ∃ problem : Problem, d = problem.diagnostic s.file n

section

variable {s : Setup} {n : Nat} {xs ys : List Event}

@[simp] theorem tells_nil : Tells s n [] := nofun

@[simp] theorem tells_append : Tells s n (xs ++ ys) ↔ Tells s n xs ∧ Tells s n ys := by
  rw [Tells, List.filterMap_append, List.forall_mem_append]
  rfl

@[simp] theorem tells_remark {level : Level} {text : String} :
    Tells s n (.remark level text :: xs) ↔ Tells s n xs := Iff.rfl

@[simp] theorem tells_problem {problem : Problem} :
    Tells s n (s.problem n problem :: xs) ↔ Tells s n xs := by
  have hcons : (s.problem n problem :: xs).filterMap Event.diagnostic? =
      problem.diagnostic s.file n :: xs.filterMap Event.diagnostic? := rfl
  rw [Tells, hcons, List.forall_mem_cons]
  exact and_iff_right ⟨problem, rfl⟩

theorem tells_problems (s : Setup) (n : Nat) (problems : List Problem) :
    Tells s n (problems.map (s.problem n)) := by
  induction problems with
  | nil => exact tells_nil
  | cons problem rest ih => exact tells_problem.2 ih

end

/-! ### Lines report problems on themselves -/

section

variable {s : Setup} {p : Program} {m : Method} {n : Nat}

theorem tells_instruction (text : String) : Tells s n (instruction s p m text n).2 := by
  unfold instruction
  cases Source.tokensOf text with
  | nil => exact tells_nil
  | cons name tokens =>
    dsimp only
    cases readInstruction s p m text name tokens with
    | error problem => simp
    | ok r =>
      dsimp only
      unfold Reading.perform
      cases r.widener <;> simp

theorem tells_print (argument : String) : Tells s n (print s m argument n).2 := by
  unfold print
  split_ifs
  · simp
  · cases Source.Quoted.decode argument with
    | error cause => simp
    | ok bytes =>
      dsimp only
      split
      · split_ifs <;> simp
      · simp

theorem tells_action (text : String) : Tells s n (action s p m text n).2 := by
  unfold action
  split_ifs
  · exact tells_nil
  · unfold directive
    dsimp only
    split_ifs
    · exact tells_print _
    · simp
  · exact tells_instruction text

theorem tells_defineLabel (name : String) : Tells s n (defineLabel s m name n).2 := by
  unfold defineLabel
  split_ifs
  · simp
  · cases m.addLabel name n <;> simp

theorem tells_statement (text : String) : Tells s n (statement s p m text n).2 := by
  unfold statement
  cases splitLabel text with
  | none => exact tells_action text
  | some parts => exact tells_append.2 ⟨tells_defineLabel parts.1, tells_action parts.2⟩

theorem tells_declare (name : String) : Tells s n (Progress.declare s n m name).2 := by
  unfold Progress.declare
  split_ifs
  · simp
  · dsimp only
    cases m.findVariable? name <;> simp

theorem tells_declareAll (names : List String) :
    Tells s n (Progress.declareAll s n m names).2 := by
  induction names generalizing m with
  | nil => exact tells_nil
  | cons name rest ih => exact tells_append.2 ⟨tells_declare name, ih⟩

end

namespace Progress

variable {s : Setup} {n : Nat} {a a' b : Progress} {line : Source.Line}

def Reports (s : Setup) (n : Nat) (a b : Progress) : Prop :=
  ∃ events : List Event, b.journal = a.journal ++ events ∧ Tells s n events

theorem Reports.of_eq (h : b.journal = a.journal) : Reports s n a b :=
  ⟨[], h.trans Array.appendList_nil.symm, tells_nil⟩

theorem Reports.trans (h : Reports s n a b) (h' : Reports s n b a') : Reports s n a a' := by
  obtain ⟨events, hevents, htells⟩ := h
  obtain ⟨more, hmore, htells'⟩ := h'
  refine ⟨events ++ more, ?_, tells_append.2 ⟨htells, htells'⟩⟩
  rw [hmore, hevents, ← Array.toList_inj]
  simp only [Array.toList_appendList, List.append_assoc]

theorem reports_openConstants : Reports s n a (a.openConstants s n) := by
  unfold openConstants
  split_ifs
  · exact ⟨_, rfl, by simp⟩
  · exact ⟨_, rfl, by simp⟩
  · exact .of_eq rfl

theorem reports_openMain : Reports s n a (a.openMain s n) := by
  unfold openMain
  split_ifs
  · exact ⟨_, rfl, by simp⟩
  · refine ⟨[entering (.entry n)], ?_, tells_nil⟩
    rw [← Array.toList_inj, Array.toList_appendList, Array.toList_push]

theorem reports_openMethod {declaration : String} (h : a.openMethod s n declaration = .ok b) :
    Reports s n a b := by
  unfold openMethod at h
  split_ifs at h
  · cases h
    exact ⟨_, rfl, by simp⟩
  · cases hparse : Source.MethodHeader.parse declaration with
    | error cause =>
      rw [hparse] at h
      cases h
    | ok header =>
      rw [hparse] at h
      cases h
      exact ⟨_, rfl, tells_append.2 ⟨tells_problems s n _, tells_nil⟩⟩

theorem reports_outsideLine (h : a.outsideLine s line = .ok b) : Reports s line.number a b := by
  unfold outsideLine at h
  dsimp only at h
  have hnoted : Reports s line.number a (a.note [lineNote s line]) := ⟨_, rfl, tells_nil⟩
  refine hnoted.trans ?_
  split_ifs at h
  · cases h
    exact .of_eq rfl
  · cases h
    exact reports_openConstants
  · cases h
    exact reports_openMain
  · split at h
    · exact reports_openMethod h
    · cases h
      exact ⟨_, rfl, by simp⟩

theorem reports_constantLine : Reports s line.number a (a.constantLine s line) := by
  unfold constantLine
  split
  next name literal more _ =>
    cases readConstant a.program name literal line.number with
    | error problem => exact ⟨_, rfl, by simp⟩
    | ok c =>
      refine ⟨_, rfl, tells_append.2 ⟨?_, by simp⟩⟩
      split_ifs <;> simp
  next => exact ⟨_, rfl, by simp⟩

theorem reports_bodyLine {m : Method} {started : Bool} :
    Reports s line.number a (a.bodyLine s m started line) := by
  unfold bodyLine
  split_ifs
  · refine ⟨_, rfl, tells_append.2 ⟨?_, by simp⟩⟩
    split_ifs <;> simp
  · exact .of_eq rfl
  · exact ⟨_, rfl, by simp⟩
  · exact .of_eq rfl
  · exact ⟨_, rfl, tells_statement line.text⟩

theorem reports_declarationsLine {m : Method} :
    Reports s line.number a (a.declarationsLine s m line) := by
  unfold declarationsLine
  split_ifs
  · exact .of_eq rfl
  · exact ⟨_, rfl, tells_declareAll _⟩

theorem reports_rejectedLine {closing : Closing} {within : Option Method} :
    Reports s line.number a (a.rejectedLine s closing within line) := by
  unfold rejectedLine
  dsimp only
  split_ifs <;> exact ⟨_, rfl, by simp⟩

/-- A step reports problems on its own line. -/
theorem reports_step (h : a.step s line = .ok b) : Reports s line.number a b := by
  have hstart : ∀ block, Reports s line.number a { a with block } := fun _ => .of_eq rfl
  unfold step at h
  dsimp only at h
  cases hblock : a.block with
  | outside =>
    rw [hblock] at h
    exact (hstart .outside).trans (reports_outsideLine h)
  | constants =>
    simp only [hblock] at h
    split_ifs at h
    · cases h
      exact .of_eq rfl
    · cases h
      exact .of_eq rfl
    · cases h
      exact (hstart .constants).trans reports_constantLine
  | body m started =>
    rw [hblock] at h
    cases h
    exact (hstart .outside).trans reports_bodyLine
  | declarations m =>
    rw [hblock] at h
    cases h
    exact (hstart .outside).trans reports_declarationsLine
  | rejected closing within =>
    rw [hblock] at h
    cases h
    exact (hstart .outside).trans reports_rejectedLine

end Progress

/-- Lines that have been read, and what was reported on the way: each line reports problems on
itself. -/
inductive Told (s : Setup) : Progress → List Source.Line → List Diagnostic → Progress → Prop
  | nil (a : Progress) : Told s a [] [] a
  | cons {a b c : Progress} {line : Source.Line} {rest : List Source.Line}
      {here more : List Diagnostic} (step : a.step s line = .ok b)
      (reported : b.journal.diagnostics.toList = a.journal.diagnostics.toList ++ here)
      (told : ∀ d ∈ here, ∃ problem : Problem, d = problem.diagnostic s.file line.number)
      (next : Told s b rest more c) : Told s a (line :: rest) (here ++ more) c

section

variable {s : Setup} {a b : Progress} {line : Source.Line} {lines : List Source.Line}
  {ds : List Diagnostic} {m m' : Method}

theorem exists_told (h : readLines s a lines = .ok b) : ∃ ds, Told s a lines ds b := by
  induction lines generalizing a with
  | nil =>
    cases h
    exact ⟨[], .nil _⟩
  | cons line rest ih =>
    obtain ⟨c, hstep, hread⟩ := Progress.readLines_cons_eq_ok.1 h
    obtain ⟨events, hevents, htells⟩ := Progress.reports_step hstep
    obtain ⟨more, hmore⟩ := ih hread
    refine ⟨_, .cons hstep ?_ htells hmore⟩
    rw [hevents, Journal.toList_diagnostics_appendList]

theorem Told.reports (h : Told s a lines ds b) :
    b.journal.diagnostics.toList = a.journal.diagnostics.toList ++ ds := by
  induction h with
  | nil a => exact (List.append_nil _).symm
  | cons step reported told next ih => rw [ih, reported, List.append_assoc]

theorem Told.exists_line (h : Told s a lines ds b) : ∀ d ∈ ds, ∃ line ∈ lines,
    ∃ problem : Problem, d = problem.diagnostic s.file line.number := by
  induction h with
  | nil a => exact nofun
  | cons step reported told next ih =>
    rw [List.forall_mem_append]
    refine ⟨fun d hd => ⟨_, List.mem_cons_self, told d hd⟩, fun d hd => ?_⟩
    obtain ⟨line, hline, hproblem⟩ := ih d hd
    exact ⟨line, List.mem_cons_of_mem _ hline, hproblem⟩

/-- What is reported comes in the order of the lines. -/
theorem Told.pairwise (h : Told s a lines ds b)
    (hnumbers : lines.Pairwise (·.number < ·.number)) :
    ds.Pairwise (·.line ≤ ·.line) := by
  induction h with
  | nil a => exact .nil
  | cons step reported told next ih =>
    obtain ⟨hfirst, hrest⟩ := List.pairwise_cons.1 hnumbers
    refine List.pairwise_append.2 ⟨?_, ih hrest, fun d hd d' hd' => ?_⟩
    · refine List.pairwise_of_forall_mem_list fun d hd d' hd' => ?_
      obtain ⟨problem, rfl⟩ := told d hd
      obtain ⟨problem', rfl⟩ := told d' hd'
      exact Nat.le_refl _
    · obtain ⟨problem, rfl⟩ := told d hd
      obtain ⟨line', hline', problem', rfl⟩ := next.exists_line d' hd'
      exact Nat.le_of_lt (hfirst line' hline')

theorem number_le_of_mem_numbered {last : Nat} {texts : List String}
    (h : line ∈ Source.numbered last texts) : line.number ≤ last + texts.length := by
  induction texts generalizing last with
  | nil => cases h
  | cons text rest ih =>
    rw [List.length_cons]
    rcases List.mem_cons.1 h with rfl | h
    · exact Nat.add_le_add_left (Nat.le_add_left 1 _) last
    · have hle := ih h
      omega

theorem bounds_of_mem_lines {source : Bytes} (h : line ∈ (Source.Lines.ofBytes source).lines) :
    1 ≤ line.number ∧ line.number ≤ (Source.Lines.ofBytes source).lines.length := by
  refine ⟨(pairwise_numbered 0 _).1 line h, ?_⟩
  have hle := number_le_of_mem_numbered h
  rwa [Nat.zero_add, ← Source.length_numbered 0] at hle

/-! ### Instructions stand in the order of their lines -/

theorem instructionLines_pushAll {is : List Instruction} :
    (m.pushAll is).instructionLines = m.instructionLines ++ is.map Instruction.line := by
  induction is generalizing m with
  | nil => exact (List.append_nil _).symm
  | cons i rest ih =>
    have hpush : (m.push i).instructionLines = m.instructionLines ++ [i.line] := by
      rw [Method.instructionLines, Method.push, Array.toList_push, List.map_append]
      rfl
    rw [Method.pushAll_cons, ih, hpush, List.append_assoc, List.map_cons, List.singleton_append]

theorem Meant.line_eq {p : Program} {n : Nat} {is : List Instruction} (h : Meant s p m n is) :
    ∀ i ∈ is, i.line = n := by
  cases h with
  | nothing => exact nofun
  | asked =>
    rw [Reading.instructions, List.forall_mem_append, List.forall_mem_map]
    exact ⟨fun _ _ => rfl, List.forall_mem_singleton.2 rfl⟩
  | printed _ _ bytes =>
    intro i hi
    obtain ⟨b, -, hb⟩ := List.mem_flatMap.1 hi
    rcases List.mem_pair.1 hb with rfl | rfl <;> rfl

theorem instructionLines_defineLabel {n : Nat} {name : String} :
    (defineLabel s m name n).1.instructionLines = m.instructionLines := by
  unfold defineLabel
  split_ifs
  · rfl
  · cases hadd : m.addLabel name n with
    | error taken => rfl
    | ok labelled =>
      unfold Method.addLabel at hadd
      split at hadd
      · cases hadd
      · cases hadd
        rfl

theorem instructionLines_declare {n : Nat} {name : String} :
    (Progress.declare s n m name).1.instructionLines = m.instructionLines := by
  unfold Progress.declare
  split_ifs <;> rfl

theorem instructionLines_declareAll {n : Nat} {names : List String} :
    (Progress.declareAll s n m names).1.instructionLines = m.instructionLines := by
  induction names generalizing m with
  | nil => rfl
  | cons name rest ih => exact ih.trans instructionLines_declare

def Lengthens (n : Nat) (xs ys : List Nat) : Prop := ∃ more, (∀ x ∈ more, x = n) ∧ ys = xs ++ more

theorem Lengthens.refl (n : Nat) (xs : List Nat) : Lengthens n xs xs :=
  ⟨[], nofun, (List.append_nil _).symm⟩

theorem lengthens_action {p : Program} {n : Nat} {text : String}
    (hsolid : Text.StartsSolid text.toList) :
    Lengthens n m.instructionLines (action s p m text n).1.instructionLines := by
  obtain ⟨is, hmeant, heq⟩ := exists_meant_action (s := s) (p := p) (m := m) n hsolid
  refine ⟨is.map Instruction.line, ?_, by rw [heq, instructionLines_pushAll]⟩
  rw [List.forall_mem_map]
  exact hmeant.line_eq

theorem lengthens_statement {p : Program} {n : Nat} {text : String}
    (hsolid : Text.StartsSolid text.toList) :
    Lengthens n m.instructionLines (statement s p m text n).1.instructionLines := by
  unfold statement
  cases hsplit : splitLabel text with
  | none => exact lengthens_action hsolid
  | some parts =>
    obtain ⟨name, rest⟩ := parts
    have haction := lengthens_action (s := s) (m := (defineLabel s m name n).1) (p := p) (n := n)
      (startsSolid_of_splitLabel hsplit)
    rwa [instructionLines_defineLabel] at haction

theorem Turn.lengthens (h : Turn s line a m m') (hsolid : Text.StartsSolid line.text.toList) :
    Lengthens line.number m.instructionLines m'.instructionLines := by
  cases h with
  | statement => exact lengthens_statement hsolid
  | slots =>
    rw [instructionLines_declareAll]
    exact .refl _ _
  | closing =>
    have hplaced := congrArg (List.map Instruction.line)
      (Method.map_placeFrom 0 m.instructions.toList)
    rw [List.map_map, List.map_map] at hplaced
    have hsame : m.sealed.instructionLines = m.instructionLines := hplaced
    rw [hsame]
    exact .refl _ _

theorem Course.lengthens {ms : List Method} (h : Course s line a ms)
    (hsolid : Text.StartsSolid line.text.toList) :
    Lengthens line.number (a.methods.flatMap Method.instructionLines)
      (ms.flatMap Method.instructionLines) := by
  cases h with
  | same => exact .refl _ _
  | opened name parameters isEntry =>
    refine ⟨[], nofun, ?_⟩
    rw [List.flatMap_append, Method.build, foldl_addVariable]
    rfl
  | turned turn =>
    obtain ⟨more, hmore, hlines⟩ := turn.lengthens hsolid
    refine ⟨more, hmore, ?_⟩
    rw [turn.methods_eq, List.flatMap_append, List.flatMap_append, List.flatMap_singleton,
      List.flatMap_singleton, hlines, List.append_assoc]

/-- Instructions stand in the order of the lines that ask for them, in all methods together. -/
theorem instructionLines_of_readLines (hnumbers : lines.Pairwise (·.number < ·.number))
    (hsolid : ∀ line ∈ lines, Text.StartsSolid line.text.toList)
    (hread : readLines s {} lines = .ok a) :
    (∀ n ∈ a.methods.flatMap Method.instructionLines, ∃ line ∈ lines, line.number = n) ∧
      (a.methods.flatMap Method.instructionLines).Pairwise (· ≤ ·) := by
  refine ordered_of_readLines Nat.le_of_lt (fun a => a.methods.flatMap Method.instructionLines) rfl
    ?_ hnumbers hsolid hread
  intro a a' line hline hstep
  obtain ⟨more, hmore, hlines⟩ := (Progress.advance_of_step hstep).1.course.lengthens hline
  refine ⟨more, hlines, hmore, List.pairwise_of_forall_mem_list fun n hn n' hn' => ?_⟩
  rw [hmore n hn, hmore n' hn']

end

/-- Without an entry method there are no methods. -/
theorem Led.empty_of_entry? {p : Program} {seen : Bool} (h : Led seen p.methods.toList)
    (hentry : p.entry? = none) : p.methods = #[] := by
  generalize hmethods : p.methods.toList = ms at h
  cases h with
  | nil => exact Array.toList_eq_nil_iff.1 hmethods
  | cons hfirst _ =>
    exact absurd ⟨_, Program.getElem?_zero_of_toList hmethods, hfirst⟩
      (Program.entry?_eq_none_iff.1 hentry)

/-- What an assembled source reports: first its lines, each of them problems on itself, and then
linking. The counts are those of what is delivered, all of it for the file. -/
structure Outcome.Reported (s : Setup) (lines : List Source.Line) (p : Program) (o : Outcome) :
    Prop where
  counted : o.journal.toList.foldl Reporter.take {} = ⟨o.errors, o.warnings, o.diagnostics.toList⟩
  errors : o.errors = o.diagnostics.toList.countP fun d => d.severity == .error
  warnings : o.warnings = o.diagnostics.toList.countP fun d => d.severity == .warning
  file : ∀ d ∈ o.diagnostics.toList, d.file = s.file
  phases : ∃ a told linked, Told s {} lines told a ∧ o.diagnostics.toList = told ++ linked ∧
    (∀ d ∈ told, 1 ≤ d.line ∧ d.line ≤ lines.length) ∧ told.Pairwise (·.line ≤ ·.line) ∧
    p.LinkReported s.file linked
  succeeded : o.errors = 0 ↔ ∀ d ∈ o.diagnostics.toList, d.severity ≠ .error

theorem Outcome.warnings_eq (o : Outcome) :
    o.warnings = o.diagnostics.toList.countP fun d => d.severity == .warning := by
  rw [warnings, Journal.warnings, ← Array.countP_toList]
  congr 1
  funext d
  obtain ⟨file, line, severity, message⟩ := d
  cases severity <;> rfl

theorem Outcome.errors_eq (o : Outcome) :
    o.errors = o.diagnostics.toList.countP fun d => d.severity == .error := by
  rw [errors, Journal.errors, ← Array.countP_toList]
  rfl

theorem Outcome.foldl_take (o : Outcome) :
    o.journal.toList.foldl Reporter.take {} = ⟨o.errors, o.warnings, o.diagnostics.toList⟩ := by
  rw [Reporter.foldl_take, ← Array.toList_filterMap]
  simp only [Nat.zero_add, List.nil_append, errors, warnings, diagnostics, Journal.errors,
    Journal.warnings, Journal.diagnostics, ← Array.countP_toList]

variable {s : Setup} {source : Bytes} {p : Program}

/-- What is reported is complete and comes in the order of the source, whatever is wrong with it. -/
theorem reported_of_run (hrun : (run s source).result = .ok p) :
    (run s source).Reported s (Source.Lines.ofBytes source).lines p := by
  obtain ⟨a, text, hread, hblock, rfl, hjournal⟩ := exists_journal_of_run hrun
  have hsolid : ∀ line ∈ (Source.Lines.ofBytes source).lines,
      Text.StartsSolid line.text.toList := fun _ => startsSolid_of_mem_lines
  have hnumbers := (pairwise_numbered 0 (Text.Lines.ofBytes source).readable).2
  have hmethods := Progress.methods_of_outside hblock
  obtain ⟨told, htold⟩ := exists_told hread
  have hlinked : (a.program.link s.file).1.LinkReported s.file
      (a.program.link s.file).2.diagnostics.toList := by
    refine Program.linkReported_link s.file ?_ ?_
    · have hled := ((Progress.sound_start s).readLines hsolid hread).led
      rw [hmethods] at hled
      exact hled.empty_of_entry?
    · have hlines := (instructionLines_of_readLines hnumbers hsolid hread).2
      rwa [hmethods] at hlines
  have hwhole : (run s source).diagnostics.toList =
      told ++ (a.program.link s.file).2.diagnostics.toList := by
    rw [Outcome.diagnostics, hjournal, Journal.diagnostics_push_remark,
      Journal.toList_diagnostics_append, htold.reports]
    rfl
  refine ⟨Outcome.foldl_take _, Outcome.errors_eq _, Outcome.warnings_eq _, ?_, ?_, ?_⟩
  · rw [hwhole, List.forall_mem_append]
    constructor
    · intro d hd
      obtain ⟨line, -, problem, rfl⟩ := htold.exists_line d hd
      rfl
    · intro d hd
      obtain ⟨problem, n, -, rfl⟩ := hlinked.exists_problem d hd
      rfl
  · refine ⟨a, told, _, htold, hwhole, fun d hd => ?_, htold.pairwise hnumbers, hlinked⟩
    obtain ⟨line, hline, problem, rfl⟩ := htold.exists_line d hd
    exact bounds_of_mem_lines hline
  · rw [Outcome.errors_eq, List.countP_eq_zero]
    simp only [beq_iff_eq, ne_eq]

/-- A constant whose name is taken, a jump to no label in each of two methods, a method that has
the name of the constant, a call of no method and a line in no block. -/
def troubled : Bytes := Text.unlines
  [".constant", "A 1", "A 2", ".end-constant", ".main", "GOTO gone", "INVOKEVIRTUAL f", "HALT",
    ".end-main", ".method A()", "GOTO lost", ".end-method", "stray"]

def troubledReports : List Diagnostic :=
  [Problem.diagnostic (.constantTaken "A" 2) "t.jas" 3,
    Problem.diagnostic (.strayLine "stray") "t.jas" 13,
    Problem.diagnostic (.methodTaken "A" 2) "t.jas" 10,
    Problem.diagnostic (.undefinedLabel "main" "gone") "t.jas" 6,
    Problem.diagnostic (.undefinedLabel "A" "lost") "t.jas" 11]

theorem reported_troubled : ∃ p, (run { file := "t.jas" } troubled).result = .ok p ∧
    (run { file := "t.jas" } troubled).diagnostics.toList = troubledReports ∧
    (run { file := "t.jas" } troubled).Reported { file := "t.jas" }
      (Source.Lines.ofBytes troubled).lines p := by
  have hdiagnostics : (run { file := "t.jas" } troubled).diagnostics.toList = troubledReports := by
    decide +kernel
  have hok : (run { file := "t.jas" } troubled).result.isOk = true := by decide +kernel
  cases hrun : (run { file := "t.jas" } troubled).result with
  | error halt =>
    rw [hrun] at hok
    cases hok
  | ok p => exact ⟨p, rfl, hdiagnostics, reported_of_run hrun⟩

end Assembly

end IjvmAsm
