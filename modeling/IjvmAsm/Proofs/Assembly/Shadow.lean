import IjvmAsm.Assembly.Run
import IjvmAsm.Proofs.Assembly.Change
import IjvmAsm.Proofs.Program.Unlined

/-!
# Runs without line numbers

What a line does to a run depends on its text, on the constants and on the block it stands in, but
not on line numbers and not on methods that have been closed. So two runs that agree in this much
go the same way over lines with the same texts.
-/

namespace IjvmAsm

/-- What the lines of a source can see of a program. -/
def Program.shadow (p : Program) : Program := ⟨p.constants.map Constant.unlined, #[]⟩

theorem Program.shadow_shadow (p : Program) : p.shadow.shadow = p.shadow := by
  simp only [shadow, Array.map_map]
  rfl

theorem Program.findConstant?_shadow (p : Program) (name : String) :
    p.shadow.findConstant? name = (p.findConstant? name).map Constant.unlined :=
  p.findConstant?_unlined name

theorem Program.constantIndex?_shadow (p : Program) (name : String) :
    p.shadow.constantIndex? name = p.constantIndex? name := p.constantIndex?_unlined name

namespace Assembly

structure Unlined (x y : Method × List Event) : Prop where
  method : x.1.unlined = y.1
  reports : reports x.2 = reports y.2

theorem Unlined.severities {x y : Method × List Event} (h : Unlined x y) :
    severities x.2 = severities y.2 := severities_eq_of_reports_eq h.reports

theorem Unlined.unlined_eq {x y : Method × List Event} (h : Unlined x y) :
    x.1.unlined = y.1.unlined := by
  rw [← h.method, Method.unlined_unlined]

theorem readArgument_shadow (s : Setup) (p : Program) (m : Method) (kind : OperandKind)
    (token : String) :
    readArgument s p.shadow m.unlined kind token = readArgument s p m kind token := by
  cases kind with
  | constant => simp only [readArgument, p.constantIndex?_shadow]
  | byte | var | label | method => rfl

theorem readArguments_shadow (s : Setup) (p : Program) (m : Method)
    (operands : List (OperandKind × String)) :
    readArguments s p.shadow m.unlined operands = readArguments s p m operands := by
  induction operands with
  | nil => rfl
  | cons operand rest ih =>
    obtain ⟨kind, token⟩ := operand
    rw [readArguments, readArguments, readArgument_shadow, ih]

theorem readInstruction_shadow (s : Setup) (p : Program) (m : Method) (text name : String)
    (tokens : List String) :
    readInstruction s p.shadow m.unlined text name tokens =
      readInstruction s p m text name tokens := by
  unfold readInstruction
  simp only [readArguments_shadow]

theorem unlined_perform (r : Reading) (m : Method) (line : Nat) :
    Unlined (r.perform m line) (r.perform m.unlined 0) := by
  unfold Reading.perform
  cases r.widener with
  | none => exact ⟨m.unlined_push _, rfl⟩
  | some widener => exact ⟨by rw [Method.unlined_push, Method.unlined_push]; rfl, rfl⟩

theorem unlined_instruction (s : Setup) (p : Program) (m : Method) (text : String) (line : Nat) :
    Unlined (instruction s p m text line) (instruction s p.shadow m.unlined text 0) := by
  unfold instruction
  cases Source.tokensOf text with
  | nil => exact ⟨rfl, rfl⟩
  | cons name tokens =>
    simp only [readInstruction_shadow]
    cases readInstruction s p m text name tokens with
    | error problem => exact ⟨rfl, rfl⟩
    | ok r => exact unlined_perform r m line

theorem unlined_pushBytes (push out : Operation) (line : Nat) (m : Method) (bytes : List UInt8) :
    (pushBytes push out line m bytes).unlined = pushBytes push out 0 m.unlined bytes := by
  unfold pushBytes
  induction bytes generalizing m with
  | nil => rfl
  | cons b rest ih =>
    rw [List.foldl_cons, ih, Method.unlined_push, Method.unlined_push]
    rfl

theorem unlined_print (s : Setup) (m : Method) (argument : String) (line : Nat) :
    Unlined (print s m argument line) (print s m.unlined argument 0) := by
  unfold print
  split_ifs with hempty
  · exact ⟨rfl, rfl⟩
  · cases Source.Quoted.decode argument with
    | error cause => exact ⟨rfl, rfl⟩
    | ok bytes =>
      dsimp only
      split
      next push out _ _ =>
        split_ifs
        · exact ⟨rfl, rfl⟩
        · exact ⟨unlined_pushBytes push out line m bytes, rfl⟩
      next => exact ⟨rfl, rfl⟩

theorem unlined_action (s : Setup) (p : Program) (m : Method) (text : String) (line : Nat) :
    Unlined (action s p m text line) (action s p.shadow m.unlined text 0) := by
  unfold action
  split_ifs with hempty hdirective
  · exact ⟨rfl, rfl⟩
  · unfold directive
    dsimp only
    split_ifs
    · exact unlined_print s m _ line
    · exact ⟨rfl, rfl⟩
  · exact unlined_instruction s p m text line

theorem unlined_defineLabel (s : Setup) (m : Method) (name : String) (line : Nat) :
    Unlined (defineLabel s m name line) (defineLabel s m.unlined name 0) := by
  unfold defineLabel
  split_ifs
  · exact ⟨rfl, rfl⟩
  · cases hadd : m.addLabel name line with
    | error taken =>
      have hproblem : (Problem.labelTaken name taken.line).unlined =
          (Problem.labelTaken name taken.unlined.line).unlined := rfl
      rw [Method.addLabel_unlined_of_error hadd]
      exact ⟨rfl, reports_event hproblem s.file line 0⟩
    | ok labelled =>
      rw [Method.addLabel_unlined_of_ok hadd]
      exact ⟨rfl, rfl⟩

theorem unlined_statement (s : Setup) (p : Program) (m : Method) (text : String) (line : Nat) :
    Unlined (statement s p m text line) (statement s p.shadow m.unlined text 0) := by
  unfold statement
  cases splitLabel text with
  | none => exact unlined_action s p m text line
  | some parts =>
    obtain ⟨name, rest⟩ := parts
    obtain ⟨hmethod, hevents⟩ := unlined_defineLabel s m name line
    obtain ⟨hmethod', hevents'⟩ := unlined_action s p (defineLabel s m name line).1 rest line
    rw [hmethod] at hmethod' hevents'
    refine ⟨hmethod', ?_⟩
    rw [reports_append, hevents, hevents', ← reports_append]

namespace Progress

theorem unlined_declare (s : Setup) (line : Nat) (m : Method) (name : String) :
    Unlined (declare s line m name) (declare s 0 m.unlined name) := by
  unfold declare
  split_ifs
  · exact ⟨rfl, rfl⟩
  · refine ⟨rfl, ?_⟩
    have hfind : m.unlined.findVariable? name = m.findVariable? name := rfl
    simp only [hfind]
    cases m.findVariable? name <;> rfl

theorem unlined_declareAll (s : Setup) (line : Nat) (m : Method) (names : List String) :
    Unlined (declareAll s line m names) (declareAll s 0 m.unlined names) := by
  induction names generalizing m with
  | nil => exact ⟨rfl, rfl⟩
  | cons name rest ih =>
    obtain ⟨hmethod, hevents⟩ := unlined_declare s line m name
    obtain ⟨hmethod', hevents'⟩ := ih (declare s line m name).1
    rw [hmethod] at hmethod' hevents'
    refine ⟨hmethod', ?_⟩
    rw [declareAll, declareAll, reports_append, hevents, hevents', ← reports_append]

end Progress

def Halt.unlined : Halt → Halt
  | unexpectedEnd file _ expected => unexpectedEnd file 0 expected
  | methodHeader file _ cause => methodHeader file 0 cause
  | undecodable => undecodable

def Block.unlined : Block → Block
  | outside => outside
  | constants => constants
  | body m started => body m.unlined started
  | declarations m => declarations m.unlined
  | rejected closing within => rejected closing (within.map Method.unlined)

def Progress.shadow (a : Progress) (journal : Journal) : Progress :=
  { a with program := a.program.shadow, block := a.block.unlined, journal }

/-- From `a` to `a'` the same has happened as from `b` to `b'`, and the same lies ahead, line
numbers aside. -/
structure Abreast (a a' b b' : Progress) : Prop where
  ahead : a'.shadow #[] = b'.shadow #[]
  methods : ∃ ms ms' : List Method, a'.program.methods.toList = a.program.methods.toList ++ ms ∧
    b'.program.methods.toList = b.program.methods.toList ++ ms' ∧
    ms.map Method.unlined = ms'.map Method.unlined
  reports : ∃ es es' : List Event, a'.journal.toList = a.journal.toList ++ es ∧
    b'.journal.toList = b.journal.toList ++ es' ∧ reports es = reports es'

namespace Abreast

variable {a a' a'' b b' b'' : Progress}

theorem journal (h : Abreast a a' b b') :
    ∃ es es' : List Event, a'.journal.toList = a.journal.toList ++ es ∧
      b'.journal.toList = b.journal.toList ++ es' ∧ severities es = severities es' := by
  obtain ⟨es, es', hes, hes', hreports⟩ := h.reports
  exact ⟨es, es', hes, hes', severities_eq_of_reports_eq hreports⟩

/-- Nothing has happened yet. -/
theorem start (h : a.shadow #[] = b.shadow #[]) : Abreast a a b b :=
  ⟨h, ⟨[], [], (List.append_nil _).symm, (List.append_nil _).symm, rfl⟩, [], [],
    (List.append_nil _).symm, (List.append_nil _).symm, rfl⟩

theorem symm (h : Abreast a a' b b') : Abreast b b' a a' := by
  obtain ⟨hahead, ⟨ms, ms', hms, hms', hsame⟩, es, es', hes, hes', hevents⟩ := h
  exact ⟨hahead.symm, ⟨ms', ms, hms', hms, hsame.symm⟩, es', es, hes', hes, hevents.symm⟩

theorem trans {c c' : Progress} (h : Abreast a a' b b') (h' : Abreast b b' c c') :
    Abreast a a' c c' := by
  obtain ⟨hahead, ⟨ms, ms₁, hms, hms₁, hsame⟩, es, es₁, hes, hes₁, hevents⟩ := h
  obtain ⟨hahead', ⟨ms₂, ms', hms₂, hms', hsame'⟩, es₂, es', hes₂, hes', hevents'⟩ := h'
  obtain rfl : ms₁ = ms₂ := List.append_cancel_left (hms₁.symm.trans hms₂)
  obtain rfl : es₁ = es₂ := List.append_cancel_left (hes₁.symm.trans hes₂)
  exact ⟨hahead.trans hahead', ⟨ms, ms', hms, hms', hsame.trans hsame'⟩, es, es', hes, hes',
    hevents.trans hevents'⟩

/-- What happens one thing after the other. -/
theorem append (h : Abreast a a' b b') (h' : Abreast a' a'' b' b'') : Abreast a a'' b b'' := by
  obtain ⟨_, ⟨ms, ms', hms, hms', hsame⟩, es, es', hes, hes', hevents⟩ := h
  obtain ⟨hahead, ⟨ms₁, ms₁', hms₁, hms₁', hsame'⟩, es₁, es₁', hes₁, hes₁', hevents'⟩ := h'
  refine ⟨hahead, ⟨ms ++ ms₁, ms' ++ ms₁', ?_, ?_, ?_⟩, es ++ es₁, es' ++ es₁', ?_, ?_, ?_⟩
  · rw [hms₁, hms, List.append_assoc]
  · rw [hms₁', hms', List.append_assoc]
  · rw [List.map_append, List.map_append, hsame, hsame']
  · rw [hes₁, hes, List.append_assoc]
  · rw [hes₁', hes', List.append_assoc]
  · rw [reports_append, reports_append, hevents, hevents']

end Abreast

theorem Block.unlined_unlined (block : Block) : block.unlined.unlined = block.unlined := by
  cases block with
  | outside | constants => rfl
  | body m started => simp only [unlined, Method.unlined_unlined]
  | declarations m => simp only [unlined, Method.unlined_unlined]
  | rejected closing within => simp only [unlined, Option.map_map, Function.comp_def,
      Method.unlined_unlined]

namespace Progress

variable {s : Setup} {a b : Progress} {journal : Journal}

/-- Nothing happens but that the block changes and something is noticed. -/
theorem abreast_of_program {a' b' : Progress} {es es' : List Event}
    (hprogram : a'.program = a.program) (hprogram' : b'.program = a.program.shadow)
    (hclosed : a'.constantsClosed = b'.constantsClosed) (hseen : a'.mainSeen = b'.mainSeen)
    (hblock : a'.block.unlined = b'.block.unlined)
    (hjournal : a'.journal.toList = a.journal.toList ++ es)
    (hjournal' : b'.journal.toList = journal.toList ++ es') (hevents : reports es = reports es') :
    Abreast a a' (a.shadow journal) b' := by
  refine ⟨?_, ⟨[], [], ?_, ?_, rfl⟩, es, es', hjournal, hjournal', hevents⟩
  · simp only [shadow, hprogram, hprogram', Program.shadow_shadow, hclosed, hseen, hblock]
  · rw [hprogram, List.append_nil]
  · rw [hprogram', List.append_nil]
    rfl

theorem abreast_enter (a : Progress) {block block' : Block} {events events' : List Event}
    (hblock : block.unlined = block'.unlined) (hevents : reports events = reports events') :
    Abreast a (a.enter block events) (a.shadow journal) ((a.shadow journal).enter block' events') :=
  abreast_of_program rfl rfl rfl rfl hblock Array.toList_appendList Array.toList_appendList hevents

theorem abreast_openConstants (a : Progress) (s : Setup) (line : Nat) :
    Abreast a (a.openConstants s line) (a.shadow journal) ((a.shadow journal).openConstants s 0) := by
  unfold openConstants
  change Abreast _ _ _ (if a.constantsClosed then _ else if a.mainSeen then _ else _)
  split_ifs
  · exact a.abreast_enter rfl rfl
  · exact a.abreast_enter rfl rfl
  · exact abreast_of_program rfl rfl rfl rfl rfl (List.append_nil _).symm (List.append_nil _).symm rfl

theorem abreast_openMain (a : Progress) (s : Setup) (line : Nat) :
    Abreast a (a.openMain s line) (a.shadow journal) ((a.shadow journal).openMain s 0) := by
  unfold openMain
  change Abreast _ _ _ (if a.mainSeen then _ else _)
  split_ifs
  · exact a.abreast_enter rfl rfl
  · refine abreast_of_program rfl rfl rfl rfl ?_ Array.toList_push Array.toList_push rfl
    simp only [Block.unlined, Method.entry, Method.unlined_build]

inductive Paired (a b : Progress) : Except Abort Progress → Except Abort Progress → Prop
  | ended {abort abort' : Abort} (cause : abort.halt.unlined = abort'.halt.unlined) :
    Paired a b (.error abort) (.error abort')
  | abreast {a' b' : Progress} (h : Abreast a a' b b') : Paired a b (.ok a') (.ok b')

theorem Paired.after {a' b' : Progress} {result result' : Except Abort Progress}
    (h : Abreast a a' b b') (h' : Paired a' b' result result') : Paired a b result result' := by
  cases h' with
  | ended cause => exact .ended cause
  | abreast h' => exact .abreast (h.append h')

theorem Paired.exists_abreast {a' : Progress} {result : Except Abort Progress}
    (h : Paired a b (.ok a') result) : ∃ b', result = .ok b' ∧ Abreast a a' b b' := by
  cases h with
  | abreast h => exact ⟨_, rfl, h⟩

theorem Paired.join {c : Progress} {x y z : Except Abort Progress} (h : Paired a c x z)
    (h' : Paired b c y z) : Paired a b x y := by
  cases h with
  | ended cause =>
    cases h' with
    | ended cause' => exact .ended (cause.trans cause'.symm)
  | abreast h =>
    cases h' with
    | abreast h' => exact .abreast (h.trans h'.symm)

theorem paired_openMethod (a : Progress) (s : Setup) (line : Nat) (declaration : String) :
    Paired a (a.shadow journal) (a.openMethod s line declaration)
      ((a.shadow journal).openMethod s 0 declaration) := by
  unfold openMethod
  change Paired _ _ _ (if !a.mainSeen then _ else _)
  split_ifs
  · exact .abreast (a.abreast_enter rfl rfl)
  · cases Source.MethodHeader.parse declaration with
    | error cause => exact .ended rfl
    | ok header =>
      have hblock : (Block.body (.named header.name header.parameters line) false).unlined =
          (Block.body (.named header.name header.parameters 0) false).unlined := by
        simp only [Block.unlined, Method.named, Method.unlined_build]
      have hproblems : reports ((headerProblems header).map (s.problem line)) =
          reports ((headerProblems header).map (s.problem 0)) := by
        simp only [reports, List.filterMap_map]
        rfl
      refine .abreast (a.abreast_enter hblock ?_)
      rw [reports_append, reports_append, hproblems]
      rfl

theorem abreast_note (a : Progress) {events events' : List Event}
    (hevents : reports events = reports events') :
    Abreast a (a.note events) (a.shadow journal) ((a.shadow journal).note events') :=
  a.abreast_enter a.block.unlined_unlined.symm hevents

theorem abreast_self (a : Progress) : Abreast a a (a.shadow journal) (a.shadow journal) :=
  abreast_of_program rfl rfl rfl rfl a.block.unlined_unlined.symm (List.append_nil _).symm
    (List.append_nil _).symm rfl

theorem paired_outsideLine (a : Progress) (s : Setup) (line : Source.Line) :
    Paired a (a.shadow journal) (a.outsideLine s line)
      ((a.shadow journal).outsideLine s ⟨0, line.text⟩) := by
  -- The line is logged first, which no line to come can see.
  have hlogged : Abreast a (a.note [.remark .trace s!"{s.file}:{line.number} > {line.text}"])
      (a.shadow journal) ((a.shadow journal).note
        [.remark .trace s!"{s.file}:{(0 : Nat)} > {line.text}"]) := a.abreast_note rfl
  unfold outsideLine
  refine .after hlogged ?_
  split_ifs
  · exact .abreast (abreast_self _)
  · exact .abreast (abreast_openConstants _ s line.number)
  · exact .abreast (abreast_openMain _ s line.number)
  · cases Source.methodLine? line.text with
    | none => exact .abreast (abreast_note _ rfl)
    | some declaration => exact paired_openMethod _ s line.number declaration

theorem abreast_closeBody (a : Progress) (s : Setup) (m : Method) (line : Nat) :
    Abreast a (a.closeBody s m line) (a.shadow journal)
      ((a.shadow journal).closeBody s m.unlined 0) := by
  refine ⟨?_, ⟨[m.sealed], [m.unlined.sealed], Array.toList_push, Array.toList_push, ?_⟩, _, _,
    Array.toList_appendList, Array.toList_appendList, ?_⟩
  · simp only [closeBody, shadow, Program.shadow, Array.map_map]
    rfl
  · rw [List.map_singleton, List.map_singleton, ← Method.unlined_sealed, Method.unlined_unlined]
  · change reports ((if m.widensNext then [s.problem line (.idleWide m.name)] else []) ++ _) =
      reports ((if m.widensNext then [s.problem 0 (.idleWide m.name)] else []) ++ _)
    split_ifs <;> rfl

theorem abreast_bodyLine (a : Progress) (s : Setup) (m : Method) (started : Bool)
    (line : Source.Line) :
    Abreast a (a.bodyLine s m started line) (a.shadow journal)
      ((a.shadow journal).bodyLine s m.unlined started ⟨0, line.text⟩) := by
  have hclosing : Block.bodyClosing m.unlined = Block.bodyClosing m := rfl
  unfold bodyLine
  rw [hclosing]
  split_ifs
  · exact a.abreast_closeBody s m line.number
  · exact abreast_of_program rfl rfl rfl rfl (Block.unlined_unlined (.body m started)).symm
      (List.append_nil _).symm (List.append_nil _).symm rfl
  · exact a.abreast_enter (Block.unlined_unlined (.rejected .declarations (some m))).symm rfl
  · exact abreast_of_program rfl rfl rfl rfl (Block.unlined_unlined (.declarations m)).symm
      (List.append_nil _).symm (List.append_nil _).symm rfl
  · have hstatement := unlined_statement s a.program m line.text line.number
    exact a.abreast_enter (congrArg (Block.body · true) hstatement.unlined_eq)
      hstatement.reports

theorem abreast_declarationsLine (a : Progress) (s : Setup) (m : Method) (line : Source.Line) :
    Abreast a (a.declarationsLine s m line) (a.shadow journal)
      ((a.shadow journal).declarationsLine s m.unlined ⟨0, line.text⟩) := by
  unfold declarationsLine
  dsimp only
  split_ifs
  · exact abreast_of_program rfl rfl rfl rfl (Block.unlined_unlined (.body m true)).symm
      (List.append_nil _).symm (List.append_nil _).symm rfl
  · have hslots := unlined_declareAll s line.number m
      ((Text.words line.text.toList).map String.ofList)
    exact a.abreast_enter (congrArg Block.declarations hslots.unlined_eq) hslots.reports

theorem abreast_rejectedLine (a : Progress) (s : Setup) (closing : Closing)
    (within : Option Method) (line : Source.Line) :
    Abreast a (a.rejectedLine s closing within line) (a.shadow journal)
      ((a.shadow journal).rejectedLine s closing (within.map Method.unlined) ⟨0, line.text⟩) := by
  have hresumed : Block.resumed (within.map Method.unlined) = (Block.resumed within).unlined := by
    cases within <;> rfl
  unfold rejectedLine
  dsimp only
  rw [hresumed]
  split_ifs
  · exact a.abreast_enter (Block.unlined_unlined _).symm rfl
  · exact a.abreast_enter (Block.unlined_unlined (.rejected closing within)).symm rfl

theorem readConstant_shadow (p : Program) (name literal : String) (line : Nat) :
    (∃ problem problem', readConstant p name literal line = .error problem ∧
      readConstant p.shadow name literal 0 = .error problem' ∧
        problem.unlined = problem'.unlined) ∨
    ∃ c, readConstant p name literal line = .ok c ∧
      readConstant p.shadow name literal 0 = .ok c.unlined := by
  unfold readConstant
  rw [p.findConstant?_shadow]
  split_ifs
  · exact .inl ⟨_, _, rfl, rfl, rfl⟩
  · cases p.findConstant? name with
    | some taken => exact .inl ⟨_, _, rfl, rfl, rfl⟩
    | none =>
      cases constantValue literal with
      | error cause => exact .inl ⟨_, _, rfl, rfl, rfl⟩
      | ok value => exact .inr ⟨_, rfl, rfl⟩

theorem abreast_constantLine (a : Progress) (s : Setup) (line : Source.Line) :
    Abreast a (a.constantLine s line) (a.shadow journal)
      ((a.shadow journal).constantLine s ⟨0, line.text⟩) := by
  have hprogram : (a.shadow journal).program = a.program.shadow := rfl
  unfold constantLine
  dsimp only
  split
  next name literal more _ =>
    rcases readConstant_shadow a.program name literal line.number with
      ⟨problem, problem', hread, hread', hproblem⟩ | ⟨c, hread, hread'⟩
    · simp only [hprogram, hread, hread']
      exact a.abreast_note (reports_event hproblem s.file line.number 0)
    · simp only [hprogram, hread, hread']
      refine ⟨?_, ⟨[], [], (List.append_nil _).symm, rfl, rfl⟩, _, _, Array.toList_appendList,
        Array.toList_appendList, ?_⟩
      · simp only [shadow, Program.shadow, Array.map_push, Array.map_map, Block.unlined_unlined,
          Constant.unlined_unlined]
        rfl
      · split_ifs <;> rfl
  next => exact a.abreast_note rfl

/-- A step without line numbers. -/
theorem paired_step (a : Progress) (s : Setup) (line : Source.Line) (journal : Journal) :
    Paired a (a.shadow journal) (a.step s line) ((a.shadow journal).step s ⟨0, line.text⟩) := by
  -- A step sets out from the run without its block.
  have houtside : ∀ {result result'}, Paired ({ a with block := .outside } : Progress)
      (({ a with block := .outside } : Progress).shadow journal) result result' →
      Paired a (a.shadow journal) result result' :=
    Paired.after (abreast_of_program rfl rfl rfl rfl rfl (List.append_nil _).symm
      (List.append_nil _).symm rfl)
  refine houtside ?_
  have hblock : (a.shadow journal).block = a.block.unlined := rfl
  unfold step
  dsimp only
  rw [hblock]
  cases a.block with
  | outside => exact paired_outsideLine _ s line
  | constants =>
    have hconstants : Abreast ({ a with block := .outside } : Progress) { a with block := .constants }
        (shadow { a with block := .outside } journal)
        (shadow { a with block := .constants } journal) :=
      abreast_of_program rfl rfl rfl rfl rfl (List.append_nil _).symm (List.append_nil _).symm rfl
    simp only [Block.unlined]
    split_ifs
    · exact .abreast (abreast_of_program rfl rfl rfl rfl rfl (List.append_nil _).symm
        (List.append_nil _).symm rfl)
    · exact .abreast hconstants
    · exact .after hconstants (.abreast (abreast_constantLine _ s line))
  | body m started => exact .abreast (abreast_bodyLine _ s m started line)
  | declarations m => exact .abreast (abreast_declarationsLine _ s m line)
  | rejected closing within => exact .abreast (abreast_rejectedLine _ s closing within line)

/-- Runs that agree in what the next line can see do the same at it. -/
theorem paired_of_shadow (h : a.shadow #[] = b.shadow #[]) {line line' : Source.Line}
    (htext : line.text = line'.text) : Paired a b (a.step s line) (b.step s line') := by
  have ha := paired_step a s line #[]
  rw [h, htext] at ha
  exact ha.join (paired_step b s line' #[])

end Progress

open Progress

/-- So they do over lines, if they go on alike behind the first. -/
theorem Progress.Paired.readLines_cons {s : Setup} {a b : Progress} {line line' : Source.Line}
    {rest rest' : List Source.Line} (h : Paired a b (a.step s line) (b.step s line'))
    (hrest : ∀ a' b', a'.shadow #[] = b'.shadow #[] →
      Paired a' b' (readLines s a' rest) (readLines s b' rest')) :
    Paired a b (readLines s a (line :: rest)) (readLines s b (line' :: rest')) := by
  unfold readLines
  generalize a.step s line = result at h
  generalize b.step s line' = result' at h
  cases h with
  | ended h => exact .ended h
  | abreast h => exact .after h (hrest _ _ h.ahead)

/-- So they do over any lines with the same texts. -/
theorem paired_of_readLines {s : Setup} {a b : Progress} {lines lines' : List Source.Line}
    (h : a.shadow #[] = b.shadow #[])
    (htexts : lines.map Source.Line.text = lines'.map Source.Line.text) :
    Paired a b (readLines s a lines) (readLines s b lines') := by
  induction lines generalizing a b lines' with
  | nil =>
    obtain rfl := List.map_eq_nil_iff.1 htexts.symm
    exact .abreast (.start h)
  | cons line rest ih =>
    obtain ⟨line', rest', rfl, htext, hrest⟩ := List.map_eq_cons_iff.1 htexts.symm
    exact (paired_of_shadow h htext.symm).readLines_cons fun a' b' h' => ih h' hrest.symm

theorem exists_abreast_of_readLines {s : Setup} {a a' b : Progress} {lines lines' : List Source.Line}
    (h : a.shadow #[] = b.shadow #[])
    (htexts : lines.map Source.Line.text = lines'.map Source.Line.text)
    (hread : readLines s a lines = .ok a') :
    ∃ b', readLines s b lines' = .ok b' ∧ Abreast a a' b b' := by
  have hpaired := paired_of_readLines (s := s) h htexts
  rw [hread] at hpaired
  exact hpaired.exists_abreast

/-- A run that has read its lines and is outside of all blocks links what it has read. -/
theorem exists_run_of_outside {s : Setup} {source : Bytes} {a : Progress}
    (hread : readLines s {} (Source.Lines.ofBytes source).lines = .ok a)
    (hintact : (Source.Lines.ofBytes source).intact = true) (hblock : a.block = .outside) :
    ∃ text, run s source = ⟨(a.journal ++ (a.program.link s.file).2).push (.remark .info text),
      .ok (a.program.link s.file).1⟩ := by
  simp only [run, hread, hintact, ↓reduceIte, Progress.finish, hblock, Block.closing?]
  exact ⟨_, rfl⟩

theorem run_of_readLines {s : Setup} {source : Bytes} {a : Progress}
    (hread : readLines s {} (Source.Lines.ofBytes source).lines = .ok a)
    (hintact : (Source.Lines.ofBytes source).intact = true) (hblock : a.block = .outside) :
    (run s source).result = .ok (a.program.link s.file).1 ∧
      (run s source).errors = a.journal.errors + (a.program.link s.file).2.errors := by
  obtain ⟨text, hrun⟩ := exists_run_of_outside hread hintact hblock
  rw [hrun, Outcome.errors, Journal.errors_push, Journal.errors_append]
  exact ⟨rfl, rfl⟩

theorem reports_of_readLines {s : Setup} {source : Bytes} {a : Progress}
    (hread : readLines s {} (Source.Lines.ofBytes source).lines = .ok a)
    (hintact : (Source.Lines.ofBytes source).intact = true) (hblock : a.block = .outside) :
    reports (run s source).journal.toList =
      reports a.journal.toList ++ reports (a.program.link s.file).2.toList := by
  obtain ⟨text, hrun⟩ := exists_run_of_outside hread hintact hblock
  rw [hrun, Array.toList_push, Array.toList_append, reports_append, reports_append, reports_remark,
    reports_nil, List.append_nil]

namespace Abreast

variable {a a' b b' : Progress}

theorem outside (h : Abreast a a' b b') (hblock : a'.block = .outside) : b'.block = .outside := by
  have hsame : a'.block.unlined = b'.block.unlined := congrArg Progress.block h.ahead
  rw [hblock] at hsame
  cases hb : b'.block with
  | outside => rfl
  | _ => rw [hb] at hsame; cases hsame

/-- Runs that have been abreast from the beginning have come to the same. -/
theorem program_unlined (h : Abreast {} a {} b) : a.program.unlined = b.program.unlined := by
  have hconstants : a.program.constants.map Constant.unlined =
      b.program.constants.map Constant.unlined :=
    congrArg (fun c : Progress => c.program.constants) h.ahead
  obtain ⟨ms, ms', hms, hms', hsame⟩ := h.methods
  simp only [Program.unlined, hconstants, Program.mk.injEq, true_and]
  rw [← Array.toList_inj, Array.toList_map, Array.toList_map, hms, hms']
  exact hsame

theorem errors_eq (h : Abreast {} a {} b) : a.journal.errors = 0 ↔ b.journal.errors = 0 := by
  obtain ⟨es, es', hes, hes', hsame⟩ := h.journal
  rw [Journal.errors_eq_zero_iff, Journal.errors_eq_zero_iff, hes, hes']
  exact quiet_iff_of_severities_eq hsame

end Abreast

end Assembly

end IjvmAsm
