import IjvmAsm.Assembly.Run
import IjvmAsm.Proofs.Journal
import Mathlib.Tactic.SplitIfs

/-!
# What lines do to a run

A line declares a constant, opens a method, changes the method that is open or closes it, or it
leaves constants and methods as they are. It never takes back an error. What holds of a run after
every line follows by cases on these, or on what they come to for the methods of the run.
-/

namespace IjvmAsm.Assembly

def Block.method? : Block → Option Method
  | body m _ | declarations m => some m
  | rejected _ within => within
  | outside | constants => none

structure Declarable (p : Program) (c : Constant) : Prop where
  declared : c.origin = .declared
  named : Source.isIdentifier c.name = true
  fresh : p.findConstant? c.name = none

/-- What a line can do to a run. -/
inductive Advance (s : Setup) (line : Source.Line) (a a' : Progress) : Prop
  | idle (program : a'.program = a.program) (block : a'.block.method? = a.block.method?)
      (seen : a'.mainSeen = a.mainSeen)
  | constant {c : Constant} (within : a.block = .constants) (declared : Declarable a.program c)
      (program : a'.program = { a.program with constants := a.program.constants.push c })
      (block : a'.block = .constants) (seen : a'.mainSeen = a.mainSeen)
  | main (within : a.block = .outside) (first : a.mainSeen = false)
      (program : a'.program = a.program) (block : a'.block = .body (.entry line.number) false)
      (seen : a'.mainSeen = true)
  | method {header : Source.MethodHeader} (within : a.block = .outside) (later : a.mainSeen = true)
      (program : a'.program = a.program)
      (block : a'.block = .body (.named header.name header.parameters line.number) false)
      (seen : a'.mainSeen = true)
      (named : a'.journal.errors = 0 → Source.isIdentifier header.name = true)
  | statement {m : Method} {started : Bool} (within : a.block = .body m started)
      (program : a'.program = a.program)
      (block : a'.block = .body (statement s a.program m line.text line.number).1 true)
      (seen : a'.mainSeen = a.mainSeen)
      (journal : a'.journal = a.journal ++ (statement s a.program m line.text line.number).2)
  | slots {m : Method} {names : List String} (within : a.block = .declarations m)
      (program : a'.program = a.program)
      (block : a'.block = .declarations (Progress.declareAll s line.number m names).1)
      (seen : a'.mainSeen = a.mainSeen)
  | closing {m : Method} {started : Bool} (within : a.block = .body m started)
      (program : a'.program = { a.program with methods := a.program.methods.push m.sealed })
      (block : a'.block = .outside) (seen : a'.mainSeen = a.mainSeen)

namespace Progress

variable {s : Setup} {line : Source.Line} {a a' : Progress}

theorem errors_le_append (j : Journal) (events : List Event) :
    j.errors ≤ Journal.errors (j ++ events) := by
  rw [Journal.errors_appendList]
  omega

theorem isIdentifier_of_quiet {header : Source.MethodHeader} {line : Nat}
    (h : Quiet ((headerProblems header).map (s.problem line))) :
    Source.isIdentifier header.name = true := by
  cases hname : Source.isIdentifier header.name with
  | true => rfl
  | false =>
    have hmem : Problem.methodName header.name ∈ headerProblems header := by
      rw [headerProblems, hname]
      exact List.mem_cons_self
    have herror : (s.problem line (.methodName header.name)).isError = true := rfl
    rw [h _ (List.mem_map_of_mem hmem)] at herror
    cases herror

theorem advance_openConstants (hblock : a.block = .outside) (n : Nat) :
    Advance s line a (a.openConstants s n) ∧
      a.journal.errors ≤ (a.openConstants s n).journal.errors := by
  unfold openConstants
  split_ifs
  · exact ⟨.idle rfl (by rw [hblock]; rfl) rfl, errors_le_append _ _⟩
  · exact ⟨.idle rfl (by rw [hblock]; rfl) rfl, errors_le_append _ _⟩
  · exact ⟨.idle rfl (by rw [hblock]; rfl) rfl, Nat.le_refl _⟩

theorem advance_openMain (hblock : a.block = .outside) :
    Advance s line a (a.openMain s line.number) ∧
      a.journal.errors ≤ (a.openMain s line.number).journal.errors := by
  unfold openMain
  split_ifs with hseen
  · exact ⟨.idle rfl (by rw [hblock]; rfl) rfl, errors_le_append _ _⟩
  · refine ⟨.main hblock (Bool.not_eq_true _ ▸ hseen) rfl rfl rfl, ?_⟩
    simp only [Journal.errors_push]
    omega

theorem advance_openMethod (hblock : a.block = .outside) {declaration : String}
    (h : a.openMethod s line.number declaration = .ok a') :
    Advance s line a a' ∧ a.journal.errors ≤ a'.journal.errors := by
  unfold openMethod at h
  split_ifs at h with hseen
  · cases h
    exact ⟨.idle rfl (by rw [hblock]; rfl) rfl, errors_le_append _ _⟩
  · rw [Bool.not_eq_true, Bool.not_eq_false'] at hseen
    cases hparse : Source.MethodHeader.parse declaration with
    | error cause =>
      rw [hparse] at h
      cases h
    | ok header =>
      rw [hparse] at h
      cases h
      refine ⟨.method hblock hseen rfl rfl hseen fun herrors => ?_, errors_le_append _ _⟩
      -- The name is only known to be an identifier if nothing was wrong with the header.
      exact isIdentifier_of_quiet (quiet_append.1 (Journal.quiet_of_errors_appendList herrors)).1

/-- What a line does outside of all blocks it does whatever has been noted before. -/
theorem advance_of_note (hblock : a.block = .outside) {events : List Event}
    (h : Advance s line (a.note events) a') : Advance s line a a' := by
  cases h with
  | idle program block seen => exact .idle program block seen
  | constant within declared program block seen =>
    exact .constant within declared program block seen
  | main within first program block seen => exact .main within first program block seen
  | method within later program block seen named =>
    exact .method within later program block seen named
  | statement within => cases hblock.symm.trans within
  | slots within program block seen => exact .slots within program block seen
  | closing within program block seen => exact .closing within program block seen

theorem advance_outsideLine (hblock : a.block = .outside) (h : a.outsideLine s line = .ok a') :
    Advance s line a a' ∧ a.journal.errors ≤ a'.journal.errors := by
  unfold outsideLine at h
  dsimp only at h
  have hnoted : (a.note [.remark .trace s!"{s.file}:{line.number} > {line.text}"]).block =
      .outside := hblock
  have hlogged : ∀ {events : List Event}, Advance s line (a.note events) a' ∧
      (a.note events).journal.errors ≤ a'.journal.errors →
      Advance s line a a' ∧ a.journal.errors ≤ a'.journal.errors := by
    rintro events ⟨hadvance, herrors⟩
    exact ⟨advance_of_note hblock hadvance, Nat.le_trans (errors_le_append _ _) herrors⟩
  split_ifs at h
  · cases h
    exact ⟨.idle rfl rfl rfl, errors_le_append _ _⟩
  · cases h
    exact hlogged (advance_openConstants hnoted line.number)
  · cases h
    exact hlogged (advance_openMain hnoted)
  · split at h
    · exact hlogged (advance_openMethod hnoted h)
    · cases h
      exact hlogged ⟨.idle rfl rfl rfl, errors_le_append _ _⟩

theorem declarable_of_readConstant {p : Program} {name literal : String} {n : Nat} {c : Constant}
    (h : readConstant p name literal n = .ok c) : Declarable p c := by
  unfold readConstant at h
  split_ifs at h with hname
  cases hfresh : p.findConstant? name with
  | some taken =>
    rw [hfresh] at h
    cases h
  | none =>
    cases hvalue : constantValue literal with
    | error cause =>
      simp only [hfresh, hvalue] at h
      cases h
    | ok value =>
      simp only [hfresh, hvalue] at h
      cases h
      rw [Bool.not_eq_true, Bool.not_eq_false'] at hname
      exact ⟨rfl, hname, hfresh⟩

theorem advance_constantLine (hblock : a.block = .constants) :
    Advance s line a (a.constantLine s line) ∧
      a.journal.errors ≤ (a.constantLine s line).journal.errors := by
  unfold constantLine
  split
  next name literal more htokens =>
    cases hread : readConstant a.program name literal line.number with
    | error problem => exact ⟨.idle rfl rfl rfl, errors_le_append _ _⟩
    | ok constant =>
      exact ⟨.constant hblock (declarable_of_readConstant hread) rfl hblock rfl,
        errors_le_append _ _⟩
  next => exact ⟨.idle rfl rfl rfl, errors_le_append _ _⟩

theorem advance_bodyLine {m : Method} {started : Bool} (hblock : a.block = .body m started) :
    Advance s line a (({ a with block := .outside } : Progress).bodyLine s m started line) ∧
      a.journal.errors ≤
        (({ a with block := .outside } : Progress).bodyLine s m started line).journal.errors := by
  have hopen : a.block.method? = some m := by
    rw [hblock]
    rfl
  unfold bodyLine
  split_ifs
  · exact ⟨.closing hblock rfl rfl rfl, errors_le_append _ _⟩
  · exact ⟨.idle rfl hopen.symm rfl, Nat.le_refl _⟩
  · exact ⟨.idle rfl hopen.symm rfl, errors_le_append _ _⟩
  · exact ⟨.idle rfl hopen.symm rfl, Nat.le_refl _⟩
  · exact ⟨.statement hblock rfl rfl rfl rfl, errors_le_append _ _⟩

theorem advance_declarationsLine {m : Method} (hblock : a.block = .declarations m) :
    Advance s line a (({ a with block := .outside } : Progress).declarationsLine s m line) ∧
      a.journal.errors ≤
        (({ a with block := .outside } : Progress).declarationsLine s m line).journal.errors := by
  unfold declarationsLine
  split_ifs
  · exact ⟨.idle rfl (by rw [hblock]; rfl) rfl, Nat.le_refl _⟩
  · exact ⟨.slots hblock rfl rfl rfl, errors_le_append _ _⟩

theorem advance_rejectedLine {closing : Closing} {within : Option Method}
    (hblock : a.block = .rejected closing within) :
    Advance s line a (({ a with block := .outside } : Progress).rejectedLine s closing within line) ∧
      a.journal.errors ≤ (({ a with block := .outside } : Progress).rejectedLine s closing within
        line).journal.errors := by
  have hresumed : (Block.resumed within).method? = a.block.method? := by
    rw [hblock]
    cases within <;> rfl
  unfold rejectedLine
  dsimp only
  split_ifs
  · exact ⟨.idle rfl hresumed rfl, errors_le_append _ _⟩
  · exact ⟨.idle rfl (by rw [hblock]; rfl) rfl, errors_le_append _ _⟩

/-- Every step is one of the things a line can do, and takes back no error. -/
theorem advance_of_step (h : a.step s line = .ok a') :
    Advance s line a a' ∧ a.journal.errors ≤ a'.journal.errors := by
  unfold step at h
  dsimp only at h
  cases hblock : a.block with
  | outside =>
    have hself : ({ a with block := .outside } : Progress) = a := by rw [← hblock]
    rw [hblock, hself] at h
    exact advance_outsideLine hblock h
  | constants =>
    have hself : ({ a with block := .constants } : Progress) = a := by rw [← hblock]
    simp only [hblock, hself] at h
    split_ifs at h
    · cases h
      exact ⟨.idle rfl (by rw [hblock]; rfl) rfl, Nat.le_refl _⟩
    · cases h
      exact ⟨.idle rfl rfl rfl, Nat.le_refl _⟩
    · cases h
      exact advance_constantLine hblock
  | body m started =>
    rw [hblock] at h
    cases h
    exact advance_bodyLine hblock
  | declarations m =>
    rw [hblock] at h
    cases h
    exact advance_declarationsLine hblock
  | rejected closing within =>
    rw [hblock] at h
    cases h
    exact advance_rejectedLine hblock

/-- What holds of a run and is kept by every step holds after any lines. -/
theorem readLines_induction {P : Progress → Prop} (h : P a) {lines : List Source.Line}
    (hstep : ∀ line ∈ lines, ∀ b b', P b → b.step s line = .ok b' → P b')
    (hread : readLines s a lines = .ok a') : P a' := by
  induction lines generalizing a with
  | nil =>
    cases hread
    exact h
  | cons line rest ih =>
    obtain ⟨hline, hrest⟩ := List.forall_mem_cons.1 hstep
    unfold readLines at hread
    cases hnext : a.step s line with
    | error abort =>
      rw [hnext] at hread
      cases hread
    | ok next =>
      rw [hnext] at hread
      exact ih (hline a next h hnext) hrest hread

def methods (a : Progress) : List Method := a.program.methods.toList ++ a.block.method?.toList

theorem methods_of_outside (h : a.block = .outside) : a.methods = a.program.methods.toList := by
  rw [methods, h]
  exact List.append_nil _

theorem getElem?_methods_of_open {m : Method} (h : a.block.method? = some m) :
    a.methods[a.program.methods.size]? = some m := by
  rw [methods, h, ← Array.length_toList]
  exact List.getElem?_concat_length

end Progress

inductive Turn (s : Setup) (line : Source.Line) (a : Progress) : Method → Method → Prop
  | statement {m : Method} {started : Bool} (within : a.block = .body m started) :
      Turn s line a m (statement s a.program m line.text line.number).1
  | slots {m : Method} (within : a.block = .declarations m) (names : List String) :
      Turn s line a m (Progress.declareAll s line.number m names).1
  | closing {m : Method} {started : Bool} (within : a.block = .body m started) :
      Turn s line a m m.sealed

inductive Course (s : Setup) (line : Source.Line) (a : Progress) : List Method → Prop
  | same : Course s line a a.methods
  | opened (name : String) (parameters : List String) (isEntry : Bool) :
      Course s line a (a.methods ++ [.build name parameters line.number isEntry])
  | turned {m m' : Method} (turn : Turn s line a m m') :
      Course s line a (a.program.methods.toList ++ [m'])

variable {s : Setup} {line : Source.Line} {a a' : Progress} {m m' : Method}

theorem Turn.methods_eq (h : Turn s line a m m') : a.methods = a.program.methods.toList ++ [m] := by
  cases h with
  | statement within => rw [Progress.methods, within]; rfl
  | slots within => rw [Progress.methods, within]; rfl
  | closing within => rw [Progress.methods, within]; rfl

theorem Advance.course (h : Advance s line a a') : Course s line a a'.methods := by
  have hopened : ∀ name parameters isEntry, a.block = .outside → a'.program = a.program →
      a'.block = .body (.build name parameters line.number isEntry) false →
      Course s line a a'.methods := by
    intro name parameters isEntry hwithin hprogram hblock
    have hmethods : a'.methods = a.methods ++ [.build name parameters line.number isEntry] := by
      rw [Progress.methods_of_outside hwithin, Progress.methods, hprogram, hblock]
      rfl
    rw [hmethods]
    exact .opened name parameters isEntry
  have hturned : ∀ {m m'}, Turn s line a m m' → a'.program = a.program →
      a'.block.method? = some m' → Course s line a a'.methods := by
    intro m m' hturn hprogram hblock
    rw [Progress.methods, hprogram, hblock]
    exact .turned hturn
  cases h with
  | idle program block _ =>
    rw [Progress.methods, program, block]
    exact .same
  | constant within _ program block _ =>
    have hmethods : a'.methods = a.methods := by
      rw [Progress.methods, Progress.methods, program, block, within]
    rw [hmethods]
    exact .same
  | main within _ program block _ => exact hopened _ _ _ within program block
  | method within _ program block _ _ => exact hopened _ _ _ within program block
  | statement within program block _ _ =>
    exact hturned (.statement within) program (by rw [block]; rfl)
  | slots within program block _ => exact hturned (.slots within _) program (by rw [block]; rfl)
  | @closing m started within program block _ =>
    have hmethods : a'.methods = a.program.methods.toList ++ [m.sealed] := by
      rw [Progress.methods_of_outside block, program, Array.toList_push]
    rw [hmethods]
    exact .turned (.closing within)

/-- A line declares at most one constant. -/
theorem Advance.constants (h : Advance s line a a') :
    a'.program.constants = a.program.constants ∨
      ∃ c : Constant, Declarable a.program c ∧
        a'.program.constants = a.program.constants.push c := by
  cases h with
  | idle program => exact .inl (by rw [program])
  | constant _ declared program => exact .inr ⟨_, declared, by rw [program]⟩
  | main _ _ program => exact .inl (by rw [program])
  | method _ _ program => exact .inl (by rw [program])
  | statement _ program => exact .inl (by rw [program])
  | slots _ program => exact .inl (by rw [program])
  | closing _ program => exact .inl (by rw [program])

end IjvmAsm.Assembly
