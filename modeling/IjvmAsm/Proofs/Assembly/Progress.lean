import IjvmAsm.Proofs.Assembly.Advance
import IjvmAsm.Proofs.Assembly.Growth

/-!
# Runs, line by line

What holds of a run after every line: the entry method comes first and only first, every method has
grown as methods do, and all of them are named by identifiers if no error has been reported.
-/

namespace IjvmAsm.Assembly

inductive Led : Bool → List Method → Prop
  | nil : Led false []
  | cons {entry : Method} {others : List Method} (hentry : entry.isEntry = true)
      (hothers : ∀ m ∈ others, m.isEntry = false) : Led true (entry :: others)

variable {s : Setup}

theorem Led.grows {seen : Bool} {ms ms' : List Method} (h : Led seen ms)
    (hall : List.Forall₂ (Grows s) ms ms') : Led seen ms' := by
  cases h with
  | nil =>
    cases hall
    exact .nil
  | cons hentry hothers =>
    obtain _ | ⟨hfirst, hrest⟩ := hall
    refine .cons (hfirst.isEntry.trans hentry) fun m hm => ?_
    obtain ⟨m', hm', hgrows⟩ := exists_of_mem_right hrest hm
    exact hgrows.isEntry.trans (hothers m' hm')

theorem Led.snoc {ms : List Method} (h : Led true ms) {m : Method} (hm : m.isEntry = false) :
    Led true (ms ++ [m]) := by
  cases h with
  | cons hentry hothers =>
    refine .cons hentry fun m' hm' => ?_
    rcases List.mem_append.1 hm' with hm' | hm'
    · exact hothers m' hm'
    · rw [List.mem_singleton.1 hm', hm]

theorem Led.eq_nil {ms : List Method} (h : Led false ms) : ms = [] := by
  cases h
  rfl

namespace Progress

/-- What holds of a run after every line. -/
structure Sound (s : Setup) (a : Progress) : Prop where
  led : Led a.mainSeen a.methods
  grown : ∀ m ∈ a.methods, Grown s m
  named : a.journal.errors = 0 → ∀ m ∈ a.methods, Source.isIdentifier m.name = true

variable {a a' : Progress}

theorem sound_start (s : Setup) : Sound s {} := ⟨.nil, nofun, nofun⟩

/-- A step that opens no method keeps what holds. -/
theorem Sound.of_grows (h : Sound s a) (hmethods : List.Forall₂ (Grows s) a.methods a'.methods)
    (hseen : a'.mainSeen = a.mainSeen) (hjournal : a.journal.errors ≤ a'.journal.errors) :
    Sound s a' := by
  refine ⟨?_, fun m' hm' => ?_, fun herrors m' hm' => ?_⟩
  · rw [hseen]
    exact h.led.grows hmethods
  · obtain ⟨m, hm, hgrows⟩ := exists_of_mem_right hmethods hm'
    exact hgrows.grown (h.grown m hm)
  · obtain ⟨m, hm, hgrows⟩ := exists_of_mem_right hmethods hm'
    rw [hgrows.name]
    exact h.named (by omega) m hm

theorem Sound.of_methods_eq (h : Sound s a) (hmethods : a'.methods = a.methods)
    (hseen : a'.mainSeen = a.mainSeen) (hjournal : a.journal.errors ≤ a'.journal.errors) :
    Sound s a' := by
  refine h.of_grows ?_ hseen hjournal
  rw [hmethods]
  exact List.forall₂_same.2 fun m _ => .refl s m

/-- A step that opens a method. -/
theorem Sound.opening (h : Sound s a) (hblock : a.block = .outside) {m : Method} {started : Bool}
    (hprogram : a'.program = a.program) (hbody : a'.block = .body m started)
    (hled : Led a'.mainSeen (a.methods ++ [m])) (hgrown : Grown s m)
    (hjournal : a.journal.errors ≤ a'.journal.errors)
    (hname : a'.journal.errors = 0 → Source.isIdentifier m.name = true) : Sound s a' := by
  have hmethods : a'.methods = a.methods ++ [m] := by
    rw [methods, methods, hprogram, hbody, hblock]
    simp only [Block.method?, Option.toList_none, List.append_nil, Option.toList_some]
  refine ⟨?_, ?_, fun herrors => ?_⟩
  · rw [hmethods]
    exact hled
  · rw [hmethods]
    exact List.forall_mem_append.2 ⟨h.grown, List.forall_mem_singleton.2 hgrown⟩
  · rw [hmethods]
    exact List.forall_mem_append.2
      ⟨h.named (by omega), List.forall_mem_singleton.2 (hname herrors)⟩

/-- A step in the method that is open. -/
theorem Sound.of_grows_open (h : Sound s a) {m m' : Method} (hopen : a.block.method? = some m)
    (hgrows : Grows s m m') (hmethods : a'.methods = a.program.methods.toList ++ [m'])
    (hseen : a'.mainSeen = a.mainSeen) (hjournal : a.journal.errors ≤ a'.journal.errors) :
    Sound s a' := by
  refine h.of_grows ?_ hseen hjournal
  rw [hmethods, methods, hopen]
  exact List.rel_append (List.forall₂_same.2 fun m _ => .refl s m) (.cons hgrows .nil)

/-- Whatever a line does keeps what holds. -/
theorem Sound.advance (h : Sound s a) {line : Source.Line}
    (hsolid : Text.StartsSolid line.text.toList) (hadvance : Advance s line a a')
    (hjournal : a.journal.errors ≤ a'.journal.errors) : Sound s a' := by
  cases hadvance with
  | idle program block seen =>
    refine h.of_methods_eq ?_ seen hjournal
    rw [methods, methods, program, block]
  | constant within declared program block seen =>
    refine h.of_methods_eq ?_ seen hjournal
    rw [methods, methods, program, block, within]
  | main within first program block seen =>
    obtain ⟨hname, hentry, hgrown⟩ := grown_build s Method.entryName [] line.number true
    have hled := h.led
    rw [first] at hled
    refine h.opening within program block ?_ hgrown hjournal fun _ => ?_
    · rw [hled.eq_nil, seen]
      exact .cons hentry fun _ hlater => absurd hlater List.not_mem_nil
    · rw [Method.entry, hname]
      decide
  | @method header within later program block seen named =>
    obtain ⟨hname, hentry, hgrown⟩ :=
      grown_build s header.name header.parameters line.number false
    have hled := h.led
    rw [later] at hled
    refine h.opening within program block ?_ hgrown hjournal fun herrors => ?_
    · rw [seen]
      exact hled.snoc hentry
    · rw [Method.named, hname]
      exact named herrors
  | statement within program block seen _ =>
    refine h.of_grows_open (by rw [within]; rfl)
      (grows_statement (p := a.program) line.number hsolid) ?_ seen hjournal
    rw [methods, program, block]
    rfl
  | @slots m names within program block seen =>
    refine h.of_grows_open (by rw [within]; rfl)
      (changes_declareAll s a.program line.number m names).grows ?_ seen hjournal
    rw [methods, program, block]
    rfl
  | @closing m started within program block seen =>
    refine h.of_grows_open (by rw [within]; rfl) (grows_sealed s m) ?_ seen hjournal
    rw [methods, program, block]
    simp only [Array.toList_push, Block.method?, Option.toList_none, List.append_nil]

theorem Sound.readLines (h : Sound s a) {lines : List Source.Line}
    (hsolid : ∀ line ∈ lines, Text.StartsSolid line.text.toList)
    (hread : readLines s a lines = .ok a') : Sound s a' :=
  readLines_induction h (fun line hline _ _ hsound hstep =>
    hsound.advance (hsolid line hline) (advance_of_step hstep).1 (advance_of_step hstep).2) hread

end Progress

theorem startsSolid_of_mem_numbered {last : Nat} {texts : List String} {line : Source.Line}
    (h : line ∈ Source.numbered last texts) : Text.StartsSolid line.text.toList := by
  induction texts generalizing last with
  | nil => cases h
  | cons text rest ih =>
    rcases List.mem_cons.1 h with rfl | hline
    · rw [Source.Line.clean, String.toList_ofList]
      exact Text.startsSolid_trimBlanks _
    · exact ih hline

theorem startsSolid_of_mem_lines {source : Bytes} {line : Source.Line}
    (h : line ∈ (Source.Lines.ofBytes source).lines) : Text.StartsSolid line.text.toList :=
  startsSolid_of_mem_numbered h

/-- A run that gives a program has read all lines, the last of which left it outside of all blocks,
and linked what they came to. -/
theorem exists_journal_of_run {source : Bytes} {p : Program} (h : (run s source).result = .ok p) :
    ∃ (a : Progress) (text : String),
      readLines s {} (Source.Lines.ofBytes source).lines = .ok a ∧ a.block = .outside ∧
      p = (a.program.link s.file).1 ∧
      (run s source).journal =
        (a.journal ++ (a.program.link s.file).2).push (.remark .info text) := by
  unfold run at h ⊢
  dsimp only at h ⊢
  cases hread : readLines s {} (Source.Lines.ofBytes source).lines with
  | error abort =>
    simp only [hread] at h
    cases h
  | ok a =>
    simp only [hread] at h ⊢
    split_ifs at h ⊢ with hintact
    unfold Progress.finish at h ⊢
    -- A source that ends in a block gives no program.
    cases hblock : a.block with
    | outside =>
      simp only [hblock, Block.closing?] at h ⊢
      cases h
      exact ⟨a, _, rfl, hblock, rfl, rfl⟩
    | constants => simp [hblock, Block.closing?] at h
    | body m started => simp [hblock, Block.closing?] at h
    | declarations m => simp [hblock, Block.closing?] at h
    | rejected closing within => simp [hblock, Block.closing?] at h

theorem exists_read_of_run {source : Bytes} {p : Program} (h : (run s source).result = .ok p) :
    ∃ a : Progress, readLines s {} (Source.Lines.ofBytes source).lines = .ok a ∧
      a.block = .outside ∧ p = (a.program.link s.file).1 ∧
      (run s source).errors = a.journal.errors + (a.program.link s.file).2.errors := by
  obtain ⟨a, text, hread, hblock, hlink, hjournal⟩ := exists_journal_of_run h
  refine ⟨a, hread, hblock, hlink, ?_⟩
  rw [Outcome.errors, hjournal, Journal.errors_push, Journal.errors_append]
  rfl

theorem exists_sound_of_run {source : Bytes} {p : Program} (h : (run s source).result = .ok p) :
    ∃ a : Progress, Progress.Sound s a ∧ a.methods = a.program.methods.toList ∧
      p = (a.program.link s.file).1 ∧
      (run s source).errors = a.journal.errors + (a.program.link s.file).2.errors := by
  obtain ⟨a, hread, hblock, hlink, herrors⟩ := exists_read_of_run h
  exact ⟨a, (Progress.sound_start s).readLines (fun _ => startsSolid_of_mem_lines) hread,
    Progress.methods_of_outside hblock, hlink, herrors⟩

end IjvmAsm.Assembly
