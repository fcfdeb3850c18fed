import IjvmAsm.Proofs.Assembly.Probe
import IjvmAsm.Proofs.Assembly.SpelledOut

/-!
# Where no operation has to be inserted

A run that inserts no operations and reports no error has been given each of them where a slot needs
one. Then a run that could insert them has nothing to insert: what is read without the setting is
read with it, and what is reported comes to the same.
-/

namespace IjvmAsm.Assembly

variable {s : Setup} {p : Program} {m : Method}

theorem slotArgument_of_narrow {token : String} {r : Argument × Bool}
    (h : slotArgument s.narrow m token = .ok r) : slotArgument s m token = .ok r := by
  unfold slotArgument at h ⊢
  cases hfind : m.findVariable? token with
  | none =>
    rw [hfind] at h
    cases h
  | some v =>
    simp only [hfind] at h ⊢
    have hsetting : s.narrow.autoWide = false := rfl
    split_ifs at h with hmax hreached hauto
    · rw [if_neg hmax, if_pos hreached]
      exact h
    -- Without the setting a slot that needs an operation is refused.
    · cases hsetting.symm.trans hauto

theorem readArgument_of_narrow {kind : OperandKind} {token : String} {r : Argument × Bool}
    (h : readArgument s.narrow p m kind token = .ok r) : readArgument s p m kind token = .ok r := by
  cases kind with
  | var => exact slotArgument_of_narrow h
  | byte | label | method | constant => exact h

theorem readArguments_of_narrow {operands : List (OperandKind × String)}
    {r : List Argument × Bool} (h : readArguments s.narrow p m operands = .ok r) :
    readArguments s p m operands = .ok r := by
  induction operands generalizing r with
  | nil => exact h
  | cons operand rest ih =>
    obtain ⟨kind, token⟩ := operand
    rw [readArguments] at h ⊢
    cases hfirst : readArgument s.narrow p m kind token with
    | error cause =>
      rw [hfirst] at h
      cases h
    | ok first =>
      cases hrest : readArguments s.narrow p m rest with
      | error cause =>
        rw [hfirst, hrest] at h
        cases h
      | ok more =>
        rw [hfirst, hrest] at h
        rw [readArgument_of_narrow hfirst, ih hrest]
        exact h

theorem readInstruction_of_narrow {text name : String} {tokens : List String} {r : Reading}
    (h : readInstruction s.narrow p m text name tokens = .ok r) :
    readInstruction s p m text name tokens = .ok r := by
  have hset : s.narrow.set = s.set := rfl
  unfold readInstruction at h ⊢
  rw [hset] at h
  cases hfind : s.set.find? name with
  | none =>
    rw [hfind] at h
    cases h
  | some op =>
    simp only [hfind] at h ⊢
    split_ifs at h ⊢ with hcount
    cases hread : readArguments s.narrow p m (op.operands.zip tokens) with
    | error cause =>
      rw [hread] at h
      cases h
    | ok result =>
      rw [hread] at h
      rw [readArguments_of_narrow hread]
      exact h

theorem action_of_narrow {text : String} {line : Nat}
    (hquiet : Quiet (action s.narrow p m text line).2) :
    action s p m text line = action s.narrow p m text line := by
  unfold action at hquiet ⊢
  split_ifs at hquiet ⊢ with hempty hdirective
  · rfl
  · rfl
  · unfold instruction at hquiet ⊢
    cases htokens : Source.tokensOf text with
    | nil => rfl
    | cons name tokens =>
      simp only [htokens] at hquiet ⊢
      cases hread : readInstruction s.narrow p m text name tokens with
      | error problem =>
        have herror := severity_of_readInstruction hread
        rw [hread, quiet_cons, Setup.problem, Problem.isError_event, herror] at hquiet
        cases hquiet.1
      | ok r => rw [readInstruction_of_narrow hread]

theorem statement_of_narrow {text : String} {line : Nat}
    (hquiet : Quiet (statement s.narrow p m text line).2) :
    statement s p m text line = statement s.narrow p m text line := by
  unfold statement at hquiet ⊢
  cases hsplit : splitLabel text with
  | none =>
    rw [hsplit] at hquiet
    exact action_of_narrow hquiet
  | some parts =>
    obtain ⟨name, rest⟩ := parts
    have hdefine : defineLabel s.narrow m name line = defineLabel s m name line := rfl
    simp only [hsplit, hdefine] at hquiet ⊢
    rw [action_of_narrow (quiet_append.1 hquiet).2]

def noted : Except Abort Progress → Journal
  | .error abort => abort.journal
  | .ok a => a.journal

namespace Progress

variable {a : Progress} {line : Source.Line}

theorem journal_of_openMethod {declaration : String} {n : Nat} {abort : Abort}
    (h : a.openMethod s n declaration = .error abort) : abort.journal = a.journal := by
  unfold openMethod at h
  split_ifs at h
  cases hparse : Source.MethodHeader.parse declaration with
  | error cause =>
    rw [hparse] at h
    cases h
    rfl
  | ok header =>
    rw [hparse] at h
    cases h

theorem errors_le_of_step_error {abort : Abort} (h : a.step s line = .error abort) :
    a.journal.errors ≤ abort.journal.errors := by
  unfold step at h
  cases hblock : a.block with
  | outside =>
    rw [hblock] at h
    simp only [outsideLine] at h
    split_ifs at h
    split at h
    · rw [journal_of_openMethod h]
      exact errors_le_append _ _
    · cases h
  | constants =>
    rw [hblock] at h
    dsimp only at h
    split_ifs at h
  | body m started =>
    rw [hblock] at h
    cases h
  | declarations m =>
    rw [hblock] at h
    cases h
  | rejected closing within =>
    rw [hblock] at h
    cases h

/-- A line takes back no error, not even one at which the run ends. -/
theorem errors_le_noted_step (s : Setup) (a : Progress) (line : Source.Line) :
    a.journal.errors ≤ (noted (a.step s line)).errors := by
  cases hstep : a.step s line with
  | ok a' => exact (advance_of_step hstep).2
  | error abort => exact errors_le_of_step_error hstep

theorem errors_le_noted_readLines (s : Setup) (a : Progress) (lines : List Source.Line) :
    a.journal.errors ≤ (noted (readLines s a lines)).errors := by
  induction lines generalizing a with
  | nil => exact Nat.le_refl _
  | cons line rest ih =>
    have hline := errors_le_noted_step s a line
    rw [readLines]
    cases hstep : a.step s line with
    | error abort =>
      rw [hstep] at hline
      exact hline
    | ok a' =>
      rw [hstep] at hline
      exact Nat.le_trans hline (ih a')

theorem step_of_narrow (hquiet : (noted (a.step s.narrow line)).errors = 0) :
    a.step s line = a.step s.narrow line := by
  unfold step at hquiet ⊢
  cases hblock : a.block with
  | outside => rfl
  | constants => rfl
  | body m started =>
    simp only [hblock, bodyLine] at hquiet ⊢
    split_ifs at hquiet ⊢ with hclosing hempty hopening hstarted
    · rfl
    · rfl
    · rfl
    · rfl
    · rw [statement_of_narrow (Journal.quiet_of_errors_appendList hquiet)]
  | declarations m => simp only [declarationsLine, declareAll_narrow]
  | rejected closing within => rfl

end Progress

theorem readLines_of_narrow {a : Progress} {lines : List Source.Line}
    (hquiet : (noted (readLines s.narrow a lines)).errors = 0) :
    readLines s a lines = readLines s.narrow a lines := by
  induction lines generalizing a with
  | nil => rfl
  | cons line rest ih =>
    have hline : (noted (a.step s.narrow line)).errors = 0 := by
      rw [readLines] at hquiet
      cases hstep : a.step s.narrow line with
      | error abort =>
        rw [hstep] at hquiet
        exact hquiet
      | ok a' =>
        rw [hstep] at hquiet
        have hle := Progress.errors_le_noted_readLines s.narrow a' rest
        rw [hquiet] at hle
        exact Nat.le_zero.1 hle
    rw [readLines, readLines, Progress.step_of_narrow hline]
    rw [readLines] at hquiet
    cases hstep : a.step s.narrow line with
    | error abort => rfl
    | ok a' =>
      rw [hstep] at hquiet
      exact ih hquiet

theorem errors_le_finish (s : Setup) (a : Progress) (n : Nat) :
    a.journal.errors ≤ (a.finish s n).errors := by
  unfold Progress.finish Outcome.errors
  split
  · exact Nat.le_refl _
  · dsimp only
    rw [Journal.errors_push, Journal.errors_append, Nat.add_assoc]
    exact Nat.le_add_right _ _

/-- A run reports what its lines report. -/
theorem errors_noted_le_run (s : Setup) (source : Bytes) :
    (noted (readLines s {} (Source.Lines.ofBytes source).lines)).errors ≤
      (run s source).errors := by
  unfold run
  dsimp only
  cases readLines s {} (Source.Lines.ofBytes source).lines with
  | error abort => exact Nat.le_refl _
  | ok a =>
    dsimp only
    split_ifs
    · exact errors_le_finish s a _
    · exact Nat.le_refl _

/-- A source without errors gives the same program, with all that is noted on the way, whether or
not operations may be inserted that widen. -/
theorem run_eq_run_narrow (s : Setup) (source : Bytes) (h : (run s.narrow source).errors = 0) :
    run s source = run s.narrow source := by
  have hread := readLines_of_narrow (a := {})
    (Nat.le_zero.1 (h ▸ errors_noted_le_run s.narrow source))
  unfold run
  dsimp only
  rw [hread]
  rfl

/-- Loads the variable in slot 256 behind an operation that widens. -/
def prefixed : List String := declaring ++ [Operation.wideName, "ILOAD x", Closing.main.text]

def autoWidening : Setup := { file := "t.jas", autoWide := true }

def prefixedMethod (m : Method) : Method :=
  (m.push { operation := ⟨Operation.wideName, 0xC4, []⟩, arguments := [], line := 8 }).push
    { operation := ⟨"ILOAD", 0x15, [.var]⟩, arguments := [.resolved 256], line := 9 }

theorem found_autoWidening :
    autoWidening.narrow.set.find? Operation.wideName = some ⟨Operation.wideName, 0xC4, []⟩ ∧
      autoWidening.narrow.set.find? "ILOAD" = some ⟨"ILOAD", 0x15, [.var]⟩ := by decide +kernel

theorem readInstruction_load (hslot : m.findVariable? "x" = some ⟨"x", 256⟩)
    (hwide : m.widensNext = true) :
    readInstruction autoWidening.narrow p m "ILOAD x" "ILOAD" ["x"] =
      .ok ⟨⟨"ILOAD", 0x15, [.var]⟩, [.resolved 256], none⟩ := by
  have hargument : readArgument autoWidening.narrow p m .var "x" = .ok (.resolved 256, false) := by
    simp [readArgument, slotArgument, hslot, hwide, maxWideSlot]
  have hread : readArguments autoWidening.narrow p m [(.var, "x")] =
      .ok ([.resolved 256], false) := by
    rw [readArguments, hargument]
    rfl
  simp only [readInstruction, found_autoWidening.2, List.length_singleton, ne_eq, not_true_eq_false,
    ↓reduceIte, List.zip_cons_cons, List.zip_nil_left, hread]

theorem isEntry_prefixedMethod : (prefixedMethod m).isEntry = m.isEntry := rfl

theorem reads_prefixed (h : Roomy m) :
    Reads autoWidening.narrow ⟨p, true, true, .body m true, #[]⟩
      [⟨8, Operation.wideName⟩, ⟨9, "ILOAD x"⟩, ⟨10, Closing.main.text⟩]
      ⟨{ p with methods := p.methods.push (prefixedMethod m).sealed }, true, true, .outside, #[]⟩
      [] := by
  have hstatement : IsStatement "ILOAD x" := by
    refine ⟨by decide, fun closing => ?_, by decide⟩
    cases closing <;> decide
  have hwide := @passes_instruction autoWidening.narrow p true true true m 8 _ _ _ _ _
    isStatement_wide (by decide) (by decide) (by decide)
    (readInstruction_wide found_autoWidening.1 rfl)
  have hload := @passes_instruction autoWidening.narrow p true true true
    (m.push { operation := ⟨Operation.wideName, 0xC4, []⟩, arguments := [], line := 8 }) 9
    _ _ _ _ _ hstatement (by decide) (by decide) (by decide)
    (readInstruction_load h.slot rfl)
  have hend := @passes_bodyClosing autoWidening.narrow p true true true (prefixedMethod m) 10
  have hentry : (prefixedMethod m).isEntry = true := isEntry_prefixedMethod.trans h.isEntry
  rw [Block.bodyClosing, if_pos hentry] at hend
  exact .cons hwide (.cons hload (.cons hend (.nil _)))

theorem pending_notMem_prefixedMethod (h : Roomy m) (hempty : m.instructions = #[])
    (i : Instruction) (hi : i ∈ (prefixedMethod m).sealed.instructions) (reference : Reference) :
    .pending reference ∉ i.arguments := by
  have hlaid : (prefixedMethod m).LaidOut := ((h.grown autoWidening).laidOut.push rfl).push rfl
  rw [hlaid.instructions_sealed] at hi
  rcases Array.mem_push.1 hi with hi | rfl
  · rcases Array.mem_push.1 hi with hi | rfl
    · rw [hempty] at hi
      exact absurd hi (Array.not_mem_empty i)
    · exact List.not_mem_nil
  · intro hmem
    cases List.mem_singleton.1 hmem

theorem ofBytes_prefixed : Source.Lines.ofBytes (Text.unlines prefixed) =
    ⟨Source.numbered 0 declaring ++
      [⟨8, Operation.wideName⟩, ⟨9, "ILOAD x"⟩, ⟨10, Closing.main.text⟩], true⟩ := by
  have hunbroken : ∀ text ∈ prefixed, '\n' ∉ text.toList ∧ '\r' ∉ text.toList := by
    intro text htext
    rcases List.mem_append.1 htext with htext | htext
    · exact unbroken_of_plain (plain_of_mem_declaring text htext)
    · simp only [List.mem_cons, List.not_mem_nil, or_false] at htext
      rcases htext with rfl | rfl | rfl
      · exact unbroken_of_plain (by decide)
      · exact unbroken_of_plain (by decide)
      · exact unbroken_of_plain (by decide)
  have hclean : Source.Line.clean Operation.wideName = Operation.wideName ∧
      Source.Line.clean "ILOAD x" = "ILOAD x" ∧
      Source.Line.clean Closing.main.text = Closing.main.text := by decide
  have hlines : Source.numbered 0 prefixed = Source.numbered 0 declaring ++
      [⟨8, Source.Line.clean Operation.wideName⟩, ⟨9, Source.Line.clean "ILOAD x"⟩,
        ⟨10, Source.Line.clean Closing.main.text⟩] := rfl
  rw [Source.Lines.ofBytes, Text.ofBytes_unlines hunbroken, hlines, hclean.1, hclean.2.1,
    hclean.2.2]

theorem errors_prefixed : (run autoWidening.narrow (Text.unlines prefixed)).errors = 0 := by
  obtain ⟨reported, hquiet, hdeclares⟩ := reads_declaring autoWidening.narrow
  have hreads := hdeclares.append (reads_prefixed roomy_populated)
  obtain ⟨events, hevents, hread⟩ := hreads.readLines #[]
  obtain ⟨_, herrors⟩ := run_of_readLines (by rw [ofBytes_prefixed]; exact hread)
    (by rw [ofBytes_prefixed]) rfl
  rw [herrors, Nat.add_eq_zero_iff]
  constructor
  · rw [Journal.errors_eq_zero_iff, Array.toList_appendList, List.nil_append, quiet_iff_severities,
      hevents, List.append_nil]
    exact hquiet
  · have hentry := isEntry_prefixedMethod.trans roomy_populated.isEntry
    exact (Program.errors_link_eq_zero_iff _ _).2 (linkable_of_entry hentry
      (pending_notMem_prefixedMethod roomy_populated instructions_populated))

theorem run_eq_run_narrow_prefixed : (run autoWidening.narrow (Text.unlines prefixed)).errors = 0 ∧
    run autoWidening (Text.unlines prefixed) = run autoWidening.narrow (Text.unlines prefixed) :=
  ⟨errors_prefixed, run_eq_run_narrow autoWidening _ errors_prefixed⟩

end IjvmAsm.Assembly
