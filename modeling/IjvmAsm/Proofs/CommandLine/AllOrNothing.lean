import IjvmAsm.CommandLine.Assembler
import IjvmAsm.Proofs.CommandLine.Storing

/-!
# All or nothing

Assembling comes to a whole image or leaves all files as they are. Each of the steps on the way can
fail, and a failure of any of them ends the run with an error before anything is stored. If the
machine stores a file whole or refuses it, then an error leaves the directory unchanged, also where
the image is printed and this fails half way, and a success leaves the image, and nothing else, at
the place that was asked for.
-/

namespace IjvmAsm.CommandLine

/-- The machine stores a file whole or refuses to store it. -/
def StoresWhole (d : Directory) (store : Store) : Prop :=
  ∀ path content after, store path content = .ok after → d.write path content = .ok after

namespace Assembler

variable {o : Options} {reader : Reader} {set : InstructionSet} {source image : Bytes}
  {program : Program}

/-- What the options ask for, all of which goes well: the set is loaded, the source is read and
assembled without errors, unless errors are to be passed over, and the program has an image. -/
structure Yields (o : Options) (reader : Reader) (set : InstructionSet) (source : Bytes)
    (program : Program) (image : Bytes) : Prop where
  apart : ¬ (o.dumpProgram = true ∧ o.output = stdoutPath)
  loaded : (loadSet reader "Failed to load instruction set" o.config).2 = .ok set
  opened : reader o.input = .ok (.file source)
  assembled : (Assembly.run ⟨Path.shownName o.input, set, o.autoWide⟩ source).result = .ok program
  allowed : (Assembly.run ⟨Path.shownName o.input, set, o.autoWide⟩ source).errors = 0 ∨
    o.force = true
  rendered : (program.render o.force o.symbols).result = .ok image

/-- The image is handed over, and nothing was printed before it where it is printed. -/
def Delivers (o : Options) (image : Bytes) (r : Run) : Prop :=
  ∃ stdout stderr errors, r = deliver o stdout stderr errors image ∧
    (o.output = stdoutPath → stdout = [])

def Fails (r : Run) : Prop := ∃ stdout stderr causes, r = .ended (failure stdout stderr causes)

theorem failure?_eq_none_iff {outcome : Assembly.Outcome} :
    outcome.failure? = none ↔ outcome.errors = 0 := by
  unfold Assembly.Outcome.failure? Assembly.Outcome.succeeded
  by_cases herrors : outcome.errors = 0 <;> simp [herrors]

/-- Errors that are not passed over end the run. -/
theorem assemble_eq_emit {outcome : Assembly.Outcome}
    (houtcome : Assembly.run ⟨Path.shownName o.input, set, o.autoWide⟩ source = outcome)
    (hassembled : outcome.result = .ok program)
    (hallowed : outcome.errors = 0 ∨ o.force = true) (stderr : String) :
    ∃ stderr', assemble o stderr set source = emit o stderr' outcome.errors program := by
  unfold assemble
  simp only [houtcome, hassembled]
  cases hfailure : outcome.failure? with
  | none => exact ⟨_, rfl⟩
  | some text =>
    have hforce : o.force = true := by
      apply hallowed.resolve_left
      intro herrors
      rw [failure?_eq_none_iff.2 herrors] at hfailure
      cases hfailure
    simp only [hforce]
    exact ⟨_, rfl⟩

theorem delivers_emit (hapart : ¬ (o.dumpProgram = true ∧ o.output = stdoutPath))
    (hrendered : (program.render o.force o.symbols).result = .ok image) (stderr : String)
    (errors : Nat) : Delivers o image (emit o stderr errors program) := by
  unfold emit
  simp only [hrendered]
  refine ⟨_, _, _, rfl, fun houtput => ?_⟩
  rw [if_neg fun hdump => hapart ⟨hdump, houtput⟩]

theorem fails_emit {e : EmissionError}
    (hrendered : (program.render o.force o.symbols).result = .error e) (stderr : String)
    (errors : Nat) : Fails (emit o stderr errors program) := by
  unfold emit
  simp only [hrendered]
  exact ⟨_, _, _, rfl⟩

theorem delivers_of_yields (h : Yields o reader set source program image) :
    Delivers o image (run o reader) := by
  unfold run
  rw [if_neg h.apart]
  simp only [h.loaded, h.opened]
  obtain ⟨stderr, hassemble⟩ := assemble_eq_emit rfl h.assembled h.allowed
    (logText o.verbosity (loadSet reader "Failed to load instruction set" o.config).1)
  rw [hassemble]
  exact delivers_emit h.apart h.rendered _ _

/-- Assembling a source that gives no image fails. -/
theorem image_or_fails_assemble {outcome : Assembly.Outcome}
    (houtcome : Assembly.run ⟨Path.shownName o.input, set, o.autoWide⟩ source = outcome)
    (stderr : String) :
    (∃ program image, outcome.result = .ok program ∧ (outcome.errors = 0 ∨ o.force = true) ∧
      (program.render o.force o.symbols).result = .ok image) ∨
    Fails (assemble o stderr set source) := by
  cases hassembled : outcome.result with
  | error halt =>
    right
    simp only [assemble, houtcome, hassembled]
    exact ⟨_, _, _, rfl⟩
  | ok program =>
    by_cases hallowed : outcome.errors = 0 ∨ o.force = true
    · obtain ⟨stderr', hemit⟩ := assemble_eq_emit houtcome hassembled hallowed stderr
      rw [hemit]
      cases hrendered : (program.render o.force o.symbols).result with
      | error e => exact .inr (fails_emit hrendered _ _)
      | ok image => exact .inl ⟨program, image, rfl, hallowed, hrendered⟩
    · right
      rw [not_or, Bool.not_eq_true, ← failure?_eq_none_iff] at hallowed
      obtain ⟨text, hfailure⟩ := Option.ne_none_iff_exists'.1 hallowed.1
      simp only [assemble, houtcome, hassembled, hfailure, hallowed.2]
      exact ⟨_, _, _, rfl⟩

/-- A run that does not come to an image fails. -/
theorem yields_or_fails (o : Options) (reader : Reader) :
    (∃ set source program image, Yields o reader set source program image) ∨
      Fails (run o reader) := by
  unfold run
  by_cases hapart : o.dumpProgram = true ∧ o.output = stdoutPath
  · rw [if_pos hapart]
    exact .inr ⟨_, _, _, rfl⟩
  rw [if_neg hapart]
  cases hloaded : (loadSet reader "Failed to load instruction set" o.config).2 with
  | error causes =>
    right
    simp only [hloaded]
    exact ⟨_, _, _, rfl⟩
  | ok set =>
    simp only [hloaded]
    cases hopened : reader o.input with
    | error e => exact .inr ⟨_, _, _, rfl⟩
    | ok node =>
      cases node with
      | directory => exact .inr ⟨_, _, _, rfl⟩
      | file source =>
        apply (image_or_fails_assemble rfl _).imp_left
        rintro ⟨program, image, hassembled, hallowed, hrendered⟩
        exact ⟨set, source, program, image, hapart, hloaded, hopened, hassembled, hallowed,
          hrendered⟩

variable {d : Directory} {printer : Printer} {store : Store} {r : Run}

theorem within_of_fails (h : Fails r) :
    (r.within d printer store).1.code = 1 ∧ (r.within d printer store).2 = d := by
  obtain ⟨stdout, stderr, causes, rfl⟩ := h
  exact ⟨rfl, rfl⟩

theorem within_of_printed (h : Delivers o image r) (houtput : o.output = stdoutPath)
    (hprinted : printer image = .ok ()) :
    (r.within d printer store).1.code = 0 ∧ (r.within d printer store).1.stdout = image ∧
      (r.within d printer store).2 = d := by
  obtain ⟨stdout, stderr, errors, rfl, hstdout⟩ := h
  simp only [deliver, houtput, ↓reduceIte, Run.within, hstdout houtput, List.nil_append, hprinted,
    List.append_nil, and_self]

/-- Some of the image may have been printed then. -/
theorem within_of_interrupted (h : Delivers o image r) (houtput : o.output = stdoutPath)
    {taken : Nat} {e : FileError} (hinterrupted : printer image = .error (taken, e)) :
    (r.within d printer store).1.code = 1 ∧ (r.within d printer store).2 = d := by
  obtain ⟨stdout, stderr, errors, rfl, hstdout⟩ := h
  simp only [deliver, houtput, ↓reduceIte, Run.within, hstdout houtput, List.nil_append,
    hinterrupted, failure, and_self]

theorem within_of_stored (h : Delivers o image r) (houtput : o.output ≠ stdoutPath)
    {after : Directory} (hstored : store o.output image = .ok after) :
    (r.within d printer store).1.code = 0 ∧ (r.within d printer store).2 = after := by
  obtain ⟨stdout, stderr, errors, rfl, _⟩ := h
  simp only [deliver, houtput, ↓reduceIte, Run.within, hstored, and_self]

theorem within_of_refused (h : Delivers o image r) (houtput : o.output ≠ stdoutPath)
    {e : FileError} (hrefused : store o.output image = .error e) :
    (r.within d printer store).1.code = 1 ∧ (r.within d printer store).2 = d := by
  obtain ⟨stdout, stderr, errors, rfl, _⟩ := h
  simp only [deliver, houtput, ↓reduceIte, Run.within, hrefused, failure, and_self]

/-- The image is stored or printed whole, or nothing changes; and it is stored or printed whenever
there is one and the machine takes it. -/
theorem stored_whole_or_unchanged (o : Options) (reader : Reader) (printer : Printer)
    (hstore : StoresWhole d store) :
    let result := (run o reader).within d printer store
    (result.1.code ≠ 0 → result.2 = d) ∧
    (result.1.code = 0 → ∃ set source program image, Yields o reader set source program image ∧
      if o.output = stdoutPath then result.1.stdout = image ∧ result.2 = d
      else d.StoredAt result.2 o.output image) ∧
    ∀ set source program image, Yields o reader set source program image →
      (if o.output = stdoutPath then printer image = .ok ()
        else ∃ after, store o.output image = .ok after) → result.1.code = 0 := by
  intro result
  refine ⟨fun hcode => ?_, fun hcode => ?_, fun set source program image hyields htaken => ?_⟩
  · rcases yields_or_fails o reader with ⟨set, source, program, image, hyields⟩ | hfails
    · have hdelivers := delivers_of_yields hyields
      by_cases houtput : o.output = stdoutPath
      · cases hprinted : printer image with
        | ok => exact (within_of_printed hdelivers houtput hprinted).2.2
        | error stop => exact (within_of_interrupted hdelivers houtput hprinted).2
      · cases hstored : store o.output image with
        | ok after => exact absurd (within_of_stored hdelivers houtput hstored).1 hcode
        | error e => exact (within_of_refused hdelivers houtput hstored).2
    · exact (within_of_fails hfails).2
  · rcases yields_or_fails o reader with ⟨set, source, program, image, hyields⟩ | hfails
    · have hdelivers := delivers_of_yields hyields
      refine ⟨set, source, program, image, hyields, ?_⟩
      by_cases houtput : o.output = stdoutPath
      · rw [if_pos houtput]
        cases hprinted : printer image with
        | ok => exact (within_of_printed hdelivers houtput hprinted).2
        | error stop =>
          have hstopped : result.1.code = 1 := (within_of_interrupted hdelivers houtput hprinted).1
          exact absurd (hcode.symm.trans hstopped) (by decide)
      · rw [if_neg houtput]
        cases hstored : store o.output image with
        | ok after =>
          rw [(within_of_stored hdelivers houtput hstored).2]
          exact Directory.storedAt_of_write (hstore _ _ _ hstored)
        | error e =>
          have hrefused : result.1.code = 1 := (within_of_refused hdelivers houtput hstored).1
          exact absurd (hcode.symm.trans hrefused) (by decide)
    · exact absurd (hcode.symm.trans (within_of_fails hfails).1) (by decide)
  · have hdelivers := delivers_of_yields hyields
    by_cases houtput : o.output = stdoutPath
    · rw [if_pos houtput] at htaken
      exact (within_of_printed hdelivers houtput htaken).1
    · rw [if_neg houtput] at htaken
      obtain ⟨after, hstored⟩ := htaken
      exact (within_of_stored hdelivers houtput hstored).1

/-- The tool runs with the options that its arguments say, on the files of the directory. -/
theorem runIn_of_readArguments {arguments : List String} {input : String} {given : Given}
    (h : readArguments specs arguments = .ok (input, given)) (d : Directory) :
    assembler.runIn d arguments = (run (.of input given) d.read).within d .whole d.write := by
  have hspecs : assembler.specs = specs := rfl
  rw [Tool.runIn, Tool.start, hspecs, h]
  rfl

def desk : Directory :=
  ⟨[(["faulty.jas"], Utf8.encode ".main\nGOTO nowhere\nHALT\n.end-main\n"),
    (["old.ijvm"], [0x1D, 0xEA])]⟩

def closedPipe : Printer := fun _ => .error (2, .other "Broken pipe (os error 32)")

/-- Without force the image from before stays, with force it is replaced, and where the image is
printed and this fails behind its first bytes all is as before. -/
theorem stored_whole_or_unchanged_desk :
    StoresWhole desk desk.write ∧
    (assembler.runIn desk ["faulty.jas", "-o", "old.ijvm"]).2 = desk ∧
    (∃ image, desk.StoredAt (assembler.runIn desk ["-fd", "-o", "old.ijvm", "faulty.jas"]).2
      "old.ijvm" image) ∧
    ∃ o, o.output = stdoutPath ∧
      let result := (run o desk.read).within desk closedPipe desk.write
      result.1.code = 1 ∧ result.1.stdout = [0x1D, 0xEA] ∧ result.2 = desk := by
  let timid : Given := { operand := some "faulty.jas", values := [("output", "old.ijvm")] }
  let forced : Given := { timid with flags := ["debug-symbols", "force"] }
  let piped : Given := { flags := ["force"], values := [("output", stdoutPath)] }
  have hstore : StoresWhole desk desk.write := fun _ _ _ h => h
  have htimid : readArguments specs ["faulty.jas", "-o", "old.ijvm"] =
      .ok ("faulty.jas", timid) := by
    decide +kernel
  have hforced : readArguments specs ["-fd", "-o", "old.ijvm", "faulty.jas"] =
      .ok ("faulty.jas", forced) := by
    decide +kernel
  have hpiped :
      let result := (run (.of "faulty.jas" piped) desk.read).within desk closedPipe desk.write
      result.1.code = 1 ∧ result.1.stdout = [0x1D, 0xEA] := by
    decide +kernel
  rw [runIn_of_readArguments htimid, runIn_of_readArguments hforced]
  refine ⟨hstore, ?_, ?_, .of "faulty.jas" piped, rfl, hpiped.1, hpiped.2, ?_⟩
  · exact (stored_whole_or_unchanged (.of "faulty.jas" timid) desk.read .whole hstore).1
      (by decide +kernel)
  · obtain ⟨_, _, _, image, _, hstored⟩ :=
      (stored_whole_or_unchanged (.of "faulty.jas" forced) desk.read .whole hstore).2.1
        (by decide +kernel)
    rw [if_neg (by decide)] at hstored
    exact ⟨image, hstored⟩
  · apply (stored_whole_or_unchanged (.of "faulty.jas" piped) desk.read closedPipe hstore).1
    rw [hpiped.1]
    decide

end Assembler

end IjvmAsm.CommandLine
