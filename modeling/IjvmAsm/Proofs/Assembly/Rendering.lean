import IjvmAsm.Proofs.Assembly.Fit
import IjvmAsm.Proofs.Image.RoundTrip
import IjvmAsm.Proofs.Program.Limited
import IjvmAsm.Proofs.Program.Linkage

/-!
# What an assembled program is rendered to

A program without errors is rendered unless a header cannot hold a count or an operand cannot hold
the index of a constant. These are the only limits that nothing checks before, and the only ones
that a rendering fails for.
-/

namespace IjvmAsm

theorem Output.result_eq_error_iff {o : Output} {error : EmissionError} :
    o.result = .error error ↔ o.failure = some error := by
  unfold Output.result
  cases o.failure with
  | none => simp
  | some first => simp

def HeaderField.count (m : Method) : HeaderField → Nat
  | parameters => m.parameterCount
  | locals => m.localCount

theorem Method.fitsHeader_iff {m : Method} :
    m.FitsHeader ↔ m.parameterCount ≤ 0xFFFF ∧ m.localCount ≤ 0xFFFF := by
  rw [FitsHeader]
  omega

theorem Method.field_of_fail {m : Method} {error : EmissionError}
    (h : .fail error ∈ m.headerEmission) :
    ∃ field : HeaderField, error = .headerOverflow m.name field ∧ 0xFFFF < field.count m := by
  rw [headerEmission] at h
  split_ifs at h with hparameters hlocals
  · cases List.mem_singleton.1 h
    exact ⟨.parameters, rfl, hparameters⟩
  · cases List.mem_singleton.1 h
    exact ⟨.locals, rfl, hlocals⟩
  · simp at h

theorem OperandKind.isIndex_iff {kind : OperandKind} :
    kind.isIndex = true ↔ kind = .constant ∨ kind = .method := by
  cases kind <;> decide

def Instruction.Fitting (count : Nat) (i : Instruction) : Prop :=
  List.Forall₂ (Fits count i.wide) i.operation.operands i.arguments

namespace Instruction

variable {count : Nat} {i : Instruction}

def Indexes (i : Instruction) (kind : OperandKind) (argument : Argument) : Prop :=
  (kind, argument) ∈ i.operation.operands.zip i.arguments ∧
    (kind = .constant ∨ kind = .method)

theorem Fitting.writable_iff (h : i.Fitting count) :
    i.Writable false ↔ ∀ kind argument, i.Indexes kind argument →
      ∃ index : Nat, argument = .resolved index ∧ index < count ∧ index ≤ 0xFFFF := by
  constructor
  · rintro hwritable kind argument ⟨hmem, hkind⟩
    have hfits := (hwritable (kind, argument) hmem).2
    rw [← OperandKind.isIndex_iff] at hkind
    cases List.forall₂_zip h hmem with
    | value kept =>
      rw [hkind] at kept
      cases kept
    | @index index _ lt => exact ⟨index, rfl, lt, (fits_index_iff hkind).1 hfits⟩
  · rintro hindexes ⟨kind, argument⟩ hmem
    cases List.forall₂_zip h hmem with
    | value _ fits => exact ⟨.inl rfl, fits⟩
    | @index index pooled _ =>
      obtain ⟨_, heq, _, hle⟩ := hindexes kind _ ⟨hmem, OperandKind.isIndex_iff.1 pooled⟩
      cases heq
      exact ⟨.inl rfl, (fits_index_iff pooled).2 hle⟩

/-- Writing an instruction fails for an index only. -/
theorem Fitting.index_of_fail (h : i.Fitting count) {method : String} {error : EmissionError}
    (hfail : .fail error ∈ i.emission false method) :
    ∃ (kind : OperandKind) (index : Nat), i.Indexes kind (.resolved index) ∧
      error = .outOfRange index kind i.line ∧ 0xFFFF < index := by
  rw [emission, List.mem_cons, ← List.map_uncurry_zip_eq_zipWith, List.mem_map] at hfail
  obtain heq | ⟨⟨kind, argument⟩, hmem, hstep⟩ := hfail
  · cases heq
  · cases List.forall₂_zip h hmem with
    | value _ fits => simp [Function.uncurry_apply_pair, argumentStep, argumentValue, fits] at hstep
    | @index index pooled _ =>
      simp only [Function.uncurry_apply_pair, argumentStep, argumentValue] at hstep
      split_ifs at hstep with hfits
      cases hstep
      rw [fits_index_iff pooled] at hfits
      exact ⟨kind, index, ⟨hmem, OperandKind.isIndex_iff.1 pooled⟩, rfl, Nat.lt_of_not_le hfits⟩

end Instruction

theorem Settled.fits {pool : Array Constant} {m : Method} {i : Instruction} {count : Nat}
    {kind : OperandKind} {a a' : Argument} (h : Settled pool m i a a')
    (hcount : count ≤ pool.size) {wide : Bool} (hsuits : Suits count wide kind a) :
    Fits pool.size wide kind a' := by
  cases hsuits with
  | byte fits =>
    cases h
    exact .value rfl fits
  | var fits =>
    cases h
    exact .value rfl fits
  | @constant index lt =>
    cases h
    exact .index rfl (by omega)
  | label name =>
    cases h with
    | label found least greatest => exact .value rfl (fits_label_iff.2 ⟨least, greatest⟩)
  | method name =>
    cases h with
    | method found => exact .index rfl (Array.findIdx?_eq_some_iff_getElem.1 found).1

theorem Instruction.LinksTo.fitting {pool : Array Constant} {m : Method} {i i' : Instruction}
    {count : Nat} (h : i.LinksTo pool m i') (hcount : count ≤ pool.size) (hsuited : i.Suited count) :
    i'.Fitting pool.size := by
  rw [Fitting, h.alike.operation, h.alike.wide]
  exact forall₂_trans (fun hsuits hsettled => hsettled.fits hcount hsuits) hsuited h.settled

namespace Program

variable {p : Program} {entry : Method} {others : List Method}

/-- Writing a method fails for an index only. -/
theorem index_of_fail {count : Nat}
    (hfitting : ∀ m ∈ p.methods, ∀ i ∈ m.instructions, i.Fitting count) {m : Method}
    (hm : m ∈ p.methods) {error : EmissionError} (hfail : .fail error ∈ m.emission false) :
    ∃ m ∈ p.methods, ∃ i ∈ m.instructions, ∃ (kind : OperandKind) (index : Nat),
      i.Indexes kind (.resolved index) ∧ error = .outOfRange index kind i.line ∧
        0xFFFF < index := by
  rw [Method.emission, List.mem_cons, List.mem_flatMap] at hfail
  obtain heq | ⟨i, hi, hfail⟩ := hfail
  · cases heq
  · rw [Array.mem_toList_iff] at hi
    exact ⟨m, hm, i, hi, (hfitting m hm i hi).index_of_fail hfail⟩

/-- What the steps of a rendering can fail for. -/
theorem limit_of_fail {count : Nat}
    (hfitting : ∀ m ∈ p.methods, ∀ i ∈ m.instructions, i.Fitting count) {withSymbols : Bool}
    {error : EmissionError}
    (hfail : .fail error ∈ p.emission false ++ if withSymbols then p.symbolEmission else []) :
    (error = .missingEntry ∧ p.entry? = none) ∨
    (∃ m ∈ p.others, ∃ field : HeaderField,
      error = .headerOverflow m.name field ∧ 0xFFFF < field.count m) ∨
    ∃ m ∈ p.methods, ∃ i ∈ m.instructions, ∃ (kind : OperandKind) (index : Nat),
      i.Indexes kind (.resolved index) ∧ error = .outOfRange index kind i.line ∧
        0xFFFF < index := by
  have hsymbols : .fail error ∉ (if withSymbols then p.symbolEmission else []) := by
    cases withSymbols with
    | true => simp [symbolEmission, blockEmission]
    | false => simp
  have hhead : .fail error ∉ p.headEmission := by simp [headEmission]
  rw [List.mem_append, or_iff_left hsymbols, emission] at hfail
  cases hsome : p.entry? with
  | none =>
    rw [hsome] at hfail
    cases List.mem_singleton.1 hfail
    exact .inl ⟨rfl, rfl⟩
  | some entry =>
    obtain ⟨rest, hmethods, _⟩ := exists_rest_of_entry? hsome
    have hmem : ∀ m ∈ entry :: rest, m ∈ p.methods := fun m hm =>
      Array.mem_toList_iff.1 (hmethods ▸ hm)
    have hothers : p.methods.toList.drop 1 = rest := by rw [hmethods]; rfl
    simp only [hsome, List.mem_append, hhead, or_false, false_or, List.mem_singleton,
      reduceCtorEq, List.mem_flatMap, hothers] at hfail
    refine .inr ?_
    rcases hfail with hfirst | ⟨m, hm, hheader | hcode⟩
    · exact .inr (index_of_fail hfitting (hmem entry List.mem_cons_self) hfirst)
    · obtain ⟨field, herror, hlt⟩ := Method.field_of_fail hheader
      refine .inl ⟨m, ?_, field, herror, hlt⟩
      rw [others, hothers]
      exact hm
    · exact .inr (index_of_fail hfitting (hmem m (List.mem_cons_of_mem _ hm)) hcode)

/-- A program with an entry method does not fail for one. -/
theorem Shape.limit_of_fail (h : Shape p entry others)
    (hfitting : ∀ m ∈ p.methods, ∀ i ∈ m.instructions, i.Fitting p.constants.size)
    {withSymbols : Bool} {error : EmissionError}
    (hfail : .fail error ∈ p.emission false ++ if withSymbols then p.symbolEmission else []) :
    (∃ m ∈ others, ∃ field : HeaderField,
      error = .headerOverflow m.name field ∧ 0xFFFF < field.count m) ∨
    ∃ m ∈ p.methods, ∃ i ∈ m.instructions, ∃ (kind : OperandKind) (index : Nat),
      i.Indexes kind (.resolved index) ∧ error = .outOfRange index kind i.line ∧
        0xFFFF < index := by
  have hsome : p.entry? = some entry := by
    rw [ entry?, getElem?_zero_of_toList h.methods, Option.filter_some, if_pos h.isEntry]
  rw [← h.others_eq]
  rcases Program.limit_of_fail hfitting hfail with ⟨_, hnone⟩ | hlimit
  · cases hsome.symm.trans hnone
  · exact hlimit

end Program

namespace Assembly

variable {s : Setup} {p : Program} {source : Bytes}

/-- The program behind a run without errors, as its lines left it, and what linking made of it. -/
theorem exists_linksTo_of_run (hrun : (run s source).result = .ok p)
    (herrors : (run s source).errors = 0) :
    ∃ a : Progress, readLines s {} (Source.Lines.ofBytes source).lines = .ok a ∧
      a.block = .outside ∧ a.journal.errors = 0 ∧ p = (a.program.link s.file).1 ∧
      a.program.constants.size ≤ p.constants.size ∧
      List.Forall₂ (Method.LinksTo p.constants) a.program.methods.toList p.methods.toList := by
  obtain ⟨a, hread, hblock, rfl, hcount⟩ := exists_read_of_run hrun
  have hlink : (a.program.link s.file).2.errors = 0 := by omega
  exact ⟨a, hread, hblock, by omega, rfl,
    Program.size_constants_le_link (Progress.declared_of_readLines hread),
    Program.linksTo_link hlink⟩

/-- Whatever is written for an argument without errors, only an index may be too large for it. -/
theorem fitting_of_run (hset : s.set.Plain) (hrun : (run s source).result = .ok p)
    (herrors : (run s source).errors = 0) :
    ∀ m ∈ p.methods, ∀ i ∈ m.instructions, i.Fitting p.constants.size := by
  obtain ⟨a, hread, hblock, _, _, hsize, hlinks⟩ := exists_linksTo_of_run hrun herrors
  have hsuitable := (kept_suitable hset).readLines (fun _ => startsSolid_of_mem_lines) hread
  rw [Progress.methods_of_outside hblock] at hsuitable
  intro m' hm' i' hi'
  obtain ⟨m, hm, hmethod⟩ := exists_of_mem_right hlinks (Array.mem_toList_iff.2 hm')
  obtain ⟨i, hi, hlinksTo⟩ :=
    exists_of_mem_right hmethod.instructions (Array.mem_toList_iff.2 hi')
  have hsuited := hsuitable m hm i (Array.mem_toList_iff.1 hi)
  exact hlinksTo.fitting hsize hsuited

/-- A program without errors is rendered exactly if every header can hold its counts and every
operand its index, and is refused for one of these that cannot. -/
theorem exists_render_iff_and_limits (hset : s.set.Plain) (hrun : (run s source).result = .ok p)
    (herrors : (run s source).errors = 0) (withSymbols : Bool) :
    ((∃ bytes, (p.render false withSymbols).result = .ok bytes) ↔
      (∀ m ∈ p.methods, m.isEntry = false → m.parameterCount ≤ 65535 ∧ m.localCount ≤ 65535) ∧
        ∀ m ∈ p.methods, ∀ i ∈ m.instructions, ∀ kind argument, i.Indexes kind argument →
          ∃ index : Nat, argument = .resolved index ∧ index < p.constants.size ∧ index ≤ 65535) ∧
    ∀ error, (p.render false withSymbols).result = .error error →
      (∃ m ∈ p.methods, m.isEntry = false ∧ ∃ field : HeaderField,
        error = .headerOverflow m.name field ∧ 65535 < field.count m) ∨
      ∃ m ∈ p.methods, ∃ i ∈ m.instructions, ∃ (kind : OperandKind) (index : Nat),
        i.Indexes kind (.resolved index) ∧ error = .outOfRange index kind i.line ∧
          65535 < index := by
  have hfitting := fitting_of_run hset hrun herrors
  obtain ⟨entry, others, hshape⟩ :=
    (assembled_of_run hrun).exists_shape (flawless_of_run hrun herrors)
  have hrenderable : (∃ bytes, (p.render false withSymbols).result = .ok bytes) ↔
      (∀ m ∈ others, m.FitsHeader) ∧ ∀ m ∈ p.methods, m.Writable false := by
    simp only [Program.render_eq_ok_iff, exists_and_left, exists_eq, and_true]
    constructor
    · rintro ⟨_, hheaders, harguments⟩
      exact ⟨hshape.others_eq ▸ hheaders, harguments⟩
    · rintro ⟨hheaders, harguments⟩
      exact ⟨(flawless_of_run hrun herrors).entry, hshape.others_eq.symm ▸ hheaders, harguments⟩
  refine ⟨?_, fun error herror => ?_⟩
  · rw [hrenderable]
    refine and_congr ⟨fun h m hm hentry => ?_, fun h m hm => ?_⟩ (forall₂_congr fun m hm =>
      forall₂_congr fun i hi => (hfitting m hm i hi).writable_iff)
    · exact Method.fitsHeader_iff.1 (h m (hshape.mem_others hm hentry))
    · exact Method.fitsHeader_iff.2 (h m (hshape.mem_of_mem_others hm) (hshape.notEntry m hm))
  · have hfail := Emission.fail_mem_of_run (Output.result_eq_error_iff.1 herror)
    rcases hshape.limit_of_fail hfitting hfail with ⟨m, hm, hfield⟩ | hindex
    · exact .inl ⟨m, hshape.mem_of_mem_others hm, hshape.notEntry m hm, hfield⟩
    · exact .inr hindex

theorem exists_render_sample_iff_and_limits :
    sampleSetup.set.Plain ∧ (run sampleSetup sample).result = .ok sampleProgram ∧
      (run sampleSetup sample).errors = 0 ∧
      ((∃ bytes, (sampleProgram.render false true).result = .ok bytes) ↔
        (∀ m ∈ sampleProgram.methods, m.isEntry = false →
          m.parameterCount ≤ 65535 ∧ m.localCount ≤ 65535) ∧
        ∀ m ∈ sampleProgram.methods, ∀ i ∈ m.instructions, ∀ kind argument,
          i.Indexes kind argument → ∃ index : Nat, argument = .resolved index ∧
            index < sampleProgram.constants.size ∧ index ≤ 65535) := by
  have hset : sampleSetup.set.Plain := InstructionSet.plain_standard
  exact ⟨hset, run_sample, errors_sample,
    (exists_render_iff_and_limits hset run_sample errors_sample true).1⟩

end Assembly

end IjvmAsm
