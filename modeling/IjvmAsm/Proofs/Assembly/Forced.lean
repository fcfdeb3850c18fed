import IjvmAsm.Proofs.Assembly.Rendering
import IjvmAsm.Proofs.Program.Attempted
import IjvmAsm.Proofs.Program.Zeroed

/-!
# Images of programs with errors

A program is rendered leniently as it would be with zeros for the references that are pending. Zeros
fit everywhere, and whatever else stands in a program that a run gives is as it is in one without
errors. So a lenient rendering fails for nothing new but a missing entry method, and what it gives
is read back with a text of the size that stands in it.
-/

namespace IjvmAsm

def Instruction.HalfFitting (count : Nat) (i : Instruction) : Prop :=
  List.Forall₂ (fun kind a => Fits count i.wide kind a ∨ a.isPending = true)
    i.operation.operands i.arguments

variable {count index : Nat} {wide : Bool} {kind : OperandKind} {i : Instruction}

theorem fits_zero : Fits (count + 1) wide kind (.resolved 0) := by
  cases kind with
  | method | constant => exact .index rfl count.succ_pos
  | byte | label | var => exact .value rfl (by cases wide <;> decide)

theorem Fits.zeroed {a : Argument} (h : Fits count wide kind a) :
    Fits (count + 1) wide kind a.zeroed := by
  cases h with
  | value kept fits => exact .value kept fits
  | index pooled lt => exact .index pooled (Nat.lt_succ_of_lt lt)

namespace Instruction

theorem HalfFitting.fitting_zeroed (h : i.HalfFitting count) : i.zeroed.Fitting (count + 1) := by
  rw [Fitting, zeroed, List.forall₂_map_right_iff]
  refine h.imp fun kind a ha => ?_
  rcases ha with hfits | hpending
  · exact hfits.zeroed
  · cases a with
    | resolved value => cases hpending
    | pending reference => exact fits_zero

/-- An index that is not zero has not come from a reference that is pending. -/
theorem HalfFitting.indexes_of_zeroed (h : i.HalfFitting count) (hpos : 0 < index)
    (hindexes : i.zeroed.Indexes kind (.resolved index)) :
    i.Indexes kind (.resolved index) ∧ index < count := by
  obtain ⟨hmem, hkind⟩ := hindexes
  rw [zeroed, List.zip_map_right, List.mem_map] at hmem
  obtain ⟨⟨kind', a⟩, hmem, heq⟩ := hmem
  obtain ⟨rfl, hzeroed⟩ := Prod.mk.inj heq
  cases a with
  | pending reference =>
    have hzero := Argument.resolved.inj hzeroed
    omega
  | resolved value =>
    obtain rfl := Argument.resolved.inj hzeroed
    refine ⟨⟨hmem, hkind⟩, ?_⟩
    rcases List.forall₂_zip h hmem with hfits | hpending
    · cases hfits with
      | value kept =>
        cases kept.symm.trans (OperandKind.isIndex_iff.2 hkind)
      | index _ lt => exact lt
    · cases hpending

end Instruction

theorem Attempted.fits {pool : Array Constant} {m : Method} {a a' : Argument}
    (h : Attempted pool m i a a') (hcount : count ≤ pool.size) (hsuits : Suits count wide kind a) :
    Fits pool.size wide kind a' ∨ a'.isPending = true := by
  cases h with
  | settled settled => exact .inl (settled.fits hcount hsuits)
  | left reference => exact .inr rfl

namespace Assembly

variable {s : Setup} {p : Program} {source : Bytes}

/-- Whatever is written for an argument that is not pending, only an index may be too large for
it. -/
theorem halfFitting_of_run (hset : s.set.Plain) (hrun : (run s source).result = .ok p) :
    ∀ m ∈ p.methods, ∀ i ∈ m.instructions, i.HalfFitting p.constants.size := by
  obtain ⟨a, hread, hblock, rfl, -⟩ := exists_read_of_run hrun
  have hsize : a.program.constants.size ≤ (a.program.link s.file).1.constants.size :=
    Program.size_constants_le_link (Progress.declared_of_readLines hread)
  have hsuitable := (kept_suitable hset).readLines (fun _ => startsSolid_of_mem_lines) hread
  rw [Progress.methods_of_outside hblock] at hsuitable
  intro m' hm' i' hi'
  obtain ⟨m, hm, htried⟩ :=
    exists_of_mem_right (Program.tried_link s.file a.program) (Array.mem_toList_iff.2 hm')
  obtain ⟨i, hi, halike, hattempted⟩ := exists_of_mem_right htried (Array.mem_toList_iff.2 hi')
  have hsuited := hsuitable m hm i (Array.mem_toList_iff.1 hi)
  rw [Instruction.HalfFitting, halike.operation, halike.wide]
  exact forall₂_trans (fun hsuits hattempted => hattempted.fits hsize hsuits) hsuited hattempted

theorem Assembled.isEntry_eq_false (h : Assembled s p) {m : Method} (hm : m ∈ p.others) :
    m.isEntry = false := by
  obtain ⟨seen, hled⟩ := h.led
  rw [Program.others] at hm
  generalize p.methods.toList = ms at hm hled
  cases hled with
  | nil => cases hm
  | cons _ hothers => exact hothers m hm

/-- What a lenient rendering of the program can fail for. -/
inductive Limit (p : Program) : EmissionError → Prop
  | entry (missing : p.entry? = none) : Limit p .missingEntry
  | header {m : Method} (found : m ∈ p.methods) (headed : m.isEntry = false) (field : HeaderField)
      (exceeds : 65535 < field.count m) : Limit p (.headerOverflow m.name field)
  | index {m : Method} {i : Instruction} {kind : OperandKind} {index : Nat} (found : m ∈ p.methods)
      (among : i ∈ m.instructions) (indexes : i.Indexes kind (.resolved index))
      (pooled : index < p.constants.size) (exceeds : 65535 < index) :
      Limit p (.outOfRange index kind i.line)

theorem limit_of_render (hset : s.set.Plain) (hrun : (run s source).result = .ok p)
    {withSymbols : Bool} {error : EmissionError}
    (herror : (p.render true withSymbols).result = .error error) : Limit p error := by
  have hhalf := halfFitting_of_run hset hrun
  have hfitting : ∀ m ∈ p.zeroed.methods, ∀ i ∈ m.instructions,
      i.Fitting (p.constants.size + 1) := by
    intro m' hm' i' hi'
    obtain ⟨m, hm, rfl⟩ := Array.mem_map.1 hm'
    obtain ⟨i, hi, rfl⟩ := Array.mem_map.1 hi'
    exact (hhalf m hm i hi).fitting_zeroed
  rw [← Program.render_zeroed] at herror
  have hfail := Emission.fail_mem_of_run (Output.result_eq_error_iff.1 herror)
  rcases Program.limit_of_fail hfitting hfail with ⟨rfl, hnone⟩ | ⟨m', hm', field, rfl, hlt⟩ |
    ⟨m', hm', i', hi', kind, index, hindexes, rfl, hlt⟩
  · rw [Program.entry?_zeroed, Option.map_eq_none_iff] at hnone
    exact .entry hnone
  · rw [Program.others, Program.toList_methods_zeroed, ← List.map_drop] at hm'
    obtain ⟨m, hm, rfl⟩ := List.mem_map.1 hm'
    have hentry := (assembled_of_run hrun).isEntry_eq_false hm
    have hcount : field.count m.zeroed = field.count m := by cases field <;> rfl
    rw [hcount] at hlt
    exact .header (Array.mem_toList_iff.1 (List.mem_of_mem_drop hm)) hentry field hlt
  · obtain ⟨m, hm, rfl⟩ := Array.mem_map.1 hm'
    obtain ⟨i, hi, rfl⟩ := Array.mem_map.1 hi'
    obtain ⟨hwritten, hpooled⟩ := (hhalf m hm i hi).indexes_of_zeroed (by omega) hindexes
    exact Limit.index (i := i) hm hi hwritten hpooled hlt

theorem exists_parse_of_render (hset : s.set.Plain) (hrun : (run s source).result = .ok p)
    (hsize : p.size < 2 ^ 31) (hconstants : p.constants.size < 2 ^ 30) {bytes : Bytes}
    (hrender : (p.render true false).result = .ok bytes) :
    ∃ image, Image.parse bytes = .ok image ∧ image.text.length = p.size ∧
      image.constants = p.constants.toList.map Constant.value := by
  have hassembled := assembled_of_run hrun
  have htext := hassembled.length_text (hassembled.hasArity (Setup.regular_of_plain hset))
  obtain ⟨_, rfl⟩ := Program.render_eq_ok_iff.1 hrender
  exact ⟨_, Image.parse_image (by omega) (by omega) htext rfl, htext, rfl⟩

/-- A lenient rendering is a strict one with zeros for what is pending. Of a program that a run
gives, with errors or without, it fails for its limits only, and what it gives is read back. -/
theorem render_lenient :
    (∀ (p : Program) (withSymbols : Bool),
      p.render true withSymbols = p.zeroed.render false withSymbols) ∧
    ∀ (s : Setup) (source : Bytes) (p : Program), s.set.Plain →
      (run s source).result = .ok p →
        (∀ error, (p.render true false).result = .error error → Limit p error) ∧
        (p.size < 2 ^ 31 → p.constants.size < 2 ^ 30 → ∀ bytes,
          (p.render true false).result = .ok bytes →
            ∃ image, Image.parse bytes = .ok image ∧ image.text.length = p.size ∧
              image.constants = p.constants.toList.map Constant.value) := by
  refine ⟨fun p withSymbols => (p.render_zeroed withSymbols).symm, ?_⟩
  intro s source p hset hrun
  exact ⟨fun error herror => limit_of_render hset hrun herror,
    fun hsize hconstants bytes hrender => exists_parse_of_render hset hrun hsize hconstants hrender⟩

def unfinished : Bytes := Text.unlines
  [".constant", "A 1", ".end-constant", ".main", "GOTO nowhere", "INVOKEVIRTUAL nobody",
    "LDC_W A", ".end-main"]

def unfinishedProgram : Program :=
  { constants := #[⟨"A", 1, 2, .declared⟩]
    methods := #[
      { Method.entry 4 with
        instructions := #[
          { operation := ⟨"GOTO", 0xA7, [.label]⟩, arguments := [.pending (.label "nowhere")]
            line := 5 },
          { operation := ⟨"INVOKEVIRTUAL", 0xB6, [.method]⟩
            arguments := [.pending (.method "nobody")], line := 6, offset := 3 },
          { operation := ⟨"LDC_W", 0x13, [.constant]⟩, arguments := [.resolved 0], line := 7
            offset := 6 }]
        size := 9 }] }

theorem render_lenient_unfinished :
    (run sampleSetup unfinished).errors = 2 ∧
      (run sampleSetup unfinished).result = .ok unfinishedProgram ∧
      unfinishedProgram.render true true = unfinishedProgram.zeroed.render false true ∧
      ∃ bytes image, (unfinishedProgram.render true false).result = .ok bytes ∧
        Image.parse bytes = .ok image ∧ image.text.length = 9 ∧ image.constants = [1] := by
  obtain ⟨herrors, hrun⟩ : (run sampleSetup unfinished).errors = 2 ∧
      (run sampleSetup unfinished).result = .ok unfinishedProgram := by decide +kernel
  obtain ⟨bytes, hrender⟩ : ∃ bytes, (unfinishedProgram.render true false).result = .ok bytes := by
    have hfailure : (unfinishedProgram.render true false).failure = none := by decide
    exact ⟨_, by rw [Output.result, hfailure]⟩
  obtain ⟨image, hparse, htext, hconstants⟩ := (render_lenient.2 sampleSetup unfinished
    unfinishedProgram InstructionSet.plain_standard hrun).2 (by decide) (by decide) bytes hrender
  exact ⟨herrors, hrun, render_lenient.1 unfinishedProgram true, bytes, image, hrender, hparse,
    htext, hconstants⟩

end Assembly

end IjvmAsm
