import IjvmAsm.Proofs.Assembly.Probe

/-!
# Arities

A run counts the arguments that a line gives to an operation. It does not count those that it gives
itself to an operation that widens or that printing stands for, so these operations have to take
what they get: then, and only then, every instruction has as many arguments as its operation takes,
and the text of every image is as long as the program says.
-/

namespace IjvmAsm

namespace InstructionSet

/-- The operations that a run can add by itself, where the set has them, take what they get: one
byte is pushed, and nothing is given to the others. -/
structure Plain (set : InstructionSet) : Prop where
  widener : ∀ op, set.find? Operation.wideName = some op → op.operands = []
  push : ∀ op, set.find? pushName = some op → op.operands = [.byte]
  out : ∀ op, set.find? outName = some op → op.operands = []

theorem find?_pushName_standard : standard.find? pushName = some ⟨pushName, 0x10, [.byte]⟩ := by
  decide +kernel

theorem find?_outName_standard : standard.find? outName = some ⟨outName, 0xFD, []⟩ := by
  decide +kernel

theorem plain_standard : standard.Plain := by
  have hwide : standard.find? Operation.wideName =
      some ⟨Operation.wideName, 0xC4, []⟩ := by decide +kernel
  refine ⟨fun op hop => ?_, fun op hop => ?_, fun op hop => ?_⟩
  · cases hop.symm.trans hwide
    rfl
  · cases hop.symm.trans find?_pushName_standard
    rfl
  · cases hop.symm.trans find?_outName_standard
    rfl

end InstructionSet

namespace Assembly

structure Setup.Regular (s : Setup) : Prop where
  printing : ∀ push out, s.set.find? InstructionSet.pushName = some push →
    s.set.find? InstructionSet.outName = some out →
      push.operands.length = 1 ∧ out.operands.length = 0
  widening : s.autoWide = true → s.set.TakesSlot →
    ∀ widener, s.set.find? Operation.wideName = some widener → widener.operands.length = 0

theorem Setup.regular_of_plain {s : Setup} (h : s.set.Plain) : s.Regular where
  printing := by
    intro push out hpush hout
    rw [h.push push hpush, h.out out hout]
    exact ⟨rfl, rfl⟩
  widening := by
    intro _ _ widener hwide
    rw [h.widener widener hwide]
    rfl

variable {s : Setup} {p : Program} {source : Bytes}

theorem Issued.length_eq (hregular : s.Regular) {op : Operation} {arguments : List Argument}
    (h : Issued s op arguments) : arguments.length = op.operands.length := by
  cases h with
  | asked _ arity => exact arity
  | widening auto slot found => exact (hregular.widening auto slot op found).symm
  | push foundPush foundOut _ => exact (hregular.printing op _ foundPush foundOut).1.symm
  | out foundPush foundOut => exact (hregular.printing _ op foundPush foundOut).2.symm

theorem Assembled.hasArity (h : Assembled s p) (hregular : s.Regular) :
    ∀ m ∈ p.methods, ∀ i ∈ m.instructions, i.HasArity := by
  intro m hm i hi
  obtain ⟨arguments, hissued, hlength⟩ := h.issued m hm i hi
  rw [Instruction.HasArity, hlength, hissued.length_eq hregular]

/-- Every program that a run gives has instructions with the right number of arguments, and images
of it have a text of the size that stands in them. -/
def Setup.Exact (s : Setup) : Prop :=
  ∀ source p, (run s source).result = .ok p →
    (∀ m ∈ p.methods, ∀ i ∈ m.instructions, i.HasArity) ∧
      ∀ lenient withSymbols bytes, (p.render lenient withSymbols).result = .ok bytes →
        ∃ text, bytes = p.head ++ (text ++ p.trailer withSymbols) ∧ text.length = p.size

theorem Setup.Regular.exact (h : s.Regular) : s.Exact := by
  intro source p hrun
  have hassembled := assembled_of_run hrun
  have harity := hassembled.hasArity h
  refine ⟨harity, fun lenient withSymbols bytes hrender => ?_⟩
  obtain ⟨_, hbytes⟩ := Program.render_eq_ok_iff.1 hrender
  exact ⟨p.text, hbytes, hassembled.length_text harity⟩

theorem exact_standard (file : String) (autoWide : Bool) :
    Setup.Exact { file, set := .standard, autoWide } :=
  (Setup.regular_of_plain InstructionSet.plain_standard).exact

/-- Where runs are exact, so is what they make of lines without line breaks. -/
theorem Setup.Exact.hasArity_of_readLines (h : s.Exact) {texts : List String}
    (hplain : ∀ text ∈ texts, '\n' ∉ text.toList ∧ '\r' ∉ text.toList) {closed seen : Bool}
    {journal : Journal} (hread : readLines s {} (Source.numbered 0 texts) =
      .ok ⟨p, closed, seen, .outside, journal⟩) {m : Method} (hm : m ∈ p.methods)
    {i : Instruction} (hi : i ∈ m.instructions) : i.HasArity := by
  obtain ⟨q, hrun, hback⟩ := exists_run_of_readLines hplain hread
  obtain ⟨m', hm', i', hi', halike⟩ := hback m hm i hi
  have harity := (h _ q hrun).1 m' hm' i' hi'
  rw [Instruction.HasArity, halike.operation] at harity
  rw [Instruction.HasArity, halike.arguments.length_eq, harity]

theorem Setup.Exact.printing (h : s.Exact) {push out : Operation}
    (hpush : s.set.find? InstructionSet.pushName = some push)
    (hout : s.set.find? InstructionSet.outName = some out) :
    push.operands.length = 1 ∧ out.operands.length = 0 := by
  obtain ⟨journal, hread⟩ := readLines_printing hpush hout
  have hall : ∀ i ∈ (pushBytes push out 2 (.entry 1) [0x61]).sealed.instructions, i.HasArity := by
    intro i hi
    exact h.hasArity_of_readLines (by decide) hread (Array.mem_singleton.2 rfl) hi
  have hgrown : Grown s (pushBytes push out 2 (.entry 1) [0x61]) :=
    (grows_pushBytes hpush hout 2 [0x61]).grown (grown_build s Method.entryName [] 1 true).2.2
  rw [hgrown.laidOut.instructions_sealed] at hall
  have hfirst := hall _ (Array.mem_push.2 (.inl (Array.mem_push.2 (.inr rfl))))
  have hsecond := hall _ (Array.mem_push.2 (.inr rfl))
  exact ⟨hfirst.symm, hsecond.symm⟩

theorem Setup.Exact.widening (h : s.Exact) (hset : s.set.Accepted) (hauto : s.autoWide = true)
    (hslot : s.set.TakesSlot) {widener : Operation}
    (hwide : s.set.find? Operation.wideName = some widener) : widener.operands.length = 0 := by
  obtain ⟨name, op, hfind, hname, hvar⟩ := hslot
  obtain ⟨hsolid, hplain⟩ := hset.spelled hfind
  obtain ⟨reported, _, hreads⟩ := exists_reads_widening (s := s) hplain hvar
  obtain ⟨events, _, hread⟩ := hreads.readLines #[]
  obtain ⟨arguments, _, hmethod, _⟩ := statement_askingLine (p := ⟨#[⟨"x", 0, 2, .declared⟩], #[]⟩)
    hauto hname (InstructionSet.find?_self hfind) hvar hwide constantIndex?_declared roomy_populated
  have hgrown : Grown s (widened s op populated) :=
    (grows_widened s op populated).grown (roomy_populated.grown s)
  have hall : ∀ i ∈ (widened s op populated).sealed.instructions, i.HasArity := by
    intro i hi
    exact h.hasArity_of_readLines (unbroken_of_mem_widening hsolid) hread (Array.mem_singleton.2 rfl) hi
  rw [hgrown.laidOut.instructions_sealed, widened, hmethod] at hall
  have harity := hall _ (Array.mem_push.2 (.inl (Array.mem_push.2 (.inr rfl))))
  exact harity.symm

/-- Runs are exact for regular setups and no others. -/
theorem exact_iff_regular (hset : s.set.Accepted) : s.Exact ↔ s.Regular := by
  constructor
  · intro h
    exact ⟨fun _ _ hpush hout => h.printing hpush hout,
      fun hauto hslot _ hwide => h.widening hset hauto hslot hwide⟩
  · exact Setup.Regular.exact

def twoBytePush : Bytes := Utf8.encode "0x10 BIPUSH byte byte\n0xFD OUT\n"

def twoBytePushSet : InstructionSet :=
  let operations : List Operation :=
    [⟨InstructionSet.pushName, 0x10, [.byte, .byte]⟩, ⟨InstructionSet.outName, 0xFD, []⟩]
  ⟨"two.isa", operations, operations⟩

theorem not_exact_twoBytePush :
    (InstructionSet.ofDefinition "two.isa" twoBytePush).2 = .ok twoBytePushSet ∧
      ¬ Setup.Exact { file := "t.jas", set := twoBytePushSet } := by
  have hset : (InstructionSet.ofDefinition "two.isa" twoBytePush).2 = .ok twoBytePushSet := by
    decide +kernel
  refine ⟨hset, fun hexact => ?_⟩
  have hregular := (exact_iff_regular (.inr ⟨_, _, hset⟩)).1 hexact
  obtain ⟨hpush, _⟩ := hregular.printing ⟨InstructionSet.pushName, 0x10, [.byte, .byte]⟩
    ⟨InstructionSet.outName, 0xFD, []⟩ (by decide +kernel) (by decide +kernel)
  cases hpush

end Assembly

end IjvmAsm
