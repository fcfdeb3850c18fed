import IjvmAsm.Program.Emission
import IjvmAsm.Proofs.Program.Shape

/-!
# The bytes of a program

Rendering gives an image exactly if there is an entry method, the counts in all headers fit, and
so do the values of all arguments, none of which is pending unless the rendering is lenient. The
bytes are then the head of the image, its text, and the blocks of symbols if they are asked for.
-/

namespace IjvmAsm

namespace Emission

def Writes (e : Emission) (bytes : Bytes) : Prop := e.run.result = .ok bytes

variable {e f : Emission} {bytes : Bytes}

theorem writes_nil : Writes [] bytes ↔ bytes = [] := by
  simp only [Writes, run, Output.result, Except.ok.injEq, eq_comm]

theorem writes_note {event : Event} : Writes (.note event :: e) bytes ↔ Writes e bytes := Iff.rfl

theorem not_writes_fail {error : EmissionError} : ¬ Writes (.fail error :: e) bytes := nofun

theorem writes_write {front : Bytes} :
    Writes (.write front :: e) bytes ↔ ∃ back, Writes e back ∧ bytes = front ++ back := by
  simp only [Writes, run, Output.result]
  cases e.run.failure with
  | none => simp [eq_comm]
  | some error => simp

theorem writes_append :
    Writes (e ++ f) bytes ↔ ∃ front back, Writes e front ∧ Writes f back ∧ bytes = front ++ back := by
  induction e generalizing bytes with
  | nil => simp [writes_nil]
  | cons step rest ih =>
    cases step with
    | write first =>
      simp only [List.cons_append, writes_write, ih]
      constructor
      · rintro ⟨_, ⟨front, back, hfront, hback, rfl⟩, rfl⟩
        exact ⟨first ++ front, back, ⟨front, hfront, rfl⟩, hback, by rw [List.append_assoc]⟩
      · rintro ⟨_, back, ⟨front, hfront, rfl⟩, hback, rfl⟩
        exact ⟨front ++ back, ⟨front, back, hfront, hback, rfl⟩, by rw [List.append_assoc]⟩
    | note event => simp only [List.cons_append, writes_note, ih]
    | fail error => simp only [List.cons_append, not_writes_fail, false_and, exists_false]

/-- Emissions of which it is known when they go through and what they write, one behind the
other. -/
theorem writes_flatMap {α : Type} {f : α → Emission} {P : α → Prop} {g : α → Bytes}
    (hf : ∀ a bytes, Writes (f a) bytes ↔ P a ∧ bytes = g a) {xs : List α} :
    Writes (xs.flatMap f) bytes ↔ (∀ a ∈ xs, P a) ∧ bytes = xs.flatMap g := by
  induction xs generalizing bytes with
  | nil => simp [writes_nil]
  | cons a rest ih =>
    simp only [List.flatMap_cons, writes_append, hf, ih, List.forall_mem_cons]
    constructor
    · rintro ⟨_, _, ⟨ha, rfl⟩, ⟨hrest, rfl⟩, rfl⟩
      exact ⟨⟨ha, hrest⟩, rfl⟩
    · rintro ⟨⟨ha, hrest⟩, rfl⟩
      exact ⟨_, _, ⟨ha, rfl⟩, ⟨hrest, rfl⟩, rfl⟩

end Emission

open Emission

def Argument.valueOrZero : Argument → Int
  | resolved value => value
  | pending _ => 0

/-- Whether an argument can be written where that kind of operand is due. -/
def Argument.Writable (lenient wide : Bool) (kind : OperandKind) (a : Argument) : Prop :=
  (a.isPending = false ∨ lenient = true) ∧ kind.fits wide a.valueOrZero = true

namespace Instruction

def Writable (lenient : Bool) (i : Instruction) : Prop :=
  ∀ x ∈ i.operation.operands.zip i.arguments, x.2.Writable lenient i.wide x.1

def operandBytes (wide : Bool) (kinds : List OperandKind) (arguments : List Argument) : Bytes :=
  (List.zipWith (fun kind a => kind.encode wide a.valueOrZero) kinds arguments).flatten

def encoding (i : Instruction) : Bytes :=
  i.operation.opcode :: operandBytes i.wide i.operation.operands i.arguments

def HasArity (i : Instruction) : Prop := i.arguments.length = i.operation.operands.length

theorem length_operandBytes {wide : Bool} {kinds : List OperandKind} {arguments : List Argument}
    (h : arguments.length = kinds.length) :
    (operandBytes wide kinds arguments).length = (kinds.map (OperandKind.size wide)).sum := by
  induction kinds generalizing arguments with
  | nil => rfl
  | cons kind kinds ih =>
    cases arguments with
    | nil => cases h
    | cons a rest =>
      have hrest := ih (Nat.succ.inj h)
      rw [operandBytes] at hrest ⊢
      rw [List.zipWith_cons_cons, List.flatten_cons, List.length_append,
        OperandKind.length_encode, hrest, List.map_cons, List.sum_cons]

theorem length_encoding {i : Instruction} (h : i.HasArity) : i.encoding.length = i.size := by
  rw [encoding, List.length_cons, length_operandBytes h, size, Operation.size_eq, Nat.add_comm]

variable {lenient : Bool} {bytes : Bytes}

theorem writes_argumentStep {method : String} {i : Instruction} {kind : OperandKind}
    {a : Argument} {e : Emission} :
    Writes (i.argumentStep lenient method kind a :: e) bytes ↔
      a.Writable lenient i.wide kind ∧
        ∃ back, Writes e back ∧ bytes = kind.encode i.wide a.valueOrZero ++ back := by
  have hvalue : ∀ value, Writes ((if kind.fits i.wide value then
      Step.write (kind.encode i.wide value) else .fail (.outOfRange value kind i.line)) :: e) bytes ↔
      kind.fits i.wide value = true ∧
        ∃ back, Writes e back ∧ bytes = kind.encode i.wide value ++ back := by
    intro value
    by_cases hfits : kind.fits i.wide value = true
    · rw [if_pos hfits, writes_write, and_iff_right hfits]
    · rw [if_neg hfits]
      exact iff_of_false not_writes_fail fun h => hfits h.1
  cases a with
  | resolved value =>
    simp only [argumentStep, argumentValue, hvalue, Argument.Writable, Argument.isPending,
      Argument.valueOrZero, true_or, true_and]
  | pending reference =>
    cases lenient with
    | true =>
      simp only [argumentStep, argumentValue, ↓reduceIte, hvalue, Argument.Writable,
        Argument.valueOrZero, or_true, true_and]
    | false =>
      simp only [argumentStep, argumentValue, Bool.false_eq_true, ↓reduceIte, not_writes_fail,
        Argument.Writable, Argument.isPending, reduceCtorEq, or_self, false_and]

theorem writes_operands {method : String} {i : Instruction} {kinds : List OperandKind}
    {arguments : List Argument} :
    Writes (List.zipWith (i.argumentStep lenient method) kinds arguments) bytes ↔
      (∀ x ∈ kinds.zip arguments, x.2.Writable lenient i.wide x.1) ∧
        bytes = operandBytes i.wide kinds arguments := by
  induction kinds generalizing arguments bytes with
  | nil => simp [writes_nil, operandBytes]
  | cons kind kinds ih =>
    cases arguments with
    | nil => simp [writes_nil, operandBytes]
    | cons a rest =>
      simp only [List.zipWith_cons_cons, writes_argumentStep, ih, List.zip_cons_cons,
        List.forall_mem_cons]
      constructor
      · rintro ⟨ha, _, ⟨hrest, rfl⟩, rfl⟩
        exact ⟨⟨ha, hrest⟩, rfl⟩
      · rintro ⟨⟨ha, hrest⟩, rfl⟩
        exact ⟨ha, _, ⟨hrest, rfl⟩, rfl⟩

theorem writes_emission {method : String} {i : Instruction} :
    Writes (i.emission lenient method) bytes ↔ i.Writable lenient ∧ bytes = i.encoding := by
  rw [emission, writes_write]
  simp only [writes_operands]
  constructor
  · rintro ⟨_, ⟨hwritable, rfl⟩, rfl⟩
    exact ⟨hwritable, rfl⟩
  · rintro ⟨hwritable, rfl⟩
    exact ⟨_, ⟨hwritable, rfl⟩, rfl⟩

end Instruction

namespace Method

def Writable (lenient : Bool) (m : Method) : Prop := ∀ i ∈ m.instructions, i.Writable lenient

def FitsHeader (m : Method) : Prop := m.parameterCount < 2 ^ 16 ∧ m.localCount < 2 ^ 16

def encoding (m : Method) : Bytes := m.instructions.toList.flatMap Instruction.encoding

def headerBytes (m : Method) : Bytes := Bytes.ofNat 2 m.parameterCount ++ Bytes.ofNat 2 m.localCount

def headedEncoding (m : Method) : Bytes := m.headerBytes ++ m.encoding

variable {lenient : Bool} {bytes : Bytes} {m : Method}

@[simp] theorem length_headerBytes : m.headerBytes.length = Image.headerSize := by
  rw [headerBytes, List.length_append, Bytes.length_ofNat, Bytes.length_ofNat]
  rfl

theorem writes_emission :
    Writes (m.emission lenient) bytes ↔ m.Writable lenient ∧ bytes = m.encoding := by
  rw [emission, writes_note, writes_flatMap fun i _ => Instruction.writes_emission]
  simp only [Array.mem_toList_iff, Writable, encoding]

theorem writes_headerEmission :
    Writes m.headerEmission bytes ↔ m.FitsHeader ∧ bytes = m.headerBytes := by
  rw [headerEmission]
  by_cases hparameters : 0x10000 ≤ m.parameterCount
  · rw [if_pos hparameters]
    exact iff_of_false not_writes_fail fun h => absurd h.1.1 (Nat.not_lt.2 hparameters)
  · rw [if_neg hparameters]
    by_cases hlocals : 0x10000 ≤ m.localCount
    · rw [if_pos hlocals]
      exact iff_of_false not_writes_fail fun h => absurd h.1.2 (Nat.not_lt.2 hlocals)
    · have hfits : m.FitsHeader := ⟨Nat.lt_of_not_le hparameters, Nat.lt_of_not_le hlocals⟩
      simp only [hlocals, ↓reduceIte, writes_write, writes_nil, hfits, true_and, headerBytes,
        exists_eq_left, List.append_nil]

theorem writes_headedEmission :
    Writes (m.headerEmission ++ m.emission lenient) bytes ↔
      (m.FitsHeader ∧ m.Writable lenient) ∧ bytes = m.headedEncoding := by
  simp only [writes_append, writes_headerEmission, writes_emission]
  constructor
  · rintro ⟨_, _, ⟨hfits, rfl⟩, ⟨hwritable, rfl⟩, rfl⟩
    exact ⟨⟨hfits, hwritable⟩, rfl⟩
  · rintro ⟨⟨hfits, hwritable⟩, rfl⟩
    exact ⟨_, _, ⟨hfits, rfl⟩, ⟨hwritable, rfl⟩, rfl⟩

theorem length_encoding (h : ∀ i ∈ m.instructions, i.HasArity) :
    m.encoding.length = (m.instructions.toList.map Instruction.size).sum := by
  have hsizes : ∀ i ∈ m.instructions.toList, i.encoding.length = i.size :=
    fun i hi => Instruction.length_encoding (h i (Array.mem_toList_iff.1 hi))
  rw [encoding, List.length_flatMap, List.map_congr_left hsizes]

end Method

namespace Program

structure Renderable (lenient : Bool) (p : Program) : Prop where
  entry : ∃ m, p.methods[0]? = some m ∧ m.isEntry = true
  headers : ∀ m ∈ p.others, m.FitsHeader
  arguments : ∀ m ∈ p.methods, m.Writable lenient

def constantBytes (constants : List Constant) : Bytes :=
  constants.flatMap fun c => Bytes.ofNat 4 c.value.toUInt32.toNat

def head (p : Program) : Bytes :=
  Bytes.ofNat 4 Image.magic ++ (Bytes.ofNat 4 Image.standardPoolOffset ++
    (Bytes.ofNat 4 (p.constants.size * 4) ++ (constantBytes p.constants.toList ++
      (Bytes.ofNat 4 0 ++ Bytes.ofNat 4 p.size))))

def text (p : Program) : Bytes :=
  (p.methods.toList.take 1).flatMap Method.encoding ++ p.others.flatMap Method.headedEncoding

def blockBytes (marker : Nat) (payload : Bytes) : Bytes :=
  Bytes.ofNat 4 marker ++ (Bytes.ofNat 4 payload.length ++ payload)

def trailer (p : Program) (withSymbols : Bool) : Bytes :=
  if withSymbols then
    blockBytes Image.methodMarker p.methodSymbols ++ blockBytes Image.labelMarker p.labelSymbols
  else []

variable {lenient withSymbols : Bool} {bytes : Bytes} {p : Program}

theorem writes_headEmission : Writes p.headEmission bytes ↔ bytes = p.head := by
  have hconstants : ∀ {e : Emission} {bytes : Bytes} {cs : List Constant},
      Writes (cs.map (fun c => Step.write (Bytes.ofNat 4 c.value.toUInt32.toNat)) ++ e) bytes ↔
        ∃ back, Writes e back ∧ bytes = constantBytes cs ++ back := by
    intro e bytes cs
    induction cs generalizing bytes with
    | nil => simp [constantBytes]
    | cons c rest ih =>
      simp only [List.map_cons, List.cons_append, writes_write, ih, constantBytes,
        List.flatMap_cons]
      constructor
      · rintro ⟨_, ⟨back, hback, rfl⟩, rfl⟩
        exact ⟨back, hback, by rw [List.append_assoc]⟩
      · rintro ⟨back, hback, rfl⟩
        exact ⟨_, ⟨back, hback, rfl⟩, by rw [List.append_assoc]⟩
  simp only [headEmission, writes_write, hconstants, writes_nil, exists_eq_left, List.append_nil,
    head]

theorem writes_blockEmission {marker : Nat} {payload : Bytes} :
    Writes (blockEmission marker payload) bytes ↔ bytes = blockBytes marker payload := by
  simp only [blockEmission, writes_write, writes_nil, exists_eq_left, List.append_nil, blockBytes]

theorem writes_symbolEmission : Writes p.symbolEmission bytes ↔ bytes = p.trailer true := by
  simp only [symbolEmission, writes_append, writes_blockEmission, writes_note, writes_nil, trailer,
    ↓reduceIte]
  constructor
  · rintro ⟨_, _, ⟨_, _, rfl, rfl, rfl⟩, rfl, rfl⟩
    exact List.append_nil _
  · rintro rfl
    exact ⟨_, _, ⟨_, _, rfl, rfl, rfl⟩, rfl, (List.append_nil _).symm⟩

theorem writes_emission_iff :
    Writes (p.emission lenient) bytes ↔ p.Renderable lenient ∧ bytes = p.head ++ p.text := by
  cases hentry? : p.entry? with
  | none =>
    rw [emission, hentry?]
    exact iff_of_false not_writes_fail fun h => entry?_eq_none_iff.1 hentry? h.1.entry
  | some entry =>
    obtain ⟨rest, h, hentry⟩ := exists_rest_of_entry? hentry?
    have hrest : p.methods.toList.drop 1 = rest := by rw [h, List.drop_succ_cons, List.drop_zero]
    have htext : p.text = entry.encoding ++ rest.flatMap Method.headedEncoding := by
      rw [text, others, hrest, h, List.take_succ_cons, List.take_zero, List.flatMap_singleton]
    have hrenderable : p.Renderable lenient ↔ entry.Writable lenient ∧
        ∀ m ∈ rest, m.FitsHeader ∧ m.Writable lenient := by
      constructor
      · rintro ⟨_, hheaders, harguments⟩
        simp only [← Array.mem_toList_iff, h, List.forall_mem_cons] at harguments
        rw [others, hrest] at hheaders
        exact ⟨harguments.1, fun m hm => ⟨hheaders m hm, harguments.2 m hm⟩⟩
      · rintro ⟨hwritable, hall⟩
        refine ⟨⟨entry, getElem?_zero_of_toList h, hentry⟩, fun m hm => ?_, ?_⟩
        · exact (hall m (hrest ▸ hm)).1
        · simp only [← Array.mem_toList_iff, h, List.forall_mem_cons]
          exact ⟨hwritable, fun m hm => (hall m hm).2⟩
    rw [emission, hentry?, hrenderable, htext]
    simp only [hrest, writes_append, writes_headEmission, Method.writes_emission,
      writes_flatMap fun (m : Method) _ => m.writes_headedEmission, writes_note, writes_nil]
    constructor
    · rintro ⟨_, _, ⟨_, _, ⟨_, _, rfl, ⟨hwritable, rfl⟩, rfl⟩, ⟨hall, rfl⟩, rfl⟩, rfl, rfl⟩
      exact ⟨⟨hwritable, hall⟩, by simp only [List.append_assoc, List.append_nil]⟩
    · rintro ⟨⟨hwritable, hall⟩, rfl⟩
      exact ⟨_, _, ⟨_, _, ⟨_, _, rfl, ⟨hwritable, rfl⟩, rfl⟩, ⟨hall, rfl⟩, rfl⟩, rfl,
        by simp only [List.append_assoc, List.append_nil]⟩

/-- When rendering gives an image, and which. -/
theorem render_eq_ok_iff :
    (p.render lenient withSymbols).result = .ok bytes ↔
      p.Renderable lenient ∧ bytes = p.head ++ (p.text ++ p.trailer withSymbols) := by
  change Writes (p.emission lenient ++ if withSymbols then p.symbolEmission else []) bytes ↔ _
  have htrailer : ∀ {bytes}, Writes (if withSymbols then p.symbolEmission else []) bytes ↔
      bytes = p.trailer withSymbols := by
    intro bytes
    cases withSymbols with
    | true => exact writes_symbolEmission
    | false => exact writes_nil
  simp only [writes_append, writes_emission_iff, htrailer]
  constructor
  · rintro ⟨_, _, ⟨hrenderable, rfl⟩, rfl, rfl⟩
    exact ⟨hrenderable, List.append_assoc _ _ _⟩
  · rintro ⟨hrenderable, rfl⟩
    exact ⟨_, _, ⟨hrenderable, rfl⟩, rfl, (List.append_assoc _ _ _).symm⟩

end Program

end IjvmAsm
