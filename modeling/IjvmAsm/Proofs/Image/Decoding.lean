import IjvmAsm.Image.Listing
import IjvmAsm.Proofs.Program.Encoding
import IjvmAsm.Proofs.Program.Laid

/-!
# Decoding what was encoded

A listing that has come to the offset of an instruction, with the same widening, shows the
instruction and goes on behind it. So it shows all instructions that stand one behind the other,
and a method behind a header that it knows of.
-/

namespace IjvmAsm

def Instruction.values (i : Instruction) : List Int := i.arguments.filterMap Argument.value?

def Instruction.codeLine (start : Nat) (i : Instruction) : CodeLine :=
  ⟨start + i.offset, i.operation, i.values, i.wide⟩

def Method.codeLines (start : Nat) (m : Method) : List ListingLine :=
  m.instructions.toList.map fun i => .instruction (i.codeLine start)

def Method.headedLines (m : Method) : List ListingLine :=
  .header m.offset m.parameterCount m.localCount :: m.codeLines (m.offset + Image.headerSize)

theorem Argument.filterMap_value? {arguments : List Argument} (h : ∀ a ∈ arguments, a.isPending = false) :
    arguments.filterMap Argument.value? = arguments.map Argument.valueOrZero := by
  induction arguments with
  | nil => rfl
  | cons a rest ih =>
    obtain ⟨ha, hrest⟩ := List.forall_mem_cons.1 h
    cases a with
    | resolved value => rw [List.filterMap_cons, ih hrest]; rfl
    | pending reference => cases ha

/-- Operands are read back from the bytes that are written for their arguments. -/
theorem OperandKind.readAll_operandBytes {wide : Bool} {kinds : List OperandKind}
    {arguments : List Argument} (hlength : arguments.length = kinds.length)
    (hfits : ∀ x ∈ kinds.zip arguments, x.1.fits wide x.2.valueOrZero = true) (tail : Bytes) :
    readAll wide kinds (Instruction.operandBytes wide kinds arguments ++ tail) =
      some (arguments.map Argument.valueOrZero, tail) := by
  induction kinds generalizing arguments with
  | nil =>
    rw [List.length_nil, List.length_eq_zero_iff] at hlength
    rw [hlength]
    rfl
  | cons kind kinds ih =>
    cases arguments with
    | nil => cases hlength
    | cons a rest =>
      rw [List.zip_cons_cons, List.forall_mem_cons] at hfits
      have hrest := ih (Nat.succ.inj hlength) hfits.2
      have htake : Bytes.take? (kind.size wide) (kind.encode wide a.valueOrZero ++
          (Instruction.operandBytes wide kinds rest ++ tail)) =
          some (kind.encode wide a.valueOrZero, Instruction.operandBytes wide kinds rest ++ tail) :=
        Bytes.take?_append (kind.length_encode wide _) _
      have hcons : Instruction.operandBytes wide (kind :: kinds) (a :: rest) =
          kind.encode wide a.valueOrZero ++ Instruction.operandBytes wide kinds rest := rfl
      rw [hcons, List.append_assoc, readAll, htake]
      simp only [Option.bind_eq_bind, Option.bind_some, hrest, value_encode hfits.1, List.map_cons,
        Option.pure_def]

namespace Image

variable {isHeader : Nat → Bool} {set : InstructionSet} {offset : Nat} {wide : Bool} {tail : Bytes}

theorem listingFrom_of_line {b : UInt8} {bytes rest : Bytes} {line : ListingLine}
    (h : listingLine isHeader set offset wide b bytes = .ok (line, rest)) :
    listingFrom isHeader set offset wide (b :: bytes) =
      (listingFrom isHeader set (offset + line.size) line.widens rest).map (line :: ·) := by
  rw [listingFrom]
  split
  next e he => rw [h] at he; cases he
  next line' rest' hline => rw [h] at hline; cases hline; rfl

/-- An instruction that a set decodes, with arguments that can be written where they stand. -/
structure Decodable (set : InstructionSet) (i : Instruction) : Prop where
  decoded : set.decode? i.operation.opcode = some i.operation
  arity : i.HasArity
  writable : i.Writable false

theorem Decodable.settled {i : Instruction} (hi : Decodable set i) :
    ∀ a ∈ i.arguments, a.isPending = false := by
  intro a ha
  rw [← List.map_snd_zip (Nat.le_of_eq hi.arity)] at ha
  obtain ⟨x, hx, rfl⟩ := List.mem_map.1 ha
  exact (hi.writable x hx).1.resolve_right Bool.false_ne_true

theorem Decodable.arguments_eq {i : Instruction} (hi : Decodable set i) :
    i.arguments = i.values.map Argument.resolved := by
  have hvalues : ∀ a ∈ i.arguments, Argument.resolved a.valueOrZero = id a := by
    intro a ha
    cases a with
    | resolved value => rfl
    | pending reference => cases hi.settled _ ha
  rw [Instruction.values, Argument.filterMap_value? hi.settled, List.map_map]
  exact ((List.map_congr_left hvalues).trans (List.map_id _)).symm

theorem listingFrom_instruction {i : Instruction} (hi : Decodable set i)
    (hheader : isHeader offset = false) :
    listingFrom isHeader set offset i.wide (i.encoding ++ tail) =
      (listingFrom isHeader set (offset + i.size) i.operation.widens tail).map
        (.instruction ⟨offset, i.operation, i.values, i.wide⟩ :: ·) := by
  have hread := OperandKind.readAll_operandBytes hi.arity (fun x hx => (hi.writable x hx).2) tail
  have hline : listingLine isHeader set offset i.wide i.operation.opcode
      (Instruction.operandBytes i.wide i.operation.operands i.arguments ++ tail) =
      .ok (.instruction ⟨offset, i.operation, i.values, i.wide⟩, tail) := by
    simp only [listingLine, hheader, hi.decoded, Bool.false_eq_true, ↓reduceIte, hread,
      Instruction.values, Argument.filterMap_value? hi.settled]
  rw [Instruction.encoding, List.cons_append, listingFrom_of_line hline]
  rfl

/-- Instructions that stand one behind the other are shown in their order. -/
theorem listingFrom_instructions {start stop first : Nat} {after : Bool} {is : List Instruction}
    (h : Laid first wide is stop after) (hall : ∀ i ∈ is, Decodable set i)
    (hheaders : ∀ i ∈ is, isHeader (start + i.offset) = false) (tail : Bytes) :
    listingFrom isHeader set (start + first) wide (is.flatMap Instruction.encoding ++ tail) =
      (listingFrom isHeader set (start + stop) after tail).map
        (is.map (fun i => .instruction (i.codeLine start)) ++ ·) := by
  induction h with
  | nil first wide =>
    rw [List.flatMap_nil, List.nil_append, List.map_nil]
    cases listingFrom isHeader set (start + first) wide tail <;> rfl
  | @cons i rest stop after hrest ih =>
    obtain ⟨hi, hall⟩ := List.forall_mem_cons.1 hall
    obtain ⟨hheader, hheaders⟩ := List.forall_mem_cons.1 hheaders
    rw [List.flatMap_cons, List.append_assoc, listingFrom_instruction hi hheader, Nat.add_assoc,
      ih hall hheaders, List.map_cons]
    cases listingFrom isHeader set (start + stop) after tail <;> rfl

theorem listingFrom_header {m : Method} (hfits : m.FitsHeader) (hheader : isHeader m.offset = true) :
    listingFrom isHeader set m.offset wide (m.headerBytes ++ tail) =
      (listingFrom isHeader set (m.offset + headerSize) false tail).map
        (.header m.offset m.parameterCount m.localCount :: ·) := by
  have hcount : ∀ n < 2 ^ 16, Bytes.toNat [UInt8.ofNat (n / 256), UInt8.ofNat n] = n :=
    fun n hn => (Bytes.toNat_ofNat 2 n).trans (Nat.mod_eq_of_lt hn)
  have hline : listingLine isHeader set m.offset wide (UInt8.ofNat (m.parameterCount / 256))
      (UInt8.ofNat m.parameterCount :: UInt8.ofNat (m.localCount / 256) ::
        UInt8.ofNat m.localCount :: tail) =
      .ok (.header m.offset m.parameterCount m.localCount, tail) := by
    simp only [listingLine, hheader, ↓reduceIte, hcount _ hfits.1, hcount _ hfits.2]
  exact listingFrom_of_line hline

/-- A method behind its header is shown with it. -/
theorem listingFrom_method {m : Method} (hlaid : m.LaidOut) (hfits : m.FitsHeader)
    (hall : ∀ i ∈ m.instructions, Decodable set i) (hheader : isHeader m.offset = true)
    (hheaders : ∀ i ∈ m.instructions, isHeader (m.offset + headerSize + i.offset) = false) :
    listingFrom isHeader set m.offset wide (m.headedEncoding ++ tail) =
      (listingFrom isHeader set (m.offset + headerSize + m.size) m.widensNext tail).map
        (m.headedLines ++ ·) := by
  have hinstructions := listingFrom_instructions hlaid.laid
    (fun i hi => hall i (Array.mem_toList_iff.1 hi))
    (fun i hi => hheaders i (Array.mem_toList_iff.1 hi)) tail
  rw [Nat.add_zero] at hinstructions
  rw [Method.headedEncoding, List.append_assoc, listingFrom_header hfits hheader, Method.encoding,
    hinstructions]
  cases listingFrom isHeader set (m.offset + headerSize + m.size) m.widensNext tail <;> rfl

end Image

end IjvmAsm
