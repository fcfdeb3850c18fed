import IjvmAsm.Proofs.Program.Encoding
import Mathlib.Data.List.Forall2

/-!
# The bytes of instructions and methods

Which bytes stand for an instruction, for a method and for methods one behind the other, said
without what writes them. What is written for instructions and methods whose arguments fit stands
for them.
-/

namespace IjvmAsm

/-- One resolved argument for each kind of operand, and the bytes of all of them. -/
inductive Instruction.OperandsCoded (wide : Bool) : List OperandKind → List Argument → Bytes → Prop
  | nil : OperandsCoded wide [] [] []
  | cons {kind : OperandKind} {kinds : List OperandKind} {value : Int} {arguments : List Argument}
      {front back : Bytes} (first : kind.Coded wide value front)
      (rest : OperandsCoded wide kinds arguments back) :
      OperandsCoded wide (kind :: kinds) (.resolved value :: arguments) (front ++ back)

inductive Instruction.Coded (i : Instruction) : Bytes → Prop
  | mk {bytes : Bytes} (operands : OperandsCoded i.wide i.operation.operands i.arguments bytes) :
      Coded i (i.operation.opcode :: bytes)

inductive Method.Coded (m : Method) : Bytes → Prop
  | mk {parts : List Bytes}
      (instructions : List.Forall₂ Instruction.Coded m.instructions.toList parts) :
      Coded m parts.flatten

/-- The count of the parameters, that of the locals, and the instructions. -/
inductive Method.HeadedCoded (m : Method) : Bytes → Prop
  | mk {a b c d : UInt8} {bytes : Bytes} (parameters : m.parameterCount = 256 * a.toNat + b.toNat)
      (locals : m.localCount = 256 * c.toNat + d.toNat) (instructions : m.Coded bytes) :
      HeadedCoded m (a :: b :: c :: d :: bytes)

/-- Methods with their headers from a place on, each one at its offset. -/
inductive Program.RowCoded : Nat → List Method → Bytes → Prop
  | nil {place : Nat} : RowCoded place [] []
  | cons {place : Nat} {m : Method} {ms : List Method} {front back : Bytes}
      (placed : m.offset = place) (first : m.HeadedCoded front)
      (rest : RowCoded (place + front.length) ms back) : RowCoded place (m :: ms) (front ++ back)

namespace Instruction

variable {i : Instruction} {wide : Bool}

theorem operandsCoded_operandBytes {kinds : List OperandKind} {arguments : List Argument}
    (harity : arguments.length = kinds.length)
    (hwritable : ∀ x ∈ kinds.zip arguments, x.2.Writable false wide x.1) :
    OperandsCoded wide kinds arguments (operandBytes wide kinds arguments) := by
  induction kinds generalizing arguments with
  | nil =>
    rw [List.length_nil, List.length_eq_zero_iff] at harity
    rw [harity]
    exact .nil
  | cons kind kinds ih =>
    cases arguments with
    | nil => cases harity
    | cons a rest =>
      rw [List.zip_cons_cons, List.forall_mem_cons] at hwritable
      obtain ⟨⟨hsettled, hfits⟩, hmore⟩ := hwritable
      cases a with
      | pending reference => exact absurd (hsettled.resolve_right Bool.false_ne_true) nofun
      | resolved value =>
        exact .cons (OperandKind.coded_encode hfits) (ih (Nat.succ.inj harity) hmore)

theorem coded_encoding (harity : i.HasArity) (hwritable : i.Writable false) : i.Coded i.encoding :=
  .mk (operandsCoded_operandBytes harity hwritable)

end Instruction

namespace Method

variable {m : Method}

theorem coded_encoding (harity : ∀ i ∈ m.instructions, i.HasArity) (hwritable : m.Writable false) :
    m.Coded m.encoding := by
  have hall : List.Forall₂ Instruction.Coded m.instructions.toList
      (m.instructions.toList.map Instruction.encoding) := by
    rw [List.forall₂_map_right_iff, List.forall₂_same]
    intro i hi
    rw [Array.mem_toList_iff] at hi
    exact Instruction.coded_encoding (harity i hi) (hwritable i hi)
  exact .mk hall

theorem headedCoded_headedEncoding (harity : ∀ i ∈ m.instructions, i.HasArity)
    (hwritable : m.Writable false) (hfits : m.FitsHeader) : m.HeadedCoded m.headedEncoding := by
  have hpair : ∀ n < 2 ^ 16,
      n = 256 * (UInt8.ofNat (n / 256)).toNat + (UInt8.ofNat n).toNat := by
    intro n hn
    rw [UInt8.toNat_ofNat', UInt8.toNat_ofNat']
    omega
  exact .mk (hpair _ hfits.1) (hpair _ hfits.2) (coded_encoding harity hwritable)

end Method

end IjvmAsm
