import IjvmAsm.InstructionSet.Operand
import IjvmAsm.Literal

/-!
# Operations

An operation has a mnemonic in capitals, an opcode and the kinds of its operands, which say how
many bytes it takes.
-/

namespace IjvmAsm

structure Operation where
  name : String
  opcode : UInt8
  operands : List OperandKind
  deriving DecidableEq

namespace Operation

def wideName : String := "WIDE"

def make (name : String) (opcode : UInt8) (operands : List OperandKind) : Operation :=
  ⟨name.toUpper, opcode, operands⟩

def size (op : Operation) (wide : Bool) : Nat :=
  1 + op.operands.foldr (fun kind n => kind.size wide + n) 0

theorem size_pos (op : Operation) (wide : Bool) : 0 < op.size wide := by
  unfold size; omega

def widens (op : Operation) : Bool := op.name == wideName

def text (op : Operation) : String :=
  s!"0x{Numeral.hex 2 op.opcode.toNat} {op.name}" ++
    String.join (op.operands.map fun kind => " " ++ kind.name)

end Operation

end IjvmAsm
