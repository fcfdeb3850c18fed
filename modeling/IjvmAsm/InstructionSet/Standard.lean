import IjvmAsm.InstructionSet.Basic

/-!
# The standard instruction set

The operations of the machine that images are made for, and the mnemonics that assembling relies
on.
-/

namespace IjvmAsm.InstructionSet

def pushName : String := "BIPUSH"

def outName : String := "OUT"

def standardOperations : List Operation :=
  [⟨"NOP", 0x00, []⟩, ⟨pushName, 0x10, [.byte]⟩, ⟨"LDC_W", 0x13, [.constant]⟩,
    ⟨"ILOAD", 0x15, [.var]⟩, ⟨"ISTORE", 0x36, [.var]⟩, ⟨"POP", 0x57, []⟩, ⟨"DUP", 0x59, []⟩,
    ⟨"SWAP", 0x5F, []⟩, ⟨"IADD", 0x60, []⟩, ⟨"ISUB", 0x64, []⟩, ⟨"IAND", 0x7E, []⟩,
    ⟨"IINC", 0x84, [.var, .byte]⟩, ⟨"IFEQ", 0x99, [.label]⟩, ⟨"IFLT", 0x9B, [.label]⟩,
    ⟨"IF_ICMPEQ", 0x9F, [.label]⟩, ⟨"GOTO", 0xA7, [.label]⟩, ⟨"IRETURN", 0xAC, []⟩,
    ⟨"IOR", 0xB0, []⟩, ⟨"INVOKEVIRTUAL", 0xB6, [.method]⟩, ⟨Operation.wideName, 0xC4, []⟩,
    ⟨"IN", 0xFC, []⟩, ⟨outName, 0xFD, []⟩, ⟨"ERR", 0xFE, []⟩, ⟨"HALT", 0xFF, []⟩]

/-- The set used where no definition is given. Its operations have different mnemonics and stand
by increasing opcode, so the list serves as both tables. -/
def standard : InstructionSet := ⟨"default", standardOperations, standardOperations⟩

theorem standard_eq_foldl : standard = standardOperations.foldl insert (empty "default") := by
  decide +kernel

end IjvmAsm.InstructionSet
