import IjvmAsm.InstructionSet.Operation

/-!
# Instruction sets

Two tables of operations, one by mnemonic and one by opcode in increasing order. An inserted
operation takes the place of the one with its mnemonic in the first table and of the one with its
opcode in the second, and each table keeps what the other one lost.
-/

namespace IjvmAsm

structure InstructionSet where
  name : String
  named : List Operation := []
  coded : List Operation := []
  deriving DecidableEq

namespace InstructionSet

def empty (name : String) : InstructionSet := { name }

def insertNamed (op : Operation) : List Operation → List Operation
  | [] => [op]
  | other :: rest =>
    if other.name = op.name then op :: rest else other :: insertNamed op rest

/-- Puts an operation in the place of the one with its opcode, or where the order wants it. -/
def insertCoded (op : Operation) : List Operation → List Operation
  | [] => [op]
  | other :: rest =>
    if op.opcode < other.opcode then op :: other :: rest
    else if op.opcode = other.opcode then op :: rest
    else other :: insertCoded op rest

def insert (set : InstructionSet) (op : Operation) : InstructionSet :=
  { set with named := insertNamed op set.named, coded := insertCoded op set.coded }

def find? (set : InstructionSet) (name : String) : Option Operation :=
  let name := name.toUpper
  set.named.find? fun op => op.name == name

def decode? (set : InstructionSet) (opcode : UInt8) : Option Operation :=
  set.coded.find? fun op => op.opcode == opcode

def contains (set : InstructionSet) (name : String) : Bool := (set.find? name).isSome

def hasOpcode (set : InstructionSet) (opcode : UInt8) : Bool := (set.decode? opcode).isSome

def size (set : InstructionSet) : Nat := set.named.length

def isEmpty (set : InstructionSet) : Bool := set.named.isEmpty

def operations (set : InstructionSet) : List Operation := set.coded

theorem mem_insertCoded {op other : Operation} {ops : List Operation}
    (h : other ∈ insertCoded op ops) : other = op ∨ other ∈ ops := by
  induction ops with
  | nil => simpa [insertCoded] using h
  | cons first rest ih =>
    simp only [insertCoded] at h
    split at h
    · simpa using h
    · split at h
      · rcases List.mem_cons.1 h with h | h
        · exact .inl h
        · exact .inr (List.mem_cons_of_mem _ h)
      · rcases List.mem_cons.1 h with h | h
        · exact .inr (h ▸ List.mem_cons_self)
        · exact (ih h).imp_right (List.mem_cons_of_mem _)

/-- Insertion keeps the opcodes increasing. -/
theorem pairwise_insertCoded (op : Operation) {ops : List Operation}
    (h : ops.Pairwise (·.opcode < ·.opcode)) :
    (insertCoded op ops).Pairwise (·.opcode < ·.opcode) := by
  induction ops with
  | nil => simp [insertCoded]
  | cons first rest ih =>
    obtain ⟨hfirst, hrest⟩ := List.pairwise_cons.1 h
    simp only [insertCoded]
    split
    next hlt =>
      refine List.pairwise_cons.2 ⟨fun other hother => ?_, h⟩
      rcases List.mem_cons.1 hother with rfl | hother
      · exact hlt
      · exact UInt8.lt_trans hlt (hfirst other hother)
    next hge =>
      split
      next heq =>
        exact List.pairwise_cons.2 ⟨fun other hother => heq ▸ hfirst other hother, hrest⟩
      next hne =>
        refine List.pairwise_cons.2 ⟨fun other hother => ?_, ih hrest⟩
        rcases mem_insertCoded hother with rfl | hother
        · have : ¬ other.opcode.toNat < first.opcode.toNat := hge
          have : other.opcode.toNat ≠ first.opcode.toNat := fun e => hne (UInt8.toNat_inj.1 e)
          show first.opcode.toNat < other.opcode.toNat
          omega
        · exact hfirst other hother

end InstructionSet

end IjvmAsm
