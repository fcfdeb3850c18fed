import IjvmAsm.Proofs.Script.Basic

/-!
# Scripts that are written down

Every line of the canonical source of a script is read as it is written: it is made of items and of
a few marks, and holds no comment.
-/

namespace IjvmAsm.Script

variable {first name : String} {more : List String}

variable {script : Script} {r : Routine}

theorem item_of_mem_standard {op : Operation} (h : op ∈ InstructionSet.standardOperations) :
    Source.Item op.name := by
  have hall : ∀ op ∈ InstructionSet.standardOperations, op.name.toList ≠ [] ∧
      op.name.toList.all Source.isNameChar = true := by decide
  exact ⟨(hall op h).1, List.all_eq_true.1 (hall op h).2⟩

end IjvmAsm.Script
