import IjvmAsm.Program.Emission
import Mathlib.Data.List.Basic

/-!
# Zeros for what is pending

A lenient rendering writes a zero wherever a reference is pending. This is what a strict rendering
does with the program in which zeros stand in the place of these references: it writes the same,
remarks the same and fails for the same reason.
-/

namespace IjvmAsm

def Argument.zeroed : Argument → Argument
  | resolved value => resolved value
  | pending _ => resolved 0

def Instruction.zeroed (i : Instruction) : Instruction :=
  { i with arguments := i.arguments.map Argument.zeroed }

def Method.zeroed (m : Method) : Method :=
  { m with instructions := m.instructions.map Instruction.zeroed }

def Program.zeroed (p : Program) : Program := { p with methods := p.methods.map Method.zeroed }

namespace Instruction

theorem argumentStep_zeroed (i : Instruction) (method : String) (kind : OperandKind)
    (a : Argument) :
    i.zeroed.argumentStep false method kind a.zeroed = i.argumentStep true method kind a := by
  cases a <;> rfl

theorem emission_zeroed (i : Instruction) (method : String) :
    i.zeroed.emission false method = i.emission true method := by
  have hsteps : (fun kind a => i.zeroed.argumentStep false method kind a.zeroed) =
      i.argumentStep true method := by
    funext kind a
    exact i.argumentStep_zeroed method kind a
  rw [emission, emission, zeroed, List.zipWith_map_right, ← hsteps]
  rfl

end Instruction

namespace Method

theorem emission_zeroed (m : Method) : m.zeroed.emission false = m.emission true := by
  have hinstructions : m.zeroed.instructions.toList.flatMap (Instruction.emission false m.name) =
      m.instructions.toList.flatMap (Instruction.emission true m.name) := by
    rw [zeroed, Array.toList_map, List.flatMap_map]
    exact List.flatMap_congr fun i _ => i.emission_zeroed m.name
  exact congrArg (List.cons _) hinstructions

end Method

namespace Program

variable {p : Program}

theorem toList_methods_zeroed (p : Program) :
    p.zeroed.methods.toList = p.methods.toList.map Method.zeroed := Array.toList_map

theorem entry?_zeroed (p : Program) : p.zeroed.entry? = p.entry?.map Method.zeroed := by
  rw [ entry?, entry?, zeroed, Array.getElem?_map, Option.filter_map]
  rfl

theorem size_zeroed (p : Program) : p.zeroed.size = p.size := by
  rw [size, toList_methods_zeroed, List.foldr_map]
  rfl

theorem headEmission_zeroed (p : Program) : p.zeroed.headEmission = p.headEmission := by
  rw [headEmission, headEmission, size_zeroed]
  rfl

theorem emission_zeroed (p : Program) : p.zeroed.emission false = p.emission true := by
  have hothers : (p.zeroed.methods.toList.drop 1).flatMap
        (fun m => m.headerEmission ++ m.emission false) =
      (p.methods.toList.drop 1).flatMap fun m => m.headerEmission ++ m.emission true := by
    rw [toList_methods_zeroed, ← List.map_drop, List.flatMap_map]
    refine List.flatMap_congr fun m _ => ?_
    rw [m.emission_zeroed]
    rfl
  rw [emission, emission, entry?_zeroed]
  cases p.entry? with
  | none => rfl
  | some entry =>
    have hcount : p.zeroed.methods.size = p.methods.size := Array.size_map
    simp only [Option.map_some, headEmission_zeroed, entry.emission_zeroed, hothers, size_zeroed,
      hcount]
    rfl

theorem offsetsFrom_zeroed (cursor : Nat) (ms : List Method) :
    offsetsFrom cursor (ms.map Method.zeroed) = offsetsFrom cursor ms := by
  induction ms generalizing cursor with
  | nil => rfl
  | cons m rest ih => exact congrArg (List.cons cursor) (ih _)

theorem symbolEmission_zeroed (p : Program) : p.zeroed.symbolEmission = p.symbolEmission := by
  have hmethods : p.zeroed.methodSymbols = p.methodSymbols := by
    rw [methodSymbols, methodSymbols, toList_methods_zeroed, offsetsFrom_zeroed,
      List.zipWith_map_left]
    rfl
  have hlabels : p.zeroed.labelSymbols = p.labelSymbols := by
    rw [labelSymbols, labelSymbols, toList_methods_zeroed, offsetsFrom_zeroed,
      List.zipWith_map_left]
    rfl
  rw [symbolEmission, symbolEmission, hmethods, hlabels]

/-- A lenient rendering is a strict one with zeros for what is pending. -/
theorem render_zeroed (p : Program) (withSymbols : Bool) :
    p.zeroed.render false withSymbols = p.render true withSymbols := by
  rw [render, render, emission_zeroed, symbolEmission_zeroed]

end Program

end IjvmAsm
