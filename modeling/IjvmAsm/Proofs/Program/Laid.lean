import IjvmAsm.Proofs.Program.Resolution

/-!
# Instructions in a method

The instructions of a method stand one behind the other from offset zero on, and one is wide
exactly behind one that widens. Appending keeps this, and sealing computes nothing new.
-/

namespace IjvmAsm

/-- Instructions from an offset on, the first of which is wide or not, up to another offset. The
last argument says whether an instruction behind them would be wide. -/
inductive Laid : Nat → Bool → List Instruction → Nat → Bool → Prop
  | nil (offset : Nat) (wide : Bool) : Laid offset wide [] offset wide
  | cons {i : Instruction} {rest : List Instruction} {stop : Nat} {after : Bool}
      (h : Laid (i.offset + i.size) i.operation.widens rest stop after) :
      Laid i.offset i.wide (i :: rest) stop after

theorem Instruction.Alike.size_eq {i i' : Instruction} (h : i.Alike i') : i'.size = i.size := by
  rw [size, size, h.operation, h.wide]

namespace Laid

variable {start stop : Nat} {wide after : Bool} {is : List Instruction}

theorem snoc (h : Laid start wide is stop after) {i : Instruction} (hoffset : i.offset = stop)
    (hwide : i.wide = after) :
    Laid start wide (is ++ [i]) (stop + i.size) i.operation.widens := by
  induction h with
  | nil offset wide =>
    subst hoffset hwide
    exact .cons (.nil _ _)
  | cons _ ih => exact .cons (ih hoffset hwide)

theorem stop_eq (h : Laid start wide is stop after) : stop = start + (is.map Instruction.size).sum := by
  induction h with
  | nil => rfl
  | cons _ ih =>
    rw [ih, List.map_cons, List.sum_cons]
    omega

theorem offset_le (h : Laid start wide is stop after) {i : Instruction} (hi : i ∈ is) :
    start ≤ i.offset ∧ i.offset + i.size ≤ stop := by
  induction h with
  | nil => cases hi
  | @cons first rest stop after hrest ih =>
    rcases List.mem_cons.1 hi with rfl | hi
    · have hstop := hrest.stop_eq
      omega
    · obtain ⟨hstart, hstop⟩ := ih hi
      exact ⟨by omega, hstop⟩

theorem placeFrom_eq (h : Laid start wide is stop after) : Method.placeFrom start is = is := by
  induction h with
  | nil => rfl
  | cons _ ih => rw [Method.placeFrom, ih]

theorem alike (h : Laid start wide is stop after) {is' : List Instruction}
    (hall : List.Forall₂ Instruction.Alike is is') : Laid start wide is' stop after := by
  induction h generalizing is' with
  | nil =>
    cases hall
    exact .nil _ _
  | @cons i rest stop after hrest ih =>
    obtain _ | @⟨_, i', _, rest', hi, hall⟩ := hall
    have hrest' := ih hall
    rw [← hi.offset, ← hi.size_eq, ← hi.operation] at hrest'
    rw [← hi.offset, ← hi.wide]
    exact .cons hrest'

end Laid

namespace Method

structure LaidOut (m : Method) : Prop where
  laid : Laid 0 false m.instructions.toList m.size m.widensNext
  labels : ∀ l ∈ m.labels, l.offset ≤ m.size

variable {m m' : Method}

theorem LaidOut.size_eq (h : m.LaidOut) :
    m.size = (m.instructions.toList.map Instruction.size).sum := by
  rw [h.laid.stop_eq, Nat.zero_add]

theorem LaidOut.offset_lt (h : m.LaidOut) {i : Instruction} (hi : i ∈ m.instructions) :
    i.offset < m.size := by
  have hle := (h.laid.offset_le (Array.mem_toList_iff.2 hi)).2
  have hpos := i.size_pos
  omega

theorem LaidOut.push (h : m.LaidOut) {i : Instruction} (hi : i.wide = false) :
    (m.push i).LaidOut where
  laid := by
    simp only [Method.push, Array.toList_push, hi, Bool.false_or]
    exact h.laid.snoc rfl rfl
  labels := by
    intro l hl
    have hlabel := h.labels l hl
    change l.offset ≤ m.size + _
    omega

theorem LaidOut.addVariable (h : m.LaidOut) (name : String) : (m.addVariable name).LaidOut :=
  ⟨h.laid, h.labels⟩

theorem LaidOut.addLabel (h : m.LaidOut) {name : String} {line : Nat}
    (hadd : m.addLabel name line = .ok m') : m'.LaidOut := by
  unfold Method.addLabel at hadd
  split at hadd
  · cases hadd
  · cases hadd
    refine ⟨h.laid, fun l hl => ?_⟩
    rcases Array.mem_push.1 hl with hl | rfl
    · exact h.labels l hl
    · exact Nat.le_refl _

theorem LaidOut.instructions_sealed (h : m.LaidOut) : m.sealed.instructions = m.instructions := by
  simp only [Method.sealed, h.laid.placeFrom_eq]

theorem LaidOut.sealed (h : m.LaidOut) : m.sealed.LaidOut := by
  have hplaced := h.laid.placeFrom_eq
  have hsize : m.instructions.toList.foldr (fun i n => i.size + n) 0 = m.size := by
    rw [Instruction.foldr_size, h.size_eq]
  refine ⟨?_, fun l hl => ?_⟩
  · simp only [Method.sealed, hplaced, hsize]
    exact h.laid
  · obtain ⟨l', hl', rfl⟩ := Array.mem_map.1 hl
    simp only [Method.sealed, hplaced, hsize]
    cases hat : m.instructions.toList.toArray[l'.index]? with
    | none => exact Nat.le_refl _
    | some i =>
      have hi : i ∈ m.instructions.toList := by
        rw [← List.mem_toArray]
        exact Array.mem_of_getElem? hat
      have hle := (h.laid.offset_le hi).2
      change i.offset ≤ m.size
      omega

theorem LaidOut.alike (h : m.LaidOut) (halike : m.Alike m') : m'.LaidOut := by
  constructor
  · rw [halike.size, halike.widensNext]
    exact h.laid.alike halike.instructions
  · rw [halike.labels, halike.size]
    exact h.labels

end Method

end IjvmAsm
