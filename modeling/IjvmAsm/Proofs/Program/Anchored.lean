import IjvmAsm.Proofs.Program.Laid

/-!
# Where labels stand

A label stands before the instruction that its index says, and its offset is that of this
instruction, or the size of the method if none has followed. Whatever is added to a method, its
labels keep their names and their places.
-/

namespace IjvmAsm

theorem Laid.offset_eq {start stop : Nat} {wide after : Bool} {is : List Instruction}
    (h : Laid start wide is stop after) {n : Nat} {i : Instruction} (hi : is[n]? = some i) :
    i.offset = start + ((is.take n).map Instruction.size).sum := by
  induction h generalizing n with
  | nil => cases hi
  | @cons first rest stop after hrest ih =>
    cases n with
    | zero =>
      cases hi
      rfl
    | succ n =>
      rw [ih hi, List.take_succ_cons, List.map_cons, List.sum_cons, Nat.add_assoc]

def Instruction.atStart (i : Instruction) : Instruction := { i with offset := 0 }

namespace Method

variable {m m' m'' : Method}

def sizeBefore (m : Method) (n : Nat) : Nat :=
  ((m.instructions.toList.take n).map Instruction.size).sum

theorem LaidOut.offset_eq (h : m.LaidOut) {n : Nat} {i : Instruction}
    (hi : m.instructions[n]? = some i) : i.offset = m.sizeBefore n := by
  rw [← Array.getElem?_toList] at hi
  rw [h.laid.offset_eq hi, sizeBefore, Nat.zero_add]

theorem LaidOut.sizeBefore_size (h : m.LaidOut) : m.sizeBefore m.instructions.size = m.size := by
  rw [h.size_eq, sizeBefore, ← Array.length_toList, List.take_length]

theorem sizeBefore_push {i : Instruction} {n : Nat} (hn : n ≤ m.instructions.size) :
    (m.push i).sizeBefore n = m.sizeBefore n := by
  rw [sizeBefore, push, Array.toList_push, List.take_append_of_le_length (by simpa using hn)]
  rfl

/-- The labels of a method know where they stand. -/
def Anchored (m : Method) : Prop :=
  ∀ l ∈ m.labels, l.index ≤ m.instructions.size ∧ l.offset = m.sizeBefore l.index

theorem Anchored.push (h : m.Anchored) (i : Instruction) : (m.push i).Anchored := by
  intro l hl
  obtain ⟨hle, hoffset⟩ := h l hl
  rw [sizeBefore_push hle]
  refine ⟨?_, hoffset⟩
  rw [Method.push, Array.size_push]
  exact Nat.le_succ_of_le hle

theorem Anchored.addLabel (h : m.Anchored) (hsize : m.size = m.sizeBefore m.instructions.size)
    {name : String} {line : Nat} (hadd : m.addLabel name line = .ok m') : m'.Anchored := by
  unfold Method.addLabel at hadd
  split at hadd
  · cases hadd
  · cases hadd
    intro l hl
    rcases Array.mem_push.1 hl with hl | rfl
    · exact h l hl
    · exact ⟨Nat.le_refl _, hsize⟩

def emitted (m : Method) : List (Operation × Nat) :=
  m.instructions.toList.map fun i => (i.operation, i.line)

@[simp] theorem length_emitted (m : Method) : m.emitted.length = m.instructions.size := by
  rw [emitted, List.length_map, Array.length_toList]

theorem map_placeFrom (cursor : Nat) (is : List Instruction) :
    (placeFrom cursor is).map Instruction.atStart = is.map Instruction.atStart := by
  induction is generalizing cursor with
  | nil => rfl
  | cons i rest ih =>
    rw [placeFrom, List.map_cons, List.map_cons, ih]
    rfl

/-- Instructions are only added behind those that are there, and labels are found under their names
and before the same instructions as before. -/
structure Prolongs (m m' : Method) : Prop where
  instructions : m.instructions.toList.map Instruction.atStart <+:
    m'.instructions.toList.map Instruction.atStart
  labels : ∀ {name l}, m.findLabel? name = some l →
    ∃ l', m'.findLabel? name = some l' ∧ l'.index = l.index

theorem Prolongs.refl (m : Method) : m.Prolongs m := ⟨List.prefix_rfl, fun h => ⟨_, h, rfl⟩⟩

theorem Prolongs.trans (h : m.Prolongs m') (h' : m'.Prolongs m'') : m.Prolongs m'' := by
  refine ⟨h.instructions.trans h'.instructions, fun hl => ?_⟩
  obtain ⟨l', hl', hindex⟩ := h.labels hl
  obtain ⟨l'', hl'', hindex'⟩ := h'.labels hl'
  exact ⟨l'', hl'', hindex'.trans hindex⟩

theorem Prolongs.emitted (h : m.Prolongs m') : m.emitted <+: m'.emitted := by
  have hemitted : ∀ m : Method, m.emitted =
      (m.instructions.toList.map Instruction.atStart).map fun i => (i.operation, i.line) := by
    intro m
    rw [List.map_map]
    rfl
  rw [hemitted, hemitted]
  exact h.instructions.map _

theorem prolongs_addVariable (m : Method) (name : String) : m.Prolongs (m.addVariable name) :=
  ⟨List.prefix_rfl, fun h => ⟨_, h, rfl⟩⟩

theorem prolongs_addLabel {name : String} {line : Nat} (h : m.addLabel name line = .ok m') :
    m.Prolongs m' := by
  unfold Method.addLabel at h
  split at h
  · cases h
  · cases h
    refine ⟨List.prefix_rfl, @fun name' l hl => ⟨l, ?_, rfl⟩⟩
    rw [findLabel?] at hl ⊢
    rw [Array.find?_push, hl]
    rfl

/-- A label that could be added is found before the instruction to come. -/
theorem findLabel?_addLabel {name : String} {line : Nat} (h : m.addLabel name line = .ok m') :
    ∃ l, m'.findLabel? name = some l ∧ l.index = m.instructions.size := by
  unfold Method.addLabel at h
  split at h
  · cases h
  next hnone =>
    cases h
    refine ⟨⟨name, line, m.size, m.instructions.size⟩, ?_, rfl⟩
    rw [findLabel?] at hnone ⊢
    rw [Array.find?_push, hnone]
    simp

/-- Sealing gives labels other offsets only. -/
theorem exists_labels_sealed (m : Method) :
    ∃ f : Label → Nat, m.sealed.labels = m.labels.map fun l => { l with offset := f l } := ⟨_, rfl⟩

theorem prolongs_sealed (m : Method) : m.Prolongs m.sealed := by
  have hplaced : m.sealed.instructions.toList.map Instruction.atStart =
      m.instructions.toList.map Instruction.atStart := map_placeFrom 0 m.instructions.toList
  refine ⟨hplaced ▸ List.prefix_rfl, @fun name l hl => ?_⟩
  obtain ⟨f, hlabels⟩ := m.exists_labels_sealed
  refine ⟨{ l with offset := f l }, ?_, rfl⟩
  rw [findLabel?] at hl
  rw [findLabel?, hlabels, Array.find?_map]
  change (m.labels.find? fun l => l.name == name).map _ = _
  rw [hl]
  rfl

end Method

end IjvmAsm
