import IjvmAsm.Proofs.Program.Anchored

/-!
# What sealing computes

Sealing gives each instruction the sum of the sizes before it, each label the sum up to its index,
and the method the sum of all sizes, whatever was recorded before. The sums that are kept while
variables, labels and instructions are added are the same, so sealing changes nothing in a method
to which things were only added.
-/

namespace IjvmAsm.Method

variable {m : Method}

theorem getElem?_placeFrom (cursor : Nat) (is : List Instruction) (n : Nat) :
    (placeFrom cursor is)[n]? =
      is[n]?.map fun i => { i with offset := cursor + ((is.take n).map Instruction.size).sum } := by
  induction is generalizing cursor n with
  | nil => rfl
  | cons i rest ih =>
    cases n with
    | zero => rfl
    | succ n =>
      rw [placeFrom, List.getElem?_cons_succ, List.getElem?_cons_succ, ih]
      simp only [List.take_succ_cons, List.map_cons, List.sum_cons, Nat.add_assoc]

theorem sizeBefore_of_le {n : Nat} (hn : m.instructions.size ≤ n) :
    m.sizeBefore n = (m.instructions.toList.map Instruction.size).sum := by
  rw [sizeBefore, List.take_of_length_le]
  simpa using hn

theorem instructions_sealed (m : Method) : m.sealed.instructions =
    m.instructions.mapIdx fun n i => { i with offset := m.sizeBefore n } := by
  apply Array.ext_getElem?
  intro n
  have hlist : m.instructions[n]? = m.instructions.toList[n]? := Array.getElem?_toList.symm
  rw [Array.getElem?_mapIdx, hlist]
  simp only [sealed, List.getElem?_toArray, getElem?_placeFrom, Nat.zero_add]
  rfl

theorem size_sealed (m : Method) : m.sealed.size = m.sizeBefore m.instructions.size := by
  rw [sizeBefore_of_le (Nat.le_refl _)]
  exact Instruction.foldr_size _

theorem size_instructions_sealed (m : Method) :
    m.sealed.instructions.size = m.instructions.size := by
  rw [instructions_sealed, Array.size_mapIdx]

/-- An index beyond the instructions counts all of them. -/
theorem labels_sealed (m : Method) : m.sealed.labels = m.labels.map fun l =>
    { l with offset := m.sizeBefore (min l.index m.instructions.size) } := by
  change (m.labels.map fun l =>
    { l with
      offset := (m.sealed.instructions[l.index]?.map Instruction.offset).getD
        m.sealed.size }) = _
  apply Array.map_congr_left
  intro l _
  rw [instructions_sealed, Array.getElem?_mapIdx]
  by_cases hl : l.index < m.instructions.size
  · rw [Array.getElem?_eq_getElem hl, Nat.min_eq_left (Nat.le_of_lt hl)]
    rfl
  · have hle : m.instructions.size ≤ l.index := Nat.le_of_not_lt hl
    rw [Array.getElem?_eq_none hle, Nat.min_eq_right hle, size_sealed]
    rfl

/-- Sealing gives a method other offsets and another size, and nothing else. -/
theorem sealed_eq (m : Method) : m.sealed = { m with
    instructions := m.instructions.mapIdx fun n i => { i with offset := m.sizeBefore n }
    labels := m.labels.map fun l =>
      { l with offset := m.sizeBefore (min l.index m.instructions.size) }
    size := m.sizeBefore m.instructions.size } := by
  rw [← instructions_sealed, ← labels_sealed, ← size_sealed]
  rfl

/-- The size of an instruction does not depend on its offset. -/
theorem sizeBefore_sealed (m : Method) (n : Nat) : m.sealed.sizeBefore n = m.sizeBefore n := by
  have hplaced : m.sealed.instructions.toList.map Instruction.atStart =
      m.instructions.toList.map Instruction.atStart := map_placeFrom 0 _
  have hstart : ∀ m : Method, m.sizeBefore n =
      (((m.instructions.toList.map Instruction.atStart).take n).map Instruction.size).sum := by
    intro m
    rw [← List.map_take, List.map_map]
    rfl
  rw [hstart m.sealed, hplaced, ← hstart m]

theorem sealed_sealed (m : Method) : m.sealed.sealed = m.sealed := by
  rw [sealed_eq m.sealed]
  simp only [sizeBefore_sealed, size_instructions_sealed]
  rw [sealed_eq m]
  simp only [Array.mapIdx_mapIdx, Array.map_map]
  rfl

theorem Anchored.sealed (h : m.Anchored) : m.sealed.Anchored := by
  intro l hl
  rw [labels_sealed] at hl
  obtain ⟨l', hl', rfl⟩ := Array.mem_map.1 hl
  have hle := (h l' hl').1
  rw [size_instructions_sealed, sizeBefore_sealed]
  refine ⟨hle, ?_⟩
  dsimp only
  rw [Nat.min_eq_left hle]

structure Summed (m : Method) : Prop where
  instructions : ∀ {n : Nat} {i : Instruction}, m.instructions[n]? = some i →
    i.offset = m.sizeBefore n
  size : m.size = m.sizeBefore m.instructions.size
  labels : m.Anchored

theorem Summed.sealed_eq_self (h : m.Summed) : m.sealed = m := by
  have hinstructions : m.sealed.instructions = m.instructions := by
    rw [instructions_sealed]
    apply Array.ext_getElem?
    intro n
    rw [Array.getElem?_mapIdx]
    cases hi : m.instructions[n]? with
    | none => rfl
    | some i => rw [Option.map_some, ← h.instructions hi]
  have hlabels : m.sealed.labels = m.labels := by
    rw [labels_sealed]
    refine (Array.map_congr_left fun l hl => ?_).trans (Array.map_id _)
    obtain ⟨hle, hoffset⟩ := h.labels l hl
    rw [Nat.min_eq_left hle, ← hoffset]
    rfl
  have hsize : m.sealed.size = m.size := by rw [size_sealed, h.size]
  calc m.sealed = { m with
        instructions := m.sealed.instructions
        labels := m.sealed.labels
        size := m.sealed.size } := rfl
    _ = m := by rw [hinstructions, hlabels, hsize]

inductive Addition
  | slot (name : String)
  | label (name : String) (line : Nat)
  | instruction (i : Instruction)

/-- A label whose name is taken is refused and leaves the method as it is. -/
def add (m : Method) : Addition → Method
  | .slot name => m.addVariable name
  | .label name line =>
    match m.addLabel name line with
    | .ok labelled => labelled
    | .error _ => m
  | .instruction i => m.push i

def addAll (m : Method) (additions : List Addition) : Method := additions.foldl add m

theorem Summed.addVariable (h : m.Summed) (name : String) : (m.addVariable name).Summed :=
  ⟨h.instructions, h.size, h.labels⟩

theorem summed_build (name : String) (parameters : List String) (line : Nat) (isEntry : Bool) :
    (build name parameters line isEntry).Summed := by
  have hslots : ∀ (names : List String) (m : Method), m.Summed →
      (names.foldl Method.addVariable m).Summed := by
    intro names
    induction names with
    | nil => exact fun m h => h
    | cons first rest ih => exact fun m h => ih _ (h.addVariable first)
  have hbare : Summed ⟨name, 0, #[], #[], #[], 0, 0, isEntry, line, false⟩ := by
    refine ⟨fun hi => ?_, rfl, fun l hl => absurd hl (Array.not_mem_empty l)⟩
    simp at hi
  have h := hslots (linkPointer :: parameters) _ hbare
  exact ⟨h.instructions, h.size, h.labels⟩

/-- The instruction behind the others stands where they end. -/
theorem Summed.push (h : m.Summed) (i : Instruction) : (m.push i).Summed := by
  have hpushed : (m.push i).instructions.size = m.instructions.size + 1 := by
    rw [Method.push, Array.size_push]
  refine ⟨@fun n j hj => ?_, ?_, h.labels.push i⟩
  · by_cases hn : n < m.instructions.size
    · rw [sizeBefore_push (Nat.le_of_lt hn)]
      rw [Method.push, Array.getElem?_push, if_neg (by omega)] at hj
      exact h.instructions hj
    · have hlast : n = m.instructions.size := by
        have hlt := (Array.getElem?_eq_some_iff.1 hj).1
        omega
      subst hlast
      rw [Method.push, Array.getElem?_push_size] at hj
      cases hj
      rw [sizeBefore_push (Nat.le_refl _), ← h.size]
  · rw [sizeBefore_of_le (Nat.le_refl _)]
    simp only [Method.push, Array.toList_push, List.map_append, List.sum_append, List.map_cons,
      List.sum_cons, List.map_nil, List.sum_nil, Nat.add_zero]
    rw [h.size, sizeBefore_of_le (Nat.le_refl _)]

theorem Summed.add (h : m.Summed) (addition : Addition) : (m.add addition).Summed := by
  cases addition with
  | slot name => exact h.addVariable name
  | instruction i => exact h.push i
  | label name line =>
    rw [Method.add]
    cases hadd : m.addLabel name line with
    | error taken => exact h
    | ok labelled =>
      have hlabels := h.labels.addLabel h.size hadd
      unfold Method.addLabel at hadd
      split at hadd
      · cases hadd
      · cases hadd
        exact ⟨h.instructions, h.size, hlabels⟩

theorem Summed.addAll (h : m.Summed) (additions : List Addition) : (m.addAll additions).Summed := by
  induction additions generalizing m with
  | nil => exact h
  | cons first rest ih => exact ih (h.add first)

/-- Sealing changes nothing in a new method to which things have been added. In any other it sets
the sums and nothing else, and sealing once more changes nothing. -/
theorem sealed_adds_up :
    (∀ (name : String) (parameters : List String) (line : Nat) (isEntry : Bool)
      (additions : List Addition), ((build name parameters line isEntry).addAll additions).sealed =
        (build name parameters line isEntry).addAll additions) ∧
    ∀ m : Method, m.sealed.sealed = m.sealed ∧ m.sealed = { m with
      instructions := m.instructions.mapIdx fun n i => { i with offset := m.sizeBefore n }
      labels := m.labels.map fun l =>
        { l with offset := m.sizeBefore (min l.index m.instructions.size) }
      size := m.sizeBefore m.instructions.size } := by
  constructor
  · intro name parameters line isEntry additions
    apply Summed.sealed_eq_self
    exact (summed_build name parameters line isEntry).addAll additions
  · intro m
    exact ⟨sealed_sealed m, sealed_eq m⟩

end IjvmAsm.Method
