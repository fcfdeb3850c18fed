import IjvmAsm.Proofs.InstructionSet.Accepted

/-!
# The two tables of an instruction set

Inserting may leave either table with an operation that the other one lost. This does not happen
when each operation that is inserted has an opcode and a mnemonic that are new: then both tables
hold the same operations, and looking up a mnemonic undoes looking up an opcode.
-/

namespace IjvmAsm.InstructionSet

variable {set : InstructionSet} {op : Operation} {ops : List Operation}

def Fresh (op : Operation) (others : List Operation) : Prop :=
  (∀ other ∈ others, other.opcode ≠ op.opcode) ∧ ∀ other ∈ others, other.name ≠ op.name

def Distinct (ops : List Operation) : Prop :=
  (ops.map Operation.opcode).Nodup ∧ (ops.map Operation.name).Nodup

theorem nodup_map_append_singleton {α κ : Type} {key : α → κ} {xs : List α} {a : α} :
    ((xs ++ [a]).map key).Nodup ↔ (xs.map key).Nodup ∧ ∀ x ∈ xs, key x ≠ key a := by
  simp [List.nodup_append]

theorem distinct_append_singleton_iff : Distinct (ops ++ [op]) ↔ Distinct ops ∧ Fresh op ops := by
  rw [Distinct, nodup_map_append_singleton, nodup_map_append_singleton]
  exact and_and_and_comm

theorem Distinct.of_append {more : List Operation} (h : Distinct (ops ++ more)) : Distinct ops := by
  rw [Distinct, List.map_append, List.map_append] at h
  exact ⟨h.1.of_append_left, h.2.of_append_left⟩

theorem insertNamed_of_fresh (h : ∀ other ∈ ops, other.name ≠ op.name) :
    insertNamed op ops = ops ++ [op] := by
  induction ops with
  | nil => rfl
  | cons first rest ih =>
    obtain ⟨hfirst, hrest⟩ := List.forall_mem_cons.1 h
    rw [insertNamed, if_neg hfirst, ih hrest, List.cons_append]

theorem perm_insertCoded_of_fresh (h : ∀ other ∈ ops, other.opcode ≠ op.opcode) :
    (insertCoded op ops).Perm (op :: ops) := by
  induction ops with
  | nil => exact .refl _
  | cons first rest ih =>
    obtain ⟨hfirst, hrest⟩ := List.forall_mem_cons.1 h
    rw [insertCoded]
    by_cases hlt : op.opcode < first.opcode
    · rw [if_pos hlt]
    · rw [if_neg hlt, if_neg hfirst.symm]
      exact ((ih hrest).cons first).trans (.swap op first rest)

/-- Both tables of the set hold these operations, which came in this order. -/
structure Holds (set : InstructionSet) (ops : List Operation) : Prop where
  named : set.named = ops
  coded : set.coded.Perm ops
  increasing : set.coded.Pairwise (·.opcode < ·.opcode)
  distinct : Distinct ops

theorem holds_empty (name : String) : (empty name).Holds [] :=
  ⟨rfl, .refl _, .nil, .nil, .nil⟩

theorem Holds.insert (h : set.Holds ops) (hfresh : Fresh op ops) :
    (set.insert op).Holds (ops ++ [op]) where
  named := by
    change insertNamed op set.named = ops ++ [op]
    rw [h.named]
    exact insertNamed_of_fresh hfresh.2
  coded := by
    have hcoded : ∀ other ∈ set.coded, other.opcode ≠ op.opcode := fun other hother =>
      hfresh.1 other (h.coded.mem_iff.1 hother)
    exact (perm_insertCoded_of_fresh hcoded).trans
      ((h.coded.cons op).trans (List.perm_append_singleton op ops).symm)
  increasing := pairwise_insertCoded op h.increasing
  distinct := distinct_append_singleton_iff.2 ⟨h.distinct, hfresh⟩

theorem Holds.find?_eq_some_iff (h : set.Holds ops) {name : String} :
    set.find? name = some op ↔ op ∈ ops ∧ op.name = name.toUpper := by
  rw [find?, h.named]
  exact find?_eq_some_iff_of_nodup h.distinct.2

theorem Holds.decode?_eq_some_iff (h : set.Holds ops) {opcode : UInt8} :
    set.decode? opcode = some op ↔ op ∈ ops ∧ op.opcode = opcode := by
  have hnodup : (set.coded.map Operation.opcode).Nodup :=
    (h.coded.map Operation.opcode).nodup_iff.2 h.distinct.1
  rw [decode?, find?_eq_some_iff_of_nodup hnodup, h.coded.mem_iff]

theorem Holds.contains_iff (h : set.Holds ops) {name : String} :
    set.contains name = true ↔ ∃ op ∈ ops, op.name = name.toUpper := by
  simp only [contains, Option.isSome_iff_exists, h.find?_eq_some_iff]

theorem Holds.hasOpcode_iff (h : set.Holds ops) {opcode : UInt8} :
    set.hasOpcode opcode = true ↔ ∃ op ∈ ops, op.opcode = opcode := by
  simp only [hasOpcode, Option.isSome_iff_exists, h.decode?_eq_some_iff]

/-- What the tables of a set give of the operations they are made from. -/
structure Tabulates (set : InstructionSet) (ops : List Operation) : Prop where
  operations : set.operations.Perm ops
  increasing : set.operations.Pairwise (·.opcode < ·.opcode)
  size : set.size = set.operations.length
  decode : ∀ opcode op, set.decode? opcode = some op ↔ op ∈ ops ∧ op.opcode = opcode
  find : ∀ name op, set.find? name = some op ↔ op ∈ ops ∧ op.name = name.toUpper
  /-- Looking up a mnemonic and looking up an opcode are inverse. -/
  inverse : ∀ name op,
    set.find? name = some op ↔ op.name = name.toUpper ∧ set.decode? op.opcode = some op

theorem Holds.tabulates (h : set.Holds ops) : set.Tabulates ops where
  operations := h.coded
  increasing := h.increasing
  size := by rw [InstructionSet.size, h.named, InstructionSet.operations, h.coded.length_eq]
  decode _ _ := h.decode?_eq_some_iff
  find _ _ := h.find?_eq_some_iff
  inverse name op := by
    rw [h.find?_eq_some_iff, h.decode?_eq_some_iff]
    constructor
    · rintro ⟨hmem, hname⟩
      exact ⟨hname, hmem, rfl⟩
    · rintro ⟨hname, hmem, -⟩
      exact ⟨hmem, hname⟩

end IjvmAsm.InstructionSet
