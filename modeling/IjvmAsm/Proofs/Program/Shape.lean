import IjvmAsm.Program.Method
import IjvmAsm.Proofs.InstructionSet.Operand

/-!
# The shape of a program

The entry method comes first and has no header; the others stand behind it with theirs.
-/

namespace IjvmAsm

def headedSize (ms : List Method) : Nat := (ms.map fun m => m.size + Image.headerSize).sum

@[simp] theorem headedSize_nil : headedSize [] = 0 := rfl

@[simp] theorem headedSize_cons (m : Method) (rest : List Method) :
    headedSize (m :: rest) = m.size + Image.headerSize + headedSize rest := rfl

theorem headedSize_eq (ms : List Method) :
    headedSize ms = (ms.map Method.size).sum + 4 * ms.length := by
  induction ms with
  | nil => rfl
  | cons m rest ih =>
    simp only [headedSize_cons, ih, List.map_cons, List.sum_cons, List.length_cons, Image.headerSize]
    omega

theorem Instruction.foldr_size (is : List Instruction) :
    is.foldr (fun i n => i.size + n) 0 = (is.map Instruction.size).sum := by
  rw [List.sum, List.foldr_map]

namespace Program

def declared (p : Program) : List Constant :=
  p.constants.toList.filter fun c => c.origin == .declared

def others (p : Program) : List Method := p.methods.toList.drop 1

def extent (p : Program) : Nat :=
  ((p.methods.toList.take 1).map Method.size).sum + headedSize p.others

theorem size_eq (p : Program) : p.size = (p.methods.toList.map Method.segmentSize).sum := by
  rw [size, List.sum, List.foldr_map]

variable {p : Program} {entry : Method} {rest : List Method}

theorem entry?_eq_none_iff : p.entry? = none ↔ ¬ ∃ m, p.methods[0]? = some m ∧ m.isEntry = true := by
  rw [ entry?, Option.filter_eq_none_iff]
  simp only [not_exists, not_and]

theorem getElem?_zero_of_toList (h : p.methods.toList = entry :: rest) :
    p.methods[0]? = some entry := by
  rw [← Array.getElem?_toList, h, List.getElem?_cons_zero]

theorem exists_rest_of_entry? (h : p.entry? = some entry) :
    ∃ rest, p.methods.toList = entry :: rest ∧ entry.isEntry = true := by
  obtain ⟨hfirst, hentry⟩ := Option.filter_eq_some_iff.1 h
  rw [← Array.getElem?_toList, ← List.head?_eq_getElem?] at hfirst
  obtain ⟨rest, hrest⟩ := List.head?_eq_some_iff.1 hfirst
  exact ⟨rest, hrest, hentry⟩

theorem extent_eq_size (h : p.methods.toList = entry :: rest) (hentry : entry.isEntry = true)
    (hrest : ∀ m ∈ rest, m.isEntry = false) : p.extent = p.size := by
  have hsegments : (rest.map Method.segmentSize).sum = headedSize rest := by
    clear h
    induction rest with
    | nil => rfl
    | cons m rest ih =>
      obtain ⟨hm, hrest⟩ := List.forall_mem_cons.1 hrest
      rw [List.map_cons, List.sum_cons, headedSize_cons, ih hrest, Method.segmentSize, hm]
      rfl
  rw [extent, others, size_eq, h, List.map_cons, List.sum_cons, hsegments, Method.segmentSize,
    if_pos hentry]
  rfl

end Program

end IjvmAsm
