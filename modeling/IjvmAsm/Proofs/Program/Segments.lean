import IjvmAsm.Proofs.Program.Anchored
import IjvmAsm.Proofs.Program.Encoding

/-!
# Where instructions stand in the text

The text holds the methods one behind the other, each but the entry method behind its header. So
instructions that follow each other in a method stand together in the text, behind as many bytes as
are taken by the methods, the header and the instructions before them.
-/

namespace IjvmAsm

namespace Method

def headerLength (m : Method) : Nat := if m.isEntry then 0 else Image.headerSize

theorem segmentSize_eq (m : Method) : m.segmentSize = m.headerLength + m.size := by
  unfold segmentSize headerLength
  split_ifs
  · omega
  · omega

def segmentBytes (m : Method) : Bytes := if m.isEntry then m.encoding else m.headedEncoding

theorem exists_segmentBytes_eq (m : Method) :
    ∃ header, m.segmentBytes = header ++ m.encoding ∧ header.length = m.headerLength := by
  unfold segmentBytes headerLength
  split_ifs
  · exact ⟨[], rfl, rfl⟩
  · exact ⟨m.headerBytes, rfl, m.length_headerBytes⟩

theorem length_segmentBytes {m : Method} (h : m.encoding.length = m.size) :
    m.segmentBytes.length = m.segmentSize := by
  obtain ⟨header, hbytes, hlength⟩ := m.exists_segmentBytes_eq
  rw [hbytes, List.length_append, hlength, h, segmentSize_eq]

end Method

namespace Program

/-- The bytes of the text before the `n`-th instruction of the `k`-th method, or before the end of
the method if it has no more than `n`. -/
def position (p : Program) (k n : Nat) : Nat :=
  ((p.methods.toList.take k).map Method.segmentSize).sum +
    match p.methods[k]? with
    | some m => m.headerLength + m.sizeBefore n
    | none => 0

variable {p : Program} {entry m : Method} {others : List Method} {k : Nat}

theorem text_eq_flatMap (h : p.methods.toList = entry :: others) (hentry : entry.isEntry = true)
    (hothers : ∀ m ∈ others, m.isEntry = false) :
    p.text = p.methods.toList.flatMap Method.segmentBytes := by
  have hfirst : entry.segmentBytes = entry.encoding := if_pos hentry
  have hrest : others.flatMap Method.segmentBytes = others.flatMap Method.headedEncoding :=
    List.flatMap_congr fun m hm => if_neg (by rw [hothers m hm]; exact Bool.false_ne_true)
  rw [text, Program.others, h, List.flatMap_cons, hfirst, hrest]
  simp only [List.take_succ_cons, List.take_zero, List.flatMap_singleton, List.drop_succ_cons,
    List.drop_zero]

/-- A method stands in the text behind the segments of those before it. -/
theorem exists_text_eq_segment (htext : p.text = p.methods.toList.flatMap Method.segmentBytes)
    (hlength : ∀ m ∈ p.methods.toList, m.encoding.length = m.size) (hm : p.methods[k]? = some m) :
    ∃ front back, p.text = front ++ (m.segmentBytes ++ back) ∧
      front.length = ((p.methods.toList.take k).map Method.segmentSize).sum := by
  rw [← Array.getElem?_toList] at hm
  obtain ⟨hlt, hat⟩ := List.getElem?_eq_some_iff.1 hm
  have hsplit : p.methods.toList = p.methods.toList.take k ++ m :: p.methods.toList.drop (k + 1) := by
    rw [← hat, List.getElem_cons_drop, List.take_append_drop]
  refine ⟨(p.methods.toList.take k).flatMap Method.segmentBytes,
    (p.methods.toList.drop (k + 1)).flatMap Method.segmentBytes, ?_, ?_⟩
  · rw [htext, ← List.flatMap_cons, ← List.flatMap_append, ← hsplit]
  · have hsegments : ∀ m ∈ p.methods.toList.take k, m.segmentBytes.length = m.segmentSize :=
      fun m hm => Method.length_segmentBytes (hlength m (List.mem_of_mem_take hm))
    rw [List.length_flatMap, List.map_congr_left hsegments]

/-- Instructions that follow each other in a method stand together in the text. -/
theorem exists_text_eq_instructions (htext : p.text = p.methods.toList.flatMap Method.segmentBytes)
    (hlength : ∀ m ∈ p.methods.toList, m.encoding.length = m.size) (hm : p.methods[k]? = some m)
    (harity : ∀ i ∈ m.instructions, i.HasArity) {before is after : List Instruction}
    (hsplit : m.instructions.toList = before ++ (is ++ after)) :
    ∃ front back, p.text = front ++ (is.flatMap Instruction.encoding ++ back) ∧
      front.length = p.position k before.length := by
  obtain ⟨front, back, htext, hfront⟩ := exists_text_eq_segment htext hlength hm
  obtain ⟨header, hsegment, hheader⟩ := m.exists_segmentBytes_eq
  have hbefore : (before.flatMap Instruction.encoding).length = m.sizeBefore before.length := by
    have hsizes : ∀ i ∈ before, i.encoding.length = i.size := by
      intro i hi
      apply Instruction.length_encoding
      apply harity
      rw [← Array.mem_toList_iff, hsplit]
      exact List.mem_append_left _ hi
    rw [Method.sizeBefore, hsplit, List.take_left, List.length_flatMap, List.map_congr_left hsizes]
  refine ⟨front ++ (header ++ before.flatMap Instruction.encoding),
    after.flatMap Instruction.encoding ++ back, ?_, ?_⟩
  · rw [htext, hsegment, Method.encoding, hsplit, List.flatMap_append, List.flatMap_append]
    simp only [List.append_assoc]
  · rw [List.length_append, List.length_append, hfront, hheader, hbefore, position, hm]

end Program

end IjvmAsm
