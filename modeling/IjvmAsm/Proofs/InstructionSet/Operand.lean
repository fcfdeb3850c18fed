import IjvmAsm.InstructionSet.Operation
import IjvmAsm.Proofs.Bytes
import Mathlib.Data.List.Basic
import Mathlib.Tactic.SplitIfs

/-!
# The bytes of operands

A value that fits is read back from the bytes written for it, and bytes of the right number are
those written for the value that is read. Which bytes stand for which value is said without what
writes and reads them: numbers of two bytes have the high byte in front, and numbers with a sign
are in two's complement.
-/

namespace IjvmAsm

namespace Bytes

theorem toInt8_toInt (b : UInt8) : b.toInt8.toInt = (b.toNat : Int).bmod 256 :=
  BitVec.toInt_eq_toNat_bmod b.toBitVec

theorem toInt_single (b : UInt8) : toInt [b] = b.toInt8.toInt := by
  rw [toInt8_toInt]
  simp [toInt, toNat]

theorem toNat_single (b : UInt8) : toNat [b] = b.toNat := by
  simp [toNat]

theorem toNat_pair (high low : UInt8) : toNat [high, low] = 256 * high.toNat + low.toNat := by
  simp only [toNat, List.foldl_cons, List.foldl_nil]
  omega

theorem toInt_pair (high low : UInt8) :
    toInt [high, low] = 256 * high.toInt8.toInt + low.toNat := by
  have hhigh := high.toNat_lt
  have hlow := low.toNat_lt
  rw [toInt, toNat_pair, toInt8_toInt]
  simp only [List.length_cons, List.length_nil, Int.ofNat_eq_natCast]
  change Int.bmod _ 65536 = _
  rw [Int.bmod_def, Int.bmod_def]
  split_ifs <;> omega

end Bytes

theorem Operation.size_eq (op : Operation) (wide : Bool) :
    op.size wide = 1 + (op.operands.map (OperandKind.size wide)).sum := by
  rw [size, List.sum, List.foldr_map]

namespace OperandKind

variable {kind : OperandKind} {wide : Bool} {value : Int} {front : Bytes}

/-- A value that fits survives being written. -/
theorem value_encode (h : kind.fits wide value = true) :
    kind.value (kind.encode wide value) = value := by
  have hpos := kind.size_pos wide
  unfold fits at h
  unfold OperandKind.value encode
  split at h
  next hs =>
    rw [if_pos hs]
    exact Bytes.toInt_ofInt_of_fits hpos h
  next hs =>
    rw [if_neg hs]
    exact Bytes.toNat_ofInt_of_fits h

/-- Bytes of the right number are those that are written for their value. -/
theorem encode_value (h : front.length = kind.size wide) :
    kind.encode wide (kind.value front) = front := by
  unfold OperandKind.value encode
  rw [← h]
  split
  · exact Bytes.ofInt_toInt front
  · exact Bytes.ofInt_toNat front

theorem fits_value (h : front.length = kind.size wide) :
    kind.fits wide (kind.value front) = true := by
  have hne : front ≠ [] := by
    have hpos := kind.size_pos wide
    rintro rfl
    exact absurd h (Nat.ne_of_lt hpos)
  unfold fits OperandKind.value
  rw [← h]
  split
  · exact Bytes.fitsSigned_toInt hne
  · exact Bytes.fitsUnsigned_toNat front

/-- The bytes that stand for a value. -/
inductive Coded (wide : Bool) : OperandKind → Int → Bytes → Prop
  | byte (b : UInt8) : Coded wide .byte b.toInt8.toInt [b]
  | label (high low : UInt8) :
      Coded wide .label (256 * high.toInt8.toInt + low.toNat) [high, low]
  | slot (b : UInt8) (narrow : wide = false) : Coded wide .var b.toNat [b]
  | wideSlot (high low : UInt8) (widened : wide = true) :
      Coded wide .var (256 * high.toNat + low.toNat) [high, low]
  | method (high low : UInt8) : Coded wide .method (256 * high.toNat + low.toNat) [high, low]
  | constant (high low : UInt8) : Coded wide .constant (256 * high.toNat + low.toNat) [high, low]

/-- The value that is read is the one that the bytes stand for. -/
theorem coded_value (h : front.length = kind.size wide) :
    kind.Coded wide (kind.value front) front := by
  have hsigned : ∀ {kind : OperandKind} (bytes : Bytes), kind.isSigned = true →
      kind.value bytes = bytes.toInt := by
    intro kind bytes hsigned
    rw [OperandKind.value, if_pos hsigned]
  have hunsigned : ∀ {kind : OperandKind} (bytes : Bytes), kind.isSigned = false →
      kind.value bytes = bytes.toNat := by
    intro kind bytes hsigned
    rw [OperandKind.value, hsigned, if_neg Bool.false_ne_true]
  cases kind with
  | byte =>
    obtain ⟨b, rfl⟩ := List.length_eq_one_iff.1 h
    rw [hsigned [b] rfl, Bytes.toInt_single]
    exact .byte b
  | label =>
    obtain ⟨high, low, rfl⟩ := List.length_eq_two.1 h
    rw [hsigned [high, low] rfl, Bytes.toInt_pair]
    exact .label high low
  | var =>
    cases wide with
    | false =>
      obtain ⟨b, rfl⟩ := List.length_eq_one_iff.1 h
      rw [hunsigned [b] rfl, Bytes.toNat_single]
      exact .slot b rfl
    | true =>
      obtain ⟨high, low, rfl⟩ := List.length_eq_two.1 h
      rw [hunsigned [high, low] rfl, Bytes.toNat_pair]
      exact .wideSlot high low rfl
  | method =>
    obtain ⟨high, low, rfl⟩ := List.length_eq_two.1 h
    rw [hunsigned [high, low] rfl, Bytes.toNat_pair]
    exact .method high low
  | constant =>
    obtain ⟨high, low, rfl⟩ := List.length_eq_two.1 h
    rw [hunsigned [high, low] rfl, Bytes.toNat_pair]
    exact .constant high low

theorem coded_encode (h : kind.fits wide value = true) :
    kind.Coded wide value (kind.encode wide value) := by
  have hcoded := coded_value (kind.length_encode wide value)
  rwa [value_encode h] at hcoded

end OperandKind

end IjvmAsm
