import IjvmAsm.Bytes
import Mathlib.Algebra.GroupWithZero.Nat
import Mathlib.Algebra.Ring.Int.Defs
import Mathlib.Data.List.Induction

/-!
# Numbers in bytes

Reading what was written gives the number modulo what the width can hold, and bytes are those that
are written for the number that is read from them.
-/

namespace IjvmAsm

theorem fitsUnsigned_iff {bits : Nat} {n : Int} :
    fitsUnsigned bits n = true ↔ 0 ≤ n ∧ n < 2 ^ bits := by
  simp [fitsUnsigned]

theorem fitsSigned_iff {bits : Nat} {n : Int} :
    fitsSigned bits n = true ↔ -2 ^ (bits - 1) ≤ n ∧ n < 2 ^ (bits - 1) := by
  simp [fitsSigned]

namespace Bytes

theorem toNat_append_singleton (bytes : Bytes) (b : UInt8) :
    toNat (bytes ++ [b]) = toNat bytes * 256 + b.toNat := by simp [toNat]

theorem toNat_ofNat (width n : Nat) : toNat (ofNat width n) = n % 2 ^ (8 * width) := by
  induction width generalizing n with
  | zero => simp [ofNat, toNat, Nat.mod_one]
  | succ width ih =>
    have h : 2 ^ (8 * (width + 1)) = 256 * 2 ^ (8 * width) := by
      rw [Nat.mul_succ, Nat.pow_add, Nat.mul_comm]
    rw [ofNat, toNat_append_singleton, ih, h, Nat.mod_mul, UInt8.toNat_ofNat']
    omega

theorem ofInt_eq (width : Nat) (n : Int) :
    ofInt width n = ofNat width (n % 2 ^ (8 * width)).toNat := by
  have hpow : Int.ofNat (Nat.pow 2 (8 * width)) = 2 ^ (8 * width) := by simp
  rw [ofInt, hpow]

theorem toNat_ofInt (width : Nat) (n : Int) :
    (toNat (ofInt width n) : Int) = n % 2 ^ (8 * width) := by
  have hpos : (0 : Int) < 2 ^ (8 * width) := Int.pow_pos (by decide)
  have hlow := Int.emod_nonneg n (Int.ne_of_gt hpos)
  have hhigh := Int.emod_lt_of_pos n hpos
  rw [ofInt_eq, toNat_ofNat, Nat.mod_eq_of_lt]
  · exact Int.toNat_of_nonneg hlow
  · rw [Int.toNat_lt hlow]
    exact_mod_cast hhigh

theorem toInt_eq (bytes : Bytes) :
    toInt bytes = (toNat bytes : Int).bmod (2 ^ (8 * bytes.length)) := rfl

theorem toInt_ofInt (width : Nat) (n : Int) : toInt (ofInt width n) = n.bmod (2 ^ (8 * width)) := by
  rw [toInt_eq, length_ofInt, toNat_ofInt]
  exact_mod_cast Int.emod_bmod n (2 ^ (8 * width))

theorem toNat_ofInt_of_fits {width : Nat} {n : Int} (h : fitsUnsigned (8 * width) n = true) :
    (toNat (ofInt width n) : Int) = n := by
  obtain ⟨hlow, hhigh⟩ := fitsUnsigned_iff.1 h
  rw [toNat_ofInt, Int.emod_eq_of_lt hlow hhigh]

theorem toInt_ofInt_of_fits {width : Nat} {n : Int} (hpos : 0 < width)
    (h : fitsSigned (8 * width) n = true) : toInt (ofInt width n) = n := by
  obtain ⟨hlow, hhigh⟩ := fitsSigned_iff.1 h
  obtain ⟨bits, hbits⟩ : ∃ bits, 8 * width = bits + 1 := ⟨8 * width - 1, by omega⟩
  rw [hbits, Nat.add_sub_cancel] at hlow hhigh
  have hcast : ((2 ^ bits : Nat) : Int) = 2 ^ bits := by push_cast; rfl
  rw [toInt_ofInt, hbits, Nat.pow_succ']
  apply Int.bmod_eq_of_le <;> omega

theorem natFirst?_append (width n : Nat) (back : Bytes) :
    natFirst? width (ofNat width n ++ back) = some (n % 2 ^ (8 * width), back) := by
  simp [natFirst?, take?_append, toNat_ofNat]

theorem ofNat_toNat (bytes : Bytes) : ofNat bytes.length (toNat bytes) = bytes := by
  induction bytes using List.reverseRecOn with
  | nil => rfl
  | append_singleton bytes b ih =>
    have hb := b.toNat_lt
    have hhigh : (toNat bytes * 256 + b.toNat) / 256 = toNat bytes := by omega
    have hlow : UInt8.ofNat (toNat bytes * 256 + b.toNat) = b := by
      rw [← UInt8.toNat_inj, UInt8.toNat_ofNat']
      omega
    rw [List.length_append, List.length_singleton, ofNat, toNat_append_singleton, hhigh, hlow, ih]

theorem toNat_lt (bytes : Bytes) : toNat bytes < 2 ^ (8 * bytes.length) := by
  have hvalue := toNat_ofNat bytes.length (toNat bytes)
  rw [ofNat_toNat] at hvalue
  rw [hvalue]
  exact Nat.mod_lt _ (Nat.two_pow_pos _)

theorem fitsUnsigned_toNat (bytes : Bytes) :
    fitsUnsigned (8 * bytes.length) (toNat bytes) = true := by
  rw [fitsUnsigned_iff]
  exact ⟨Int.natCast_nonneg _, by exact_mod_cast toNat_lt bytes⟩

theorem ofInt_toNat (bytes : Bytes) : ofInt bytes.length (toNat bytes) = bytes := by
  obtain ⟨hlow, hhigh⟩ := fitsUnsigned_iff.1 (fitsUnsigned_toNat bytes)
  rw [ofInt_eq, Int.emod_eq_of_lt hlow hhigh, Int.toNat_natCast, ofNat_toNat]

theorem ofInt_toInt (bytes : Bytes) : ofInt bytes.length (toInt bytes) = bytes := by
  have hmod : toInt bytes % 2 ^ (8 * bytes.length) = toNat bytes % 2 ^ (8 * bytes.length) := by
    rw [toInt_eq]
    exact_mod_cast Int.bmod_emod
  rw [ofInt_eq, hmod, ← ofInt_eq, ofInt_toNat]

theorem fitsSigned_toInt {bytes : Bytes} (h : bytes ≠ []) :
    fitsSigned (8 * bytes.length) (toInt bytes) = true := by
  obtain ⟨bits, hbits⟩ : ∃ bits, 8 * bytes.length = bits + 1 := by
    have hpos := List.length_pos_iff.2 h
    exact ⟨8 * bytes.length - 1, by omega⟩
  have hpow : 0 < 2 ^ (bits + 1) := Nat.two_pow_pos _
  have hleast := Int.le_bmod (x := (toNat bytes : Int)) hpow
  have hgreatest := Int.bmod_lt (x := (toNat bytes : Int)) hpow
  have hcast : ((2 ^ bits : Nat) : Int) = 2 ^ bits := by push_cast; rfl
  rw [fitsSigned_iff, toInt_eq, hbits, Nat.add_sub_cancel]
  rw [Nat.pow_succ'] at hleast hgreatest ⊢
  omega

end Bytes

end IjvmAsm
