import IjvmAsm.Literal
import IjvmAsm.Proofs.Bytes
import IjvmAsm.Proofs.Source.Identifier

/-!
# Decimal numerals

A decimal numeral is read as the number that it was written for. It is a word without characters
that mean something else in a line.
-/

namespace IjvmAsm

namespace Literal

/-- Digits are read one part after the other. -/
theorem positional_append (base value : Nat) (cs ds : List Char) :
    positional base value (cs ++ ds) =
      (positional base value cs).bind fun value => positional base value ds := by
  induction cs generalizing value with
  | nil => rfl
  | cons c rest ih =>
    rw [List.cons_append, positional, positional]
    cases digit? base c with
    | none => rfl
    | some d =>
      dsimp only
      split_ifs
      · rfl
      · exact ih _

theorem isDigit_of_mem_toDigits {n : Nat} {c : Char} (h : c ∈ Nat.toDigits 10 n) :
    c.isDigit = true := Nat.isDigit_of_mem_toDigits (by decide) (by decide) h

theorem digits_of_head? {body : List Char} (h : body.head? = some '0' → body = ['0']) :
    digits body = (plain body).map (10, ·) := by
  unfold digits
  split
  all_goals first | rfl | cases h rfl

theorem natAbs_lt_of_fitsSigned {bits : Nat} {n : Int} (hbits : bits ≤ 64)
    (h : fitsSigned bits n = true) : n.natAbs < 2 ^ 127 := by
  obtain ⟨hleast, hgreatest⟩ := fitsSigned_iff.1 h
  have hmono : (2 : Int) ^ (bits - 1) ≤ 2 ^ 63 := by
    exact_mod_cast Nat.pow_le_pow_right (by decide : 0 < 2) (by omega : bits - 1 ≤ 63)
  omega

end Literal

end IjvmAsm
