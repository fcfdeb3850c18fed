/-!
# Bytes

Which integers have a form of so many bits, with a sign or without, and numbers in byte strings: the
highest byte comes first, and a negative number is written in two's complement.
-/

namespace IjvmAsm

abbrev Bytes := List UInt8

/-- Whether the integer is one of `bits` bits without a sign. -/
def fitsUnsigned (bits : Nat) (n : Int) : Bool := 0 ≤ n && n < Int.ofNat (Nat.pow 2 bits)

/-- Whether the integer is one of `bits` bits in two's complement. -/
def fitsSigned (bits : Nat) (n : Int) : Bool :=
  -Int.ofNat (Nat.pow 2 (bits - 1)) ≤ n && n < Int.ofNat (Nat.pow 2 (bits - 1))

namespace Bytes

def take? : Nat → Bytes → Option (Bytes × Bytes)
  | 0, bytes => some ([], bytes)
  | _ + 1, [] => none
  | n + 1, b :: rest => (take? n rest).map fun (front, back) => (b :: front, back)

theorem take?_append {n : Nat} {front : Bytes} (h : front.length = n) (back : Bytes) :
    take? n (front ++ back) = some (front, back) := by
  subst h
  induction front with
  | nil => rfl
  | cons b rest ih => simp [take?, ih]

theorem take?_eq_some {n : Nat} {bytes front back : Bytes}
    (h : take? n bytes = some (front, back)) : bytes = front ++ back ∧ front.length = n := by
  induction n generalizing bytes front back with
  | zero =>
    simp only [take?, Option.some.injEq, Prod.mk.injEq] at h
    obtain ⟨rfl, rfl⟩ := h
    exact ⟨rfl, rfl⟩
  | succ n ih =>
    cases bytes with
    | nil => simp [take?] at h
    | cons b rest =>
      simp only [take?, Option.map_eq_some_iff, Prod.mk.injEq, Prod.exists] at h
      obtain ⟨front', back', h, rfl, rfl⟩ := h
      obtain ⟨rfl, hlen⟩ := ih h
      exact ⟨rfl, by simp [hlen]⟩

/-- The lowest `width` bytes of a number. -/
def ofNat : Nat → Nat → Bytes
  | 0, _ => []
  | width + 1, n => ofNat width (n / 256) ++ [UInt8.ofNat n]

def ofInt (width : Nat) (n : Int) : Bytes :=
  ofNat width (n % Int.ofNat (Nat.pow 2 (8 * width))).toNat

def toNat (bytes : Bytes) : Nat := bytes.foldl (fun n b => n * 256 + b.toNat) 0

def toInt (bytes : Bytes) : Int := (Int.ofNat (toNat bytes)).bmod (Nat.pow 2 (8 * bytes.length))

@[simp] theorem length_ofNat (width n : Nat) : (ofNat width n).length = width := by
  induction width generalizing n with
  | zero => rfl
  | succ width ih => simp [ofNat, ih]

@[simp] theorem length_ofInt (width : Nat) (n : Int) : (ofInt width n).length = width :=
  length_ofNat _ _

def natFirst? (width : Nat) (bytes : Bytes) : Option (Nat × Bytes) :=
  (take? width bytes).map fun (front, back) => (toNat front, back)

theorem length_of_natFirst? {width n : Nat} {bytes back : Bytes}
    (h : natFirst? width bytes = some (n, back)) : bytes.length = width + back.length := by
  simp only [natFirst?, Option.map_eq_some_iff, Prod.mk.injEq, Prod.exists] at h
  obtain ⟨front, _, h, _, rfl⟩ := h
  obtain ⟨rfl, hlen⟩ := take?_eq_some h
  simp [hlen]

end Bytes

end IjvmAsm
