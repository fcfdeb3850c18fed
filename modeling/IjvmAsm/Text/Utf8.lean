/-!
# UTF-8

A decoder that reads one byte at a time. Bytes that belong to no character come out as one mark
for each maximal piece that could have begun a character, so the decoder serves a reader that
refuses such bytes and one that replaces them.
-/

namespace IjvmAsm.Utf8

/-- A character some bytes of which have been read: how many are missing, the least and the
greatest byte that may come next, and the value so far. -/
structure Started where
  missing : Nat
  least : Nat
  greatest : Nat
  value : Nat

inductive Lead
  | whole (c : Char)
  | more (s : Started)
  | none

def lead (b : Nat) : Lead :=
  if b < 0x80 then .whole (Char.ofNat b)
  else if b < 0xC2 then .none
  else if b < 0xE0 then .more ⟨1, 0x80, 0xBF, b - 0xC0⟩
  else if b < 0xF0 then
    .more ⟨2, if b = 0xE0 then 0xA0 else 0x80, if b = 0xED then 0x9F else 0xBF, b - 0xE0⟩
  else if b < 0xF5 then
    .more ⟨3, if b = 0xF0 then 0x90 else 0x80, if b = 0xF4 then 0x8F else 0xBF, b - 0xF0⟩
  else .none

def decodeFrom : Option Started → List UInt8 → List (Option Char)
  | none, [] => []
  | some _, [] => [none]
  | none, b :: rest =>
    match lead b.toNat with
    | .whole c => some c :: decodeFrom none rest
    | .more s => decodeFrom (some s) rest
    | .none => none :: decodeFrom none rest
  | some s, b :: rest =>
    let n := b.toNat
    if s.least ≤ n ∧ n ≤ s.greatest then
      let value := s.value * 64 + (n - 0x80)
      if s.missing ≤ 1 then some (Char.ofNat value) :: decodeFrom none rest
      else decodeFrom (some ⟨s.missing - 1, 0x80, 0xBF, value⟩) rest
    else
      match lead n with
      | .whole c => none :: some c :: decodeFrom none rest
      | .more s => none :: decodeFrom (some s) rest
      | .none => none :: none :: decodeFrom none rest

def decode (bytes : List UInt8) : List (Option Char) := decodeFrom none bytes

def text? (bytes : List UInt8) : Option String :=
  ((decode bytes).mapM id).map String.ofList

/-- The text of any bytes, the replacement character U+FFFD standing for what is no character. -/
def lossyText (bytes : List UInt8) : String :=
  String.ofList ((decode bytes).map fun c => c.getD (Char.ofNat 0xFFFD))

def encode (text : String) : List UInt8 := text.toList.flatMap String.utf8EncodeChar

end IjvmAsm.Utf8
