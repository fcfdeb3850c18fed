import IjvmAsm.Bytes

/-!
# Literals and numerals

How integers are read, and how they are written.

Integers in base ten, or in base sixteen, eight or two when written with `0x`, `0o` or `0b`;
a leading zero alone also means base eight. Characters stand between single quotes.

Digits are read from the left and their value is kept below `2 ^ 128`: the literal is refused as
too large where the value leaves that range, unless a character that is no digit comes first.
-/

namespace IjvmAsm

inductive LiteralError
  | invalid (token : String)
  | outOfRange (token : String)
  | negative (token : String)
  | notCharacter (token : String)
  deriving DecidableEq

def LiteralError.message : LiteralError → String
  | invalid token => s!"Invalid value: `{token}`"
  | outOfRange token => s!"Value out of range: `{token}`"
  | negative token => s!"Value cannot be negative: `{token}`"
  | notCharacter token => s!"Invalid character literal: `{token}`"

namespace Literal

inductive Fault
  | invalid
  | outOfRange
  deriving DecidableEq

def Fault.about (token : String) : Fault → LiteralError
  | invalid => .invalid token
  | outOfRange => .outOfRange token

def digit? (base : Nat) (c : Char) : Option Nat :=
  let d :=
    if c.isDigit then c.toNat - '0'.toNat
    else if 'a' ≤ c ∧ c ≤ 'f' then c.toNat - 'a'.toNat + 10
    else if 'A' ≤ c ∧ c ≤ 'F' then c.toNat - 'A'.toNat + 10
    else base
  if d < base then some d else none

/-- The value of a digit string after what has been read, kept below `2 ^ 128`. -/
def positional (base : Nat) : Nat → List Char → Except Fault Nat
  | value, [] => .ok value
  | value, c :: rest =>
    match digit? base c with
    | none => .error .invalid
    | some d =>
      if Nat.pow 2 128 ≤ value * base + d then .error .outOfRange
      else positional base (value * base + d) rest

def hasDoubled : List Char → Bool
  | '_' :: '_' :: _ => true
  | _ :: rest => hasDoubled rest
  | [] => false

/-- The digits behind a written base: underscores may part them, neither doubled nor last. -/
def ungroup (digits : List Char) : Except Fault (List Char) :=
  if digits.getLast? = some '_' ∨ hasDoubled digits then .error .invalid
  else .ok (digits.filter (· ≠ '_'))

/-- Digits whose base is not written hold no underscore. -/
def plain (digits : List Char) : Except Fault (List Char) :=
  if '_' ∈ digits then .error .invalid else .ok digits

def digits : List Char → Except Fault (Nat × List Char)
  | '0' :: 'x' :: rest | '0' :: 'X' :: rest => (ungroup rest).map (16, ·)
  | '0' :: 'o' :: rest | '0' :: 'O' :: rest => (ungroup rest).map (8, ·)
  | '0' :: 'b' :: rest | '0' :: 'B' :: rest => (ungroup rest).map (2, ·)
  | '0' :: d :: rest => (plain (d :: rest)).map (8, ·)
  | body => (plain body).map (10, ·)

def magnitude (body : List Char) : Except Fault Nat := do
  let (base, ds) ← digits body
  if ds.isEmpty then throw .invalid
  let value ← positional base 0 ds
  if Nat.pow 2 127 ≤ value then throw .outOfRange
  return value

def integer : List Char → Except Fault Int
  | '-' :: body => (magnitude body).map fun value => -(value : Int)
  | '+' :: body => (magnitude body).map Int.ofNat
  | body => (magnitude body).map Int.ofNat

def integer? (token : String) : Except LiteralError Int :=
  (integer token.toList).mapError (Fault.about token)

def signed (bits : Nat) (token : String) : Except LiteralError Int := do
  let value ← integer? token
  if fitsSigned bits value then return value
  else throw (.outOfRange token)

def unsigned (bits : Nat) (token : String) : Except LiteralError Nat := do
  let value ← integer? token
  if value < 0 then throw (.negative token)
  else if fitsUnsigned bits value then return value.toNat
  else throw (.outOfRange token)

def character (token : String) : Except LiteralError Int :=
  match token.toList with
  | ['\'', c, '\''] => if c.toNat < 128 then .ok c.toNat else .error (.notCharacter token)
  | _ => .error (.notCharacter token)

/-- A character where the token begins with a quote, else an integer of `bits` bits. -/
def characterOrSigned (bits : Nat) (token : String) : Except LiteralError Int :=
  if token.toList.head? = some '\'' then character token else signed bits token

end Literal

namespace Numeral

def hex (width n : Nat) : String :=
  String.ofList ((((Nat.toDigits 16 n).map Char.toUpper).leftpad width '0'))

def right (width : Nat) (n : Int) : String :=
  String.ofList ((toString n).toList.leftpad width ' ')

def left (width n : Nat) : String :=
  let digits := (toString n).toList
  String.ofList (digits ++ List.replicate (width - digits.length) ' ')

/-- The decimal numeral with its sign, which is a plus from zero on. -/
def signed (n : Int) : String :=
  if 0 ≤ n then "+" ++ toString n else toString n

example : hex 4 0xBEEF5 = "BEEF5" := by decide +kernel
example : hex 4 0xA = "000A" := by decide +kernel

end Numeral

end IjvmAsm
