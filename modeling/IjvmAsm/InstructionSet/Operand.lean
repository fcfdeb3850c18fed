import IjvmAsm.Bytes

/-!
# Operands

The kinds of operands that operations take, the bytes that each occupies and the values that it
can hold.
-/

namespace IjvmAsm

inductive OperandKind
  | byte
  | label
  | var
  | method
  | constant
  deriving DecidableEq

namespace OperandKind

def name : OperandKind → String
  | byte => "byte"
  | label => "label"
  | var => "var"
  | method => "method"
  | constant => "constant"

def all : List OperandKind := [byte, label, var, method, constant]

def ofName? (name : String) : Option OperandKind :=
  all.find? fun kind => kind.name == name.toLower

/-- The bytes an operand occupies. Only a variable slot grows when it is wide. -/
def size (wide : Bool) : OperandKind → Nat
  | byte => 1
  | var => if wide then 2 else 1
  | label | method | constant => 2

theorem size_pos (wide : Bool) (kind : OperandKind) : 0 < kind.size wide := by
  cases kind <;> cases wide <;> decide

def isSigned : OperandKind → Bool
  | byte | label => true
  | var | method | constant => false

def fits (kind : OperandKind) (wide : Bool) (value : Int) : Bool :=
  let bits := 8 * kind.size wide
  if kind.isSigned then fitsSigned bits value else fitsUnsigned bits value

def encode (kind : OperandKind) (wide : Bool) (value : Int) : Bytes :=
  Bytes.ofInt (kind.size wide) value

def value (kind : OperandKind) (bytes : Bytes) : Int :=
  if kind.isSigned then bytes.toInt else bytes.toNat

@[simp] theorem length_encode (kind : OperandKind) (wide : Bool) (value : Int) :
    (kind.encode wide value).length = kind.size wide :=
  Bytes.length_ofInt _ _

def readAll (wide : Bool) : List OperandKind → Bytes → Option (List Int × Bytes)
  | [], bytes => some ([], bytes)
  | kind :: kinds, bytes => do
    let (front, bytes) ← bytes.take? (kind.size wide)
    let (values, bytes) ← readAll wide kinds bytes
    return (kind.value front :: values, bytes)

theorem length_of_readAll {wide : Bool} {kinds : List OperandKind} {bytes rest : Bytes}
    {values : List Int} (h : readAll wide kinds bytes = some (values, rest)) :
    bytes.length = kinds.foldr (fun kind n => kind.size wide + n) 0 + rest.length := by
  induction kinds generalizing bytes values with
  | nil =>
    simp only [readAll, Option.some.injEq, Prod.mk.injEq] at h
    obtain ⟨_, rfl⟩ := h
    simp
  | cons kind kinds ih =>
    simp only [readAll, Option.bind_eq_bind, Option.bind_eq_some_iff, Prod.exists] at h
    obtain ⟨front, back, hfront, more, rest', hmore, h⟩ := h
    simp only [Option.pure_def, Option.some.injEq, Prod.mk.injEq] at h
    obtain ⟨_, rfl⟩ := h
    obtain ⟨rfl, hlen⟩ := Bytes.take?_eq_some hfront
    have := ih hmore
    rw [List.length_append, hlen, List.foldr_cons]
    omega

end OperandKind

end IjvmAsm
