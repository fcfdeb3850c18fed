import IjvmAsm.Image.Basic
import IjvmAsm.InstructionSet.Basic

/-!
# Listings

The text segment of an image as lines, each of which takes the bytes where the line before it
ends: the header of a method where a method symbol says that there is one, an instruction of the
set, or a byte that is no opcode of the set.
-/

namespace IjvmAsm

structure CodeLine where
  offset : Nat
  operation : Operation
  operands : List Int
  wide : Bool
  deriving DecidableEq

inductive ListingLine
  | header (offset params locals : Nat)
  | instruction (decoded : CodeLine)
  | unknown (offset : Nat) (byte : UInt8)
  deriving DecidableEq

namespace CodeLine

def target (d : CodeLine) : Option UInt32 :=
  ((d.operation.operands.zip d.operands).find? fun (kind, _) => kind == .label).map fun (_, value) =>
    UInt32.ofInt (d.offset + value)

def operandText : OperandKind → Int → String
  | .label, value => s!" {Numeral.signed value}"
  | .constant, value | .method, value => s!" #{value}"
  | .byte, value | .var, value => s!" {value}"

def text (d : CodeLine) : String :=
  s!"{Numeral.hex 4 d.offset}  {d.operation.name}" ++
    String.join (List.zipWith operandText d.operation.operands d.operands) ++
    match d.target with
    | some target => s!"  ; -> {Numeral.hex 4 target.toNat}"
    | none => ""

end CodeLine

namespace ListingLine

def offset : ListingLine → Nat
  | header offset .. => offset
  | instruction decoded => decoded.offset
  | unknown offset _ => offset

def size : ListingLine → Nat
  | header .. => Image.headerSize
  | instruction decoded => decoded.operation.size decoded.wide
  | unknown .. => 1

def widens : ListingLine → Bool
  | instruction decoded => decoded.operation.widens
  | _ => false

def text : ListingLine → String
  | header offset params locals => s!"{Numeral.hex 4 offset}  ; params={params} locals={locals}"
  | instruction decoded => decoded.text
  | unknown offset byte => s!"{Numeral.hex 4 offset}  .byte 0x{Numeral.hex 2 byte.toNat}"

end ListingLine

namespace Image

/-- The line at an offset, whose first byte is `b`, and the bytes behind it. -/
def listingLine (isHeader : Nat → Bool) (set : InstructionSet) (offset : Nat) (wide : Bool)
    (b : UInt8) (rest : Bytes) : Except ImageError (ListingLine × Bytes) :=
  if isHeader offset then
    match b, rest with
    | b, c :: d :: e :: rest => .ok (.header offset (Bytes.toNat [b, c]) (Bytes.toNat [d, e]), rest)
    | _, _ => .error (.truncated offset)
  else match set.decode? b with
    | none => .ok (.unknown offset b, rest)
    | some operation =>
      match OperandKind.readAll wide operation.operands rest with
      | none => .error (.truncated offset)
      | some (values, rest) => .ok (.instruction ⟨offset, operation, values, wide⟩, rest)

/-- A line takes as many bytes as its size says. -/
theorem length_listingLine {isHeader : Nat → Bool} {set : InstructionSet} {offset : Nat}
    {wide : Bool} {b : UInt8} {bytes rest : Bytes} {line : ListingLine}
    (h : listingLine isHeader set offset wide b bytes = .ok (line, rest)) :
    1 + bytes.length = line.size + rest.length := by
  unfold listingLine at h
  split at h
  next =>
    split at h
    next =>
      cases h
      simp [ListingLine.size, headerSize]
      omega
    next => cases h
  next =>
    split at h
    next => cases h; rfl
    next =>
      split at h
      next => cases h
      next hops =>
        cases h
        have := OperandKind.length_of_readAll hops
        simp only [ListingLine.size, Operation.size]
        omega

theorem size_pos (line : ListingLine) : 0 < line.size := by
  cases line with
  | header => simp [ListingLine.size, headerSize]
  | instruction d => exact d.operation.size_pos d.wide
  | unknown => simp [ListingLine.size]

/-- The lines of the text from an offset on; `wide` says that the line before it widens. -/
def listingFrom (isHeader : Nat → Bool) (set : InstructionSet) (offset : Nat) (wide : Bool)
    (bytes : Bytes) : Except ImageError (List ListingLine) :=
  match bytes with
  | [] => .ok []
  | b :: bytes =>
    match _h : listingLine isHeader set offset wide b bytes with
    | .error e => .error e
    | .ok (line, rest) =>
      (listingFrom isHeader set (offset + line.size) line.widens rest).map (line :: ·)
termination_by bytes.length
decreasing_by
  have := length_listingLine _h
  have := size_pos line
  simp only [List.length_cons]
  omega

/-- The offsets at which method symbols promise a header. There is none at zero, where the entry
method begins. -/
def headerOffsets (image : Image) : List Nat :=
  match image.symbols with
  | none => []
  | some symbols => (symbols.methods.map fun symbol => symbol.offset.toNat).filter (· ≠ 0)

def listing (image : Image) (set : InstructionSet) : Except ImageError (List ListingLine) :=
  let offsets := image.headerOffsets
  listingFrom (fun offset => offsets.contains offset) set 0 false image.text

end Image

end IjvmAsm
