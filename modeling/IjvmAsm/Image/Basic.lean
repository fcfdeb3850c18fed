import IjvmAsm.Literal

/-!
# Images

A program in the form in which a machine loads it: a pool of constants, the text segment, and
names for offsets in the text if the image carries symbols.
-/

namespace IjvmAsm

structure Symbol where
  offset : UInt32
  name : String
  deriving DecidableEq

structure Symbols where
  methods : List Symbol
  labels : List Symbol
  deriving DecidableEq

structure Image where
  poolOffset : UInt32
  constants : List Int32
  dataBase : UInt32
  text : Bytes
  symbols : Option Symbols
  deriving DecidableEq

namespace Image

def magic : Nat := 0x1DEADFAD

def standardPoolOffset : Nat := 0x00010000

def headerSize : Nat := 4

def methodMarker : Nat := 0xEEEEEEEE

def labelMarker : Nat := 0xFFFFFFFF

def methodAt (image : Image) (offset : Nat) : Option String :=
  image.symbols.bind fun symbols =>
    (symbols.methods.find? fun symbol => symbol.offset.toNat == offset).map Symbol.name

end Image

inductive ImageError
  /-- The bytes end inside a number. -/
  | shortNumber
  /-- The bytes end inside a run whose length is written before it. -/
  | shortRun (expected found : Nat)
  | magic (found : Nat)
  | poolSize (size : Nat)
  | marker (expected found : Nat)
  | unterminatedName
  | trailing (count : Nat)
  | truncated (offset : Nat)
  deriving DecidableEq

namespace ImageError

def reading? : ImageError → Option String
  | shortNumber => some "failed to fill whole buffer"
  | shortRun expected found => some s!"expected {expected} bytes, found {found}"
  | _ => none

def message : ImageError → String
  | shortNumber => "IO error: failed to fill whole buffer"
  | shortRun expected found => s!"IO error: expected {expected} bytes, found {found}"
  | magic found => s!"Invalid magic number: 0x{Numeral.hex 8 found}"
  | poolSize size =>
    s!"Invalid image format: Constant pool size {size} is not a multiple of 4"
  | marker expected found =>
    s!"Invalid image format: Expected symbol block 0x{Numeral.hex 8 expected}, " ++
      s!"found 0x{Numeral.hex 8 found}"
  | unterminatedName => "Invalid image format: Unterminated symbol name"
  | trailing count => s!"Invalid image format: {count} trailing bytes after debug symbols"
  | truncated offset => s!"Invalid image format: Truncated instruction at {Numeral.hex 4 offset}"

end ImageError

end IjvmAsm
