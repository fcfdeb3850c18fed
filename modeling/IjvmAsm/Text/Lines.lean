import IjvmAsm.Text.Split
import IjvmAsm.Text.Utf8

/-!
# Lines

The lines of a byte string. A line feed ends a line, and one carriage return right before it is
dropped; a last line needs no line feed. Reading stops at the first line that is not UTF-8.
-/

namespace IjvmAsm.Text

def undecodable : String := "stream did not contain valid UTF-8"

def dropReturn (bytes : List UInt8) : List UInt8 :=
  if bytes.getLast? = some 0x0D then bytes.dropLast else bytes

/-- The pieces between line feeds as lines: the last one has no line feed behind it, and is a line
only if it holds something. -/
def closeLines : List (List UInt8) → List (List UInt8)
  | [] => []
  | [last] => if last.isEmpty then [] else [last]
  | piece :: pieces => dropReturn piece :: closeLines pieces

def byteLines (bytes : List UInt8) : List (List UInt8) :=
  closeLines (splitAt (· == 0x0A) bytes)

structure Lines where
  readable : List String
  intact : Bool
  deriving DecidableEq

def Lines.decode : List (List UInt8) → Lines
  | [] => ⟨[], true⟩
  | line :: rest =>
    match Utf8.text? line with
    | none => ⟨[], false⟩
    | some text =>
      let more := Lines.decode rest
      ⟨text :: more.readable, more.intact⟩

def Lines.ofBytes (bytes : List UInt8) : Lines := Lines.decode (byteLines bytes)

end IjvmAsm.Text
