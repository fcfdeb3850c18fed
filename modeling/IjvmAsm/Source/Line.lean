import IjvmAsm.Text.Split
import IjvmAsm.Text.Lines

/-!
# Source lines

The lines of a source, numbered from one, without comments and without blanks at their ends.
-/

namespace IjvmAsm.Source

structure Line where
  number : Nat
  text : String
  deriving DecidableEq

def Line.clean (text : String) : String :=
  String.ofList (Text.trimBlanks (beforeComment text.toList))

def numbered (last : Nat) : List String → List Line
  | [] => []
  | text :: rest => ⟨last + 1, Line.clean text⟩ :: numbered (last + 1) rest

theorem length_numbered (last : Nat) (texts : List String) :
    (numbered last texts).length = texts.length := by
  induction texts generalizing last with
  | nil => rfl
  | cons _ _ ih => simp [numbered, ih]

/-- The lines before the first that cannot be decoded, and whether that is all of them. -/
structure Lines where
  lines : List Line
  intact : Bool

def Lines.ofBytes (bytes : List UInt8) : Lines :=
  let texts := Text.Lines.ofBytes bytes
  ⟨numbered 0 texts.readable, texts.intact⟩

end IjvmAsm.Source
