import IjvmAsm.InstructionSet.Standard
import IjvmAsm.Problem
import IjvmAsm.Source.MethodHeader
import IjvmAsm.Text.Lines

/-!
# What a run is given, and what can end it

The setup of a run stays the same from the first line to the last. A run ends early where it cannot
go on sensibly: inside a block that nothing closes, at a method header that cannot be read, or at
a line that is not UTF-8.
-/

namespace IjvmAsm.Assembly

structure Setup where
  /-- The name of the source in diagnostics. -/
  file : String
  set : InstructionSet := .standard
  /-- Whether operations that widen are inserted where a slot needs one. -/
  autoWide : Bool := false

namespace Setup

def problem (s : Setup) (line : Nat) (p : Problem) : Event := p.event s.file line

end Setup

inductive Closing
  | constants
  | main
  | method
  | declarations
  deriving DecidableEq

def Closing.text : Closing → String
  | constants => ".end-constant"
  | main => ".end-main"
  | method => ".end-method"
  | declarations => ".end-var"

def constantsOpening : String := ".constant"

def mainOpening : String := ".main"

def declarationsOpening : String := ".var"

inductive Halt
  | unexpectedEnd (file : String) (line : Nat) (expected : Closing)
  | methodHeader (file : String) (line : Nat) (cause : Source.HeaderError)
  | undecodable
  deriving DecidableEq

def Halt.message : Halt → String
  | unexpectedEnd file line expected =>
    s!"{file}:{line} > Unexpected end of file, expected `{expected.text}`"
  | methodHeader file line cause => s!"{file}:{line} > {cause.message}"
  | undecodable => s!"IO error: {Text.undecodable}"

end IjvmAsm.Assembly
