import IjvmAsm.InstructionSet.Operation

/-!
# Programs

What assembling gives: a pool of constants and methods made of instructions. An argument of an
instruction is a value, or waits for the place of a label or of a method to be known.
-/

namespace IjvmAsm

/-- Where a constant comes from: a line of the source, or a method that it makes callable. -/
inductive Origin
  | declared
  | method
  deriving DecidableEq

def Origin.name : Origin → String
  | declared => "declared"
  | method => "method"

structure Constant where
  name : String
  value : Int32
  line : Nat
  origin : Origin
  deriving DecidableEq

structure Variable where
  name : String
  slot : Nat
  deriving DecidableEq

/-- A label: `index` counts the instructions before it, and `offset` their bytes. -/
structure Label where
  name : String
  line : Nat
  offset : Nat
  index : Nat
  deriving DecidableEq

inductive Reference
  | label (name : String)
  | method (name : String)
  deriving DecidableEq

def Reference.name : Reference → String
  | label name | method name => name

inductive Argument
  | resolved (value : Int)
  | pending (reference : Reference)
  deriving DecidableEq

namespace Argument

def value? : Argument → Option Int
  | resolved value => some value
  | pending _ => none

def isPending : Argument → Bool
  | resolved _ => false
  | pending _ => true

end Argument

structure Instruction where
  operation : Operation
  arguments : List Argument
  line : Nat
  wide : Bool := false
  offset : Nat := 0
  deriving DecidableEq

namespace Instruction

def size (i : Instruction) : Nat := i.operation.size i.wide

theorem size_pos (i : Instruction) : 0 < i.size := i.operation.size_pos i.wide

end Instruction

/-- A method. The slots hold the link pointer, the parameters and the locals, in this order;
`parameterCount` counts the link pointer too. `widensNext` says that the last instruction widens
the one to come. -/
structure Method where
  name : String
  parameterCount : Nat
  slots : Array Variable
  instructions : Array Instruction
  labels : Array Label
  size : Nat
  offset : Nat
  isEntry : Bool
  line : Nat
  widensNext : Bool
  deriving DecidableEq

structure Program where
  constants : Array Constant := #[]
  methods : Array Method := #[]
  deriving DecidableEq

end IjvmAsm
