import IjvmAsm.Image.Basic
import IjvmAsm.Program.Basic

/-!
# Methods

How a method grows: variables take the next free slot, labels stand before the next instruction,
and an instruction behind one that widens is wide. The sizes and offsets kept on the way are those
that sealing computes from the instructions.
-/

namespace IjvmAsm.Method

/-- The name of slot zero, which no identifier spells. -/
def linkPointer : String := "LINK PTR"

def entryName : String := "main"

def addVariable (m : Method) (name : String) : Method :=
  { m with slots := m.slots.push ⟨name, m.slots.size⟩ }

def build (name : String) (parameters : List String) (line : Nat) (isEntry : Bool) : Method :=
  let bare : Method := ⟨name, 0, #[], #[], #[], 0, 0, isEntry, line, false⟩
  let m := (linkPointer :: parameters).foldl addVariable bare
  { m with parameterCount := m.slots.size }

def entry (line : Nat) : Method := build entryName [] line true

def named (name : String) (parameters : List String) (line : Nat) : Method :=
  build name parameters line false

def findVariable? (m : Method) (name : String) : Option Variable :=
  m.slots.find? fun v => v.name == name

def localCount (m : Method) : Nat := m.slots.size - m.parameterCount

def findLabel? (m : Method) (name : String) : Option Label :=
  m.labels.find? fun l => l.name == name

/-- Puts a label before the next instruction, unless the name is taken. -/
def addLabel (m : Method) (name : String) (line : Nat) : Except Label Method :=
  match m.findLabel? name with
  | some taken => .error taken
  | none => .ok { m with labels := m.labels.push ⟨name, line, m.size, m.instructions.size⟩ }

/-- Appends an instruction, which is wide behind one that widens. -/
def push (m : Method) (i : Instruction) : Method :=
  let i := { i with wide := i.wide || m.widensNext, offset := m.size }
  { m with
    instructions := m.instructions.push i
    size := m.size + i.size
    widensNext := i.operation.widens }

def placeFrom (cursor : Nat) : List Instruction → List Instruction
  | [] => []
  | i :: rest => { i with offset := cursor } :: placeFrom (cursor + i.size) rest

/-- Computes all offsets and the size anew. -/
def sealed (m : Method) : Method :=
  let placed := (placeFrom 0 m.instructions.toList).toArray
  let size := m.instructions.toList.foldr (fun i n => i.size + n) 0
  let offsetAt (index : Nat) : Nat := (placed[index]?.map Instruction.offset).getD size
  { m with
    instructions := placed
    labels := m.labels.map fun l => { l with offset := offsetAt l.index }
    size }

/-- The bytes in the text segment: all methods but the entry method have a header. -/
def segmentSize (m : Method) : Nat := if m.isEntry then m.size else m.size + Image.headerSize

end IjvmAsm.Method

namespace IjvmAsm.Program

def constantIndex? (p : Program) (name : String) : Option Nat :=
  p.constants.findIdx? fun c => c.name == name

def findConstant? (p : Program) (name : String) : Option Constant :=
  p.constants.find? fun c => c.name == name

def entry? (p : Program) : Option Method := p.methods[0]?.filter Method.isEntry

def findMethod? (p : Program) (name : String) : Option Method :=
  p.methods.find? fun m => m.name == name

def size (p : Program) : Nat := p.methods.toList.foldr (fun m n => m.segmentSize + n) 0

def callable (p : Program) : Array Constant := p.constants.filter fun c => c.origin == .method

def awaitsLinking (p : Program) : Bool :=
  p.methods.any fun m => m.instructions.any fun i => i.arguments.any Argument.isPending

end IjvmAsm.Program
