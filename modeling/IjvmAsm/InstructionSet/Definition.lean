import IjvmAsm.Event
import IjvmAsm.InstructionSet.Basic
import IjvmAsm.Literal
import IjvmAsm.Text.Split
import IjvmAsm.Text.Lines

/-!
# Definitions of instruction sets

The text of a definition has one operation a line: the opcode, the mnemonic and the kinds of the
arguments. Two slashes begin a comment. Every line that cannot be accepted is reported, and the
set is given only if there is none.
-/

namespace IjvmAsm

namespace InstructionSet

inductive LineFault
  | missingName
  | opcode (cause : LiteralError)
  | opcodeTaken (opcode : UInt8)
  | nameTaken (name : String)
  | unknownKind (token : String)
  deriving DecidableEq

def LineFault.message : LineFault → String
  | missingName => "Missing operation name"
  | opcode cause => s!"opcode: {cause.message}"
  | opcodeTaken code => s!"Duplicate opcode `{Numeral.hex 2 code.toNat}`"
  | nameTaken name => s!"Duplicate operation `{name}`"
  | unknownKind token => s!"argument: Unknown argument type `{token}`"

inductive DefinitionError
  /-- A line is not UTF-8. -/
  | undecodable
  /-- Lines were refused. -/
  | refused (name : String) (diagnostics : List Diagnostic)
  deriving DecidableEq

def DefinitionError.message : DefinitionError → String
  | undecodable => s!"IO error: {Text.undecodable}"
  | refused name diagnostics =>
    s!"Invalid instruction set `{name}`: {diagnostics.length} error(s)" ++
      String.join (diagnostics.map fun d => "\n" ++ d.text)

def definitionTokens (line : String) : List String :=
  (Text.words (beforeComment line.toList)).map String.ofList

def operandKinds : List String → Except LineFault (List OperandKind)
  | [] => .ok []
  | token :: rest =>
    match OperandKind.ofName? token with
    | none => .error (.unknownKind token)
    | some kind => (operandKinds rest).map (kind :: ·)

def define (set : InstructionSet) (opcode : String) : List String → Except LineFault Operation
  | [] => .error .missingName
  | name :: kinds => do
    let code ← (Literal.unsigned 8 opcode).mapError .opcode
    let code := UInt8.ofNat code
    if set.hasOpcode code then throw (.opcodeTaken code)
    let name := name.toUpper
    if set.contains name then throw (.nameTaken name)
    let operands ← operandKinds kinds
    return ⟨name, code, operands⟩

structure Reading where
  set : InstructionSet
  line : Nat := 0
  journal : Journal := #[]

namespace Reading

def registered (op : Operation) : Event :=
  .remark .debug
    s!"Operation registered: {Numeral.hex 2 op.opcode.toNat} -> {op.name} ({op.operands.length})"

def step (r : Reading) (text : String) : Reading :=
  let line := r.line + 1
  match definitionTokens text with
  | [] => { r with line }
  | opcode :: rest =>
    match define r.set opcode rest with
    | .ok op => ⟨r.set.insert op, line, r.journal.push (registered op)⟩
    | .error fault =>
      let d : Diagnostic := ⟨r.set.name, line, .error, fault.message⟩
      { r with line, journal := r.journal.push (.diagnostic d) }

end Reading

def ofDefinition (name : String) (bytes : List UInt8) :
    Journal × Except DefinitionError InstructionSet :=
  let lines := Text.Lines.ofBytes bytes
  let r := lines.readable.foldl Reading.step { set := empty name }
  let refused := r.journal.diagnostics.toList
  (r.journal,
    if !lines.intact then .error .undecodable
    else if refused.isEmpty then .ok r.set
    else .error (.refused name refused))

end InstructionSet

end IjvmAsm
