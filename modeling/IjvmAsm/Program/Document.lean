import IjvmAsm.Document
import IjvmAsm.Program.Basic

/-!
# Programs as documents

The document of a program holds all that can be seen of it. The index of a label and the widening
that a method waits for are not seen.
-/

namespace IjvmAsm

def Operation.document (op : Operation) : Document :=
  .object [("name", .string op.name), ("opcode", .number op.opcode.toNat),
    ("args", .array (op.operands.map fun kind => .string kind.name))]

def Constant.document (c : Constant) : Document :=
  .object [("name", .string c.name), ("value", .number c.value.toInt), ("line", .number c.line),
    ("origin", .string c.origin.name)]

def Variable.document (v : Variable) : Document :=
  .object [("name", .string v.name), ("slot", .number v.slot)]

def Label.document (l : Label) : Document :=
  .object [("name", .string l.name), ("line", .number l.line), ("offset", .number l.offset)]

def Reference.document (r : Reference) : Document :=
  let kind := match r with
    | label _ => "label"
    | method _ => "method"
  .object [("kind", .string kind), ("name", .string r.name)]

def Argument.document : Argument → Document
  | resolved value => .object [("resolved", .number value)]
  | pending reference => .object [("pending", reference.document)]

def Instruction.document (i : Instruction) : Document :=
  .object [("operation", i.operation.document),
    ("arguments", .array (i.arguments.map Argument.document)), ("wide", .bool i.wide),
    ("line", .number i.line), ("offset", .number i.offset)]

def Method.document (m : Method) : Document :=
  .object [("name", .string m.name), ("parameter_count", .number m.parameterCount),
    ("variables", .array (m.slots.toList.map Variable.document)),
    ("instructions", .array (m.instructions.toList.map Instruction.document)),
    ("labels", .array (m.labels.toList.map Label.document)), ("size", .number m.size),
    ("offset", .number m.offset), ("is_entry", .bool m.isEntry), ("line", .number m.line)]

def Program.document (p : Program) : Document :=
  .object [("constants", .array (p.constants.toList.map Constant.document)),
    ("methods", .array (p.methods.toList.map Method.document))]

end IjvmAsm
