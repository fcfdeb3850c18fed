import IjvmAsm.Assembly.Setup
import IjvmAsm.Program.Method
import IjvmAsm.Source.Token

/-!
# Statements

A line in the body of a method: an optional label, and an instruction or a directive. A label, an
instruction or a directive that cannot be carried out leaves the method as it is and says why.
-/

namespace IjvmAsm.Assembly

def maxNarrowSlot : Nat := 0xFF

def maxWideSlot : Nat := 0xFFFF

/-- The slot of a variable, and whether it asks for an operation that widens. -/
def slotArgument (s : Setup) (m : Method) (token : String) :
    Except ArgumentError (Argument × Bool) :=
  match m.findVariable? token with
  | none => .error (.unknownVariable token)
  | some v =>
    if maxWideSlot < v.slot then .error (.unaddressable token v.slot)
    else if v.slot ≤ maxNarrowSlot ∨ m.widensNext then .ok (.resolved v.slot, false)
    else if s.autoWide then .ok (.resolved v.slot, true)
    else .error (.needsWide token v.slot)

def readArgument (s : Setup) (p : Program) (m : Method) (kind : OperandKind) (token : String) :
    Except ArgumentError (Argument × Bool) :=
  match kind with
  | .byte =>
    match Literal.characterOrSigned 8 token with
    | .ok value => .ok (.resolved value, false)
    | .error cause => .error (.literal cause)
  | .var => slotArgument s m token
  | .label => .ok (.pending (.label token), false)
  | .method => .ok (.pending (.method token), false)
  | .constant =>
    match p.constantIndex? token with
    | some index => .ok (.resolved index, false)
    | none => .error (.unknownConstant token)

def readArguments (s : Setup) (p : Program) (m : Method) :
    List (OperandKind × String) → Except ArgumentError (List Argument × Bool)
  | [] => .ok ([], false)
  | (kind, token) :: rest => do
    let (argument, widen) ← readArgument s p m kind token
    let (arguments, widenRest) ← readArguments s p m rest
    return (argument :: arguments, widen || widenRest)

/-- What a line of an instruction comes to: the instruction, and the operation that widens it if
one is to be inserted. -/
structure Reading where
  operation : Operation
  arguments : List Argument
  widener : Option Operation

def readInstruction (s : Setup) (p : Program) (m : Method) (text name : String)
    (tokens : List String) : Except Problem Reading :=
  match s.set.find? name with
  | none => .error (.unknownInstruction text)
  | some op =>
    if tokens.length ≠ op.operands.length then
      .error (.argumentCount op.name op.operands.length tokens.length)
    else
      match readArguments s p m (op.operands.zip tokens) with
      | .error cause => .error (.argument cause)
      | .ok (arguments, false) => .ok ⟨op, arguments, none⟩
      | .ok (arguments, true) =>
        match s.set.find? Operation.wideName with
        | none => .error (.cannotWiden op.name)
        | some widener => .ok ⟨op, arguments, some widener⟩

def Reading.perform (r : Reading) (m : Method) (line : Nat) : Method × List Event :=
  let registered : Event := .remark .debug
    s!"[.{m.name}] Registered instruction: {r.operation.name} ({r.arguments.length})"
  let i : Instruction := { operation := r.operation, arguments := r.arguments, line }
  match r.widener with
  | none => (m.push i, [registered])
  | some widener =>
    let inserted : Event := .remark .debug
      s!"[.{m.name}] Inserting WIDE before {r.operation.name} on line {line}"
    ((m.push { operation := widener, arguments := [], line }).push i, [inserted, registered])

def instruction (s : Setup) (p : Program) (m : Method) (text : String) (line : Nat) :
    Method × List Event :=
  match Source.tokensOf text with
  | [] => (m, [])
  | name :: tokens =>
    match readInstruction s p m text name tokens with
    | .error problem => (m, [s.problem line problem])
    | .ok reading => reading.perform m line

def pushBytes (push out : Operation) (line : Nat) (m : Method) (bytes : List UInt8) : Method :=
  bytes.foldl (fun m b =>
    (m.push { operation := push, arguments := [.resolved b.toInt8.toInt], line }).push
      { operation := out, arguments := [], line }) m

def print (s : Setup) (m : Method) (argument : String) (line : Nat) : Method × List Event :=
  if argument.isEmpty then (m, [s.problem line .printNothing])
  else
    match Source.Quoted.decode argument with
    | .error cause => (m, [s.problem line (.printString cause)])
    | .ok bytes =>
      match s.set.find? InstructionSet.pushName, s.set.find? InstructionSet.outName with
      | some push, some out =>
        if bytes.isEmpty then (m, [s.problem line .printEmpty])
        else
          (pushBytes push out line m bytes,
            [.remark .debug s!"[.{m.name}] Expanding #print of {bytes.length} byte(s)"])
      | _, _ => (m, [s.problem line .printUnsupported])

def printName : String := "#print"

def splitDirective (text : String) : String × String :=
  match Text.cutAt Text.isBlank text.toList with
  | some (name, rest) => (String.ofList name, String.ofList (Text.trimBlanks rest))
  | none => (text, "")

def directive (s : Setup) (m : Method) (text : String) (line : Nat) : Method × List Event :=
  let (name, argument) := splitDirective text
  if name = printName then print s m argument line
  else (m, [s.problem line (.unknownDirective name)])

/-- Whether the text before a colon is meant as a label: it is one word that is no directive, and
no quote opens in it. -/
def looksLikeLabel (head : List Char) : Bool :=
  !head.isEmpty && head.head? != some '#' &&
    head.all fun c => !(Text.isBlank c || c == '\'' || c == '"' || c == '`')

def splitLabel (text : String) : Option (String × String) :=
  match Text.cutAt (· == ':') text.toList with
  | none => none
  | some (head, rest) =>
    let head := Text.trimBlanks head
    if looksLikeLabel head then
      some (String.ofList head, String.ofList (Text.trimBlanks rest))
    else none

def defineLabel (s : Setup) (m : Method) (name : String) (line : Nat) : Method × List Event :=
  if !Source.isIdentifier name then (m, [s.problem line (.labelName name)])
  else
    match m.addLabel name line with
    | .error taken => (m, [s.problem line (.labelTaken name taken.line)])
    | .ok labelled =>
      (labelled, [.remark .debug s!"[.{m.name}] Registered label: {name}@{m.size}"])

def action (s : Setup) (p : Program) (m : Method) (text : String) (line : Nat) :
    Method × List Event :=
  if text.isEmpty then (m, [])
  else if text.toList.head? = some '#' then directive s m text line
  else instruction s p m text line

def statement (s : Setup) (p : Program) (m : Method) (text : String) (line : Nat) :
    Method × List Event :=
  match splitLabel text with
  | none => action s p m text line
  | some (name, rest) =>
    let (m, events) := defineLabel s m name line
    let (m, more) := action s p m rest line
    (m, events ++ more)

end IjvmAsm.Assembly
