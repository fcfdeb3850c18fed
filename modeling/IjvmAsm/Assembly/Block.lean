import IjvmAsm.Assembly.Statement
import IjvmAsm.Source.Line

/-!
# Blocks

A source is a sequence of blocks: the constants, the entry method and other methods, whose bodies
may begin with a block of variables. A run reads one line after the other and remembers which
block it is in. A block in a place where it may not be is reported once and skipped.
-/

namespace IjvmAsm.Assembly

inductive Block
  | outside
  | constants
  /-- The body of a method; `started` says that variables can no longer be declared. -/
  | body (m : Method) (started : Bool)
  | declarations (m : Method)
  /-- A rejected block, which may stand in the body of a method. -/
  | rejected (closing : Closing) (within : Option Method)

namespace Block

def bodyClosing (m : Method) : Closing := if m.isEntry then .main else .method

def closing? : Block → Option Closing
  | outside => none
  | constants => some .constants
  | body m _ => some (bodyClosing m)
  | declarations _ => some .declarations
  | rejected closing _ => some closing

def resumed : Option Method → Block
  | none => outside
  | some m => body m true

end Block

structure Progress where
  program : Program := {}
  /-- Whether the block of constants has been closed. -/
  constantsClosed : Bool := false
  mainSeen : Bool := false
  block : Block := .outside
  journal : Journal := #[]

/-- A run that has ended early, with what was noticed on its last line. -/
structure Abort where
  halt : Halt
  journal : Journal

namespace Progress

def note (a : Progress) (events : List Event) : Progress :=
  { a with journal := a.journal ++ events }

def enter (a : Progress) (block : Block) (events : List Event) : Progress :=
  { a with block, journal := a.journal ++ events }

def reject (a : Progress) (s : Setup) (line : Nat) (problem : Problem) (closing : Closing) :
    Progress :=
  a.enter (.rejected closing none) [s.problem line problem]

def constantValue (token : String) : Except LiteralError Int := Literal.characterOrSigned 32 token

def readConstant (p : Program) (name literal : String) (line : Nat) : Except Problem Constant :=
  if !Source.isIdentifier name then .error (.constantName name)
  else
    match p.findConstant? name with
    | some taken => .error (.constantTaken name taken.line)
    | none =>
      match constantValue literal with
      | .error cause => .error (.constantValue cause)
      | .ok value => .ok ⟨name, Int32.ofInt value, line, .declared⟩

def constantLine (a : Progress) (s : Setup) (line : Source.Line) : Progress :=
  match Source.tokensOf line.text with
  | name :: literal :: more =>
    match readConstant a.program name literal line.number with
    | .error problem => a.note [s.problem line.number problem]
    | .ok constant =>
      let warnings := if more.isEmpty then [] else [s.problem line.number (.trailingTokens name)]
      let registered : Event :=
        .remark .debug s!"Constant registered: {name} = {constant.value.toInt}"
      { a with
        program := { a.program with constants := a.program.constants.push constant }
        journal := a.journal ++ (warnings ++ [registered]) }
  | _ => a.note [s.problem line.number .missingValue]

def parameterProblems (seen : List String) : List String → List Problem
  | [] => []
  | name :: rest =>
    let problems :=
      if !Source.isIdentifier name then [Problem.parameterName name]
      else if seen.contains name then [.parameterTwice name]
      else []
    problems ++ parameterProblems (name :: seen) rest

def headerProblems (header : Source.MethodHeader) : List Problem :=
  (if Source.isIdentifier header.name then [] else [.methodName header.name]) ++
    parameterProblems [] header.parameters

def entering (m : Method) : Event := .remark .info s!"[.{m.name}] Entering method"

def openConstants (a : Progress) (s : Setup) (line : Nat) : Progress :=
  if a.constantsClosed then a.reject s line .secondConstants .constants
  else if a.mainSeen then a.reject s line .lateConstants .constants
  else { a with block := .constants }

def openMain (a : Progress) (s : Setup) (line : Nat) : Progress :=
  if a.mainSeen then a.reject s line .secondMain .main
  else
    let m := Method.entry line
    { a with mainSeen := true, block := .body m false, journal := a.journal.push (entering m) }

def openMethod (a : Progress) (s : Setup) (line : Nat) (declaration : String) :
    Except Abort Progress :=
  if !a.mainSeen then .ok (a.reject s line .methodBeforeMain .method)
  else
    match Source.MethodHeader.parse declaration with
    | .error cause => .error ⟨.methodHeader s.file line cause, a.journal⟩
    | .ok header =>
      let m := Method.named header.name header.parameters line
      let events := (headerProblems header).map (s.problem line)
      .ok (a.enter (.body m false) (events ++ [entering m]))

def outsideLine (a : Progress) (s : Setup) (line : Source.Line) : Except Abort Progress :=
  let a := a.note [.remark .trace s!"{s.file}:{line.number} > {line.text}"]
  if line.text.isEmpty then .ok a
  else if line.text = constantsOpening then .ok (a.openConstants s line.number)
  else if line.text = mainOpening then .ok (a.openMain s line.number)
  else
    match Source.methodLine? line.text with
    | some declaration => a.openMethod s line.number declaration
    | none => .ok (a.note [s.problem line.number (.strayLine line.text)])

def closeBody (a : Progress) (s : Setup) (m : Method) (line : Nat) : Progress :=
  let warnings := if m.widensNext then [s.problem line (.idleWide m.name)] else []
  let m := m.sealed
  let registered : Event := .remark .info
    s!"Registered method: ({a.program.methods.size}) {m.name} [{m.size} byte(s)]"
  { a with
    program := { a.program with methods := a.program.methods.push m }
    block := .outside
    journal := a.journal ++ (warnings ++ [registered]) }

def bodyLine (a : Progress) (s : Setup) (m : Method) (started : Bool) (line : Source.Line) :
    Progress :=
  if line.text = (Block.bodyClosing m).text then a.closeBody s m line.number
  else if line.text.isEmpty then { a with block := .body m started }
  else if line.text = declarationsOpening then
    if started then
      a.enter (.rejected .declarations (some m)) [s.problem line.number .lateVariables]
    else { a with block := .declarations m }
  else
    let (m, events) := statement s a.program m line.text line.number
    a.enter (.body m true) events

def declare (s : Setup) (line : Nat) (m : Method) (name : String) : Method × List Event :=
  if !Source.isIdentifier name then (m, [s.problem line (.variableName name)])
  else
    let warnings := match m.findVariable? name with
      | some first => [s.problem line (.variableTwice name first.slot)]
      | none => []
    let registered : Event :=
      .remark .debug s!"[.{m.name}] Registered variable: {name} -> {m.slots.size}"
    (m.addVariable name, warnings ++ [registered])

def declareAll (s : Setup) (line : Nat) (m : Method) : List String → Method × List Event
  | [] => (m, [])
  | name :: rest =>
    let (m, events) := declare s line m name
    let (m, more) := declareAll s line m rest
    (m, events ++ more)

def declarationsLine (a : Progress) (s : Setup) (m : Method) (line : Source.Line) : Progress :=
  if line.text = Closing.declarations.text then { a with block := .body m true }
  else
    let names := (Text.words line.text.toList).map String.ofList
    let (m, events) := declareAll s line.number m names
    a.enter (.declarations m) events

def rejectedLine (a : Progress) (s : Setup) (closing : Closing) (within : Option Method)
    (line : Source.Line) : Progress :=
  let events := [Event.remark .debug s!"{s.file}:{line.number} > |skip| {line.text}"]
  if line.text = closing.text then a.enter (Block.resumed within) events
  else a.enter (.rejected closing within) events

def step (s : Setup) (a : Progress) (line : Source.Line) : Except Abort Progress :=
  let block := a.block
  -- A line ends up outside unless it says otherwise. This also leaves the method of the block with
  -- one owner, so that it is changed in place.
  let a := { a with block := .outside }
  match block with
  | .outside => a.outsideLine s line
  | .constants =>
    if line.text = Closing.constants.text then .ok { a with constantsClosed := true }
    else
      let a := { a with block := .constants }
      .ok (if line.text.isEmpty then a else a.constantLine s line)
  | .body m started => .ok (a.bodyLine s m started line)
  | .declarations m => .ok (a.declarationsLine s m line)
  | .rejected closing within => .ok (a.rejectedLine s closing within line)

end Progress

end IjvmAsm.Assembly
