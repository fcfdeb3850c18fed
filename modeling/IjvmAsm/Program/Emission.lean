import IjvmAsm.Event
import IjvmAsm.Image.Listing
import IjvmAsm.Program.Method
import IjvmAsm.Text.Utf8

/-!
# Emission

How a program is written as an image. The steps of writing are a list: bytes to write, remarks,
and failures, the first of which ends it. Where the output has a limit, a step that would pass the
limit fails, and so what has been written before is always the beginning of what an unlimited
output gets.
-/

namespace IjvmAsm

inductive HeaderField
  | parameters
  | locals
  deriving DecidableEq

def HeaderField.name : HeaderField → String
  | parameters => "parameters"
  | locals => "locals"

inductive EmissionError
  | missingEntry
  | unresolved (method name : String) (line : Nat)
  | outOfRange (value : Int) (kind : OperandKind) (line : Nat)
  | headerOverflow (method : String) (field : HeaderField)
  /-- The output takes no more bytes. -/
  | outputFull
  deriving DecidableEq

def EmissionError.message : EmissionError → String
  | missingEntry => "Program has no entry method"
  | unresolved method name line =>
    s!"Unresolved reference `{name}` in method `{method}` at line {line}"
  | outOfRange value kind line =>
    s!"Value {value} does not fit a {kind.name} argument at line {line}"
  | headerOverflow method field =>
    s!"Method `{method}` has too many {field.name} for the header"
  | outputFull => "IO error: disk full"

inductive Step
  | write (bytes : Bytes)
  | note (event : Event)
  | fail (error : EmissionError)

abbrev Emission := List Step

/-- What an output got, what was noticed, and what ended the emission early. -/
structure Output where
  bytes : Bytes
  events : List Event
  failure : Option EmissionError

namespace Output

def result (o : Output) : Except EmissionError Bytes :=
  match o.failure with
  | none => .ok o.bytes
  | some error => .error error

def journal (o : Output) : Journal := o.events.toArray

end Output

namespace Emission

def run : Emission → Output
  | [] => ⟨[], [], none⟩
  | .fail error :: _ => ⟨[], [], some error⟩
  | .note event :: rest =>
    let out := run rest
    { out with events := event :: out.events }
  | .write bytes :: rest =>
    let out := run rest
    { out with bytes := bytes ++ out.bytes }

/-- Writes to an output that takes `room` more bytes. -/
def runWithin (room : Nat) : Emission → Output
  | [] => ⟨[], [], none⟩
  | .fail error :: _ => ⟨[], [], some error⟩
  | .note event :: rest =>
    let out := runWithin room rest
    { out with events := event :: out.events }
  | .write bytes :: rest =>
    if bytes.length ≤ room then
      let out := runWithin (room - bytes.length) rest
      { out with bytes := bytes ++ out.bytes }
    else ⟨[], [], some .outputFull⟩

end Emission

namespace Instruction

/-- The value to write for an argument. A lenient emission writes zero for what is pending. -/
def argumentValue (lenient : Bool) (method : String) (i : Instruction) :
    Argument → Except EmissionError Int
  | .resolved value => .ok value
  | .pending reference =>
    if lenient then .ok 0 else .error (.unresolved method reference.name i.line)

def argumentStep (lenient : Bool) (method : String) (i : Instruction) (kind : OperandKind)
    (argument : Argument) : Step :=
  match i.argumentValue lenient method argument with
  | .error error => .fail error
  | .ok value =>
    if kind.fits i.wide value then .write (kind.encode i.wide value)
    else .fail (.outOfRange value kind i.line)

def emission (lenient : Bool) (method : String) (i : Instruction) : Emission :=
  .write [i.operation.opcode] ::
    List.zipWith (i.argumentStep lenient method) i.operation.operands i.arguments

end Instruction

namespace Method

def emission (lenient : Bool) (m : Method) : Emission :=
  .note (.remark .debug s!"Generating method {m.name} ({m.size} byte(s))") ::
    m.instructions.toList.flatMap (Instruction.emission lenient m.name)

def headerEmission (m : Method) : Emission :=
  if 0x10000 ≤ m.parameterCount then [.fail (.headerOverflow m.name .parameters)]
  else if 0x10000 ≤ m.localCount then [.fail (.headerOverflow m.name .locals)]
  else [.write (Bytes.ofNat 2 m.parameterCount), .write (Bytes.ofNat 2 m.localCount)]

end Method

namespace Symbol

def encode (offset : Nat) (name : String) : Bytes :=
  Bytes.ofNat 4 offset ++ (Utf8.encode name ++ [0])

end Symbol

namespace Program

def headEmission (p : Program) : Emission :=
  .write (Bytes.ofNat 4 Image.magic) :: .write (Bytes.ofNat 4 Image.standardPoolOffset) ::
    .write (Bytes.ofNat 4 (p.constants.size * 4)) ::
    (p.constants.toList.map (fun c => Step.write (Bytes.ofNat 4 c.value.toUInt32.toNat)) ++
      [.write (Bytes.ofNat 4 0), .write (Bytes.ofNat 4 p.size)])

def emission (lenient : Bool) (p : Program) : Emission :=
  match p.entry? with
  | none => [.fail .missingEntry]
  | some entry =>
    p.headEmission ++ entry.emission lenient ++
      (p.methods.toList.drop 1).flatMap (fun m => m.headerEmission ++ m.emission lenient) ++
      [.note (.remark .info (s!"Generated image: {p.constants.size} constant(s), " ++
        s!"{p.methods.size} method(s), {p.size} text byte(s)"))]

def offsetsFrom (cursor : Nat) : List Method → List Nat
  | [] => []
  | m :: rest => cursor :: offsetsFrom (cursor + m.segmentSize) rest

def methodSymbols (p : Program) : Bytes :=
  (List.zipWith (fun m offset => Symbol.encode offset m.name) p.methods.toList
    (offsetsFrom 0 p.methods.toList)).flatten

def labelSymbolsOf (m : Method) (offset : Nat) : Bytes :=
  m.labels.toList.flatMap fun l => Symbol.encode (offset + l.offset) s!"{m.name}#{l.name}"

def labelSymbols (p : Program) : Bytes :=
  (List.zipWith labelSymbolsOf p.methods.toList (offsetsFrom 0 p.methods.toList)).flatten

def blockEmission (marker : Nat) (payload : Bytes) : Emission :=
  [.write (Bytes.ofNat 4 marker), .write (Bytes.ofNat 4 payload.length), .write payload]

def symbolEmission (p : Program) : Emission :=
  let methods := p.methodSymbols
  let labels := p.labelSymbols
  blockEmission Image.methodMarker methods ++ blockEmission Image.labelMarker labels ++
    [.note (.remark .debug (s!"Generated debug symbols: {methods.length} method byte(s), " ++
      s!"{labels.length} label byte(s)"))]

def render (lenient withSymbols : Bool) (p : Program) : Output :=
  (p.emission lenient ++ if withSymbols then p.symbolEmission else []).run

end Program

end IjvmAsm
