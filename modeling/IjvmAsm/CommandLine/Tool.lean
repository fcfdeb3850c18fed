import IjvmAsm.CommandLine.Arguments
import IjvmAsm.CommandLine.Directory
import IjvmAsm.Event
import IjvmAsm.InstructionSet.Definition
import IjvmAsm.InstructionSet.Standard
import IjvmAsm.Text.Utf8

/-!
# Tools

What the tools have in common: a tool reads its arguments, asks for the files that it needs, and
comes to an outcome, or to what is to be printed or stored before there is one. An error is told
with its causes, the outermost first.
-/

namespace IjvmAsm.CommandLine

structure Outcome where
  code : Nat
  stdout : Bytes := []
  stderr : String := ""
  deriving DecidableEq

/-- A run up to the point where it ends, hands something over to be printed, or stores a file. -/
inductive Run
  | ended (outcome : Outcome)
  /-- Bytes to print, and the outcomes behind them if this succeeds or fails. -/
  | printing (content : Bytes) (printed : Outcome) (failed : FileError → Outcome)
  /-- A file to store, and the outcomes if this succeeds or fails. -/
  | storing (path : String) (content : Bytes) (stored : Outcome) (failed : FileError → Outcome)

abbrev Reader := String → Except FileError Node

/-- Whether bytes are printed, or after how many of them this fails. -/
abbrev Printer := Bytes → Except (Nat × FileError) Unit

def Printer.whole : Printer := fun _ => .ok ()

abbrev Store := String → Bytes → Except FileError Directory

/-- A run brought to its end in a working directory: the outcome, and the directory after it. -/
def Run.within (d : Directory) (printer : Printer) (store : Store) : Run → Outcome × Directory
  | ended outcome => (outcome, d)
  | printing content printed failed =>
    match printer content with
    | .ok () => ({ printed with stdout := content ++ printed.stdout }, d)
    | .error (taken, e) =>
      let outcome := failed e
      ({ outcome with stdout := content.take taken ++ outcome.stdout }, d)
  | storing path content stored failed =>
    match store path content with
    | .ok after => (stored, after)
    | .error e => (failed e, d)

/-- A run that has read its arguments: the paths it looks at, and what it does with what is there. -/
structure Plan where
  paths : List String := []
  run : Reader → Run

def addLine (text line : String) : String := text ++ line ++ "\n"

def failure (stdout : Bytes) (stderr : String) (causes : List String) : Outcome :=
  ⟨1, stdout, addLine stderr ("Error: " ++ ": ".intercalate causes)⟩

def logText (v : Verbosity) (j : Journal) : String := (v.log j).foldl addLine ""

def FileError.causes (e : FileError) : List String := [s!"IO error: {e.message}", e.message]

end CommandLine

def InstructionSet.DefinitionError.causes (e : InstructionSet.DefinitionError) : List String :=
  match e with
  | .undecodable => [e.message, Text.undecodable]
  | .refused .. => [e.message]

namespace CommandLine

def loadFile (reader : Reader) (path : String) :
    Journal × Except (List String) InstructionSet :=
  match reader path with
  | .error e => (#[], .error e.causes)
  | .ok .directory => (#[], .error FileError.isADirectory.causes)
  | .ok (.file content) =>
    let (journal, result) := InstructionSet.ofDefinition (Path.shownName path) content
    (journal, result.mapError InstructionSet.DefinitionError.causes)

/-- The instruction set that is asked for. An error begins with what was tried. -/
def loadSet (reader : Reader) (trying : String) :
    Option String → Journal × Except (List String) InstructionSet
  | none => (#[], .ok .standard)
  | some path =>
    let (journal, result) := loadFile reader path
    (journal, result.mapError ((trying ++ " " ++ path) :: ·))

structure Tool where
  name : String
  help : String
  usage : String
  specs : List OptionSpec
  plan : String → Given → Plan

namespace Tool

def version : String := "0.1.0"

def stopped (tool : Tool) : Stop → Outcome
  | .help => { code := 0, stdout := Utf8.encode tool.help }
  | .version => { code := 0, stdout := Utf8.encode s!"{tool.name} {version}\n" }
  | .refused error =>
    { code := 2
      stderr := s!"error: {error.message}\n\nUsage: {tool.usage}\n\n" ++
        "For more information, try '--help'.\n" }

def start (tool : Tool) (arguments : List String) : Plan :=
  match readArguments tool.specs arguments with
  | .error stop => { run := fun _ => .ended (tool.stopped stop) }
  | .ok (operand, given) => tool.plan operand given

/-- A run where everything can be printed. -/
def runIn (tool : Tool) (d : Directory) (arguments : List String) : Outcome × Directory :=
  ((tool.start arguments).run d.read).within d .whole d.write

end Tool

end CommandLine

end IjvmAsm
