import IjvmAsm.CommandLine.Assembler
import IjvmAsm.CommandLine.Inspector

/-!
# The program

Runs one of the tools on the files of the machine. The program is the inspector where it goes by
that name, and the assembler otherwise.
-/

namespace IjvmAsm.CommandLine

def FileError.ofMachine : IO.Error → FileError
  | .noFileOrDirectory .. => .notFound
  | .inappropriateType _ 21 _ => .isADirectory
  | .inappropriateType .. => .notADirectory
  | .permissionDenied .. => .other "Permission denied (os error 13)"
  | e => .other (toString e)

def readNode (path : String) : IO (Except FileError Node) := do
  match ← (IO.FS.readBinFile path).toBaseIO with
  | .ok content => return .ok (.file content.toList)
  | .error e =>
    match FileError.ofMachine e with
    | .isADirectory => return .ok .directory
    | e => return .error e

def printBytes (content : Bytes) : IO Unit := do
  let stdout ← IO.getStdout
  stdout.write (ByteArray.mk content.toArray)
  stdout.flush

def Outcome.report (o : Outcome) : IO UInt32 := do
  printBytes o.stdout
  (← IO.getStderr).putStr o.stderr
  return UInt32.ofNat o.code

def Tool.main (tool : Tool) (arguments : List String) : IO UInt32 := do
  let plan := tool.start arguments
  let nodes ← plan.paths.mapM fun path => do return (path, ← readNode path)
  match plan.run fun path => (nodes.lookup path).getD (.error .notFound) with
  | .ended outcome => outcome.report
  | .printing content printed failed =>
    match ← (printBytes content).toBaseIO with
    | .ok _ => printed.report
    | .error e => (failed (FileError.ofMachine e)).report
  | .storing path content stored failed =>
    match ← (IO.FS.writeBinFile path (ByteArray.mk content.toArray)).toBaseIO with
    | .ok _ => stored.report
    | .error e => (failed (FileError.ofMachine e)).report

end IjvmAsm.CommandLine

open IjvmAsm.CommandLine in
def main (arguments : List String) : IO UInt32 := do
  let name := ((← IO.appPath).fileName).getD assembler.name
  (if name == inspector.name then inspector else assembler).main arguments
