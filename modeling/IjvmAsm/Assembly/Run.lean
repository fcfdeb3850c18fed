import IjvmAsm.Assembly.Block
import IjvmAsm.Program.Link

/-!
# Runs

Assembling a source: its lines are read, and the program they make is linked. Whatever is reported
on the way, a run that does not end early gives a program; it succeeds if no error was reported.
-/

namespace IjvmAsm.Assembly

structure Outcome where
  journal : Journal
  result : Except Halt Program

namespace Outcome

def errors (o : Outcome) : Nat := o.journal.errors

def warnings (o : Outcome) : Nat := o.journal.warnings

def diagnostics (o : Outcome) : Array Diagnostic := o.journal.diagnostics

def succeeded (o : Outcome) : Bool := o.errors == 0

def failure? (o : Outcome) : Option String :=
  if o.succeeded then none else some s!"Assembly failed with {o.errors} error(s)"

end Outcome

def Progress.finish (s : Setup) (a : Progress) (lines : Nat) : Outcome :=
  match a.block.closing? with
  | some expected => ⟨a.journal, .error (.unexpectedEnd s.file lines expected)⟩
  | none =>
    let (program, events) := a.program.link s.file
    let assembled : Event := .remark .info (s!"Assembled {s.file}: " ++
      s!"{program.methods.size} method(s), {program.constants.size} constant(s), " ++
      s!"{program.size} byte(s)")
    ⟨(a.journal ++ events).push assembled, .ok program⟩

def readLines (s : Setup) (a : Progress) : List Source.Line → Except Abort Progress
  | [] => .ok a
  | line :: rest =>
    match a.step s line with
    | .error abort => .error abort
    | .ok a => readLines s a rest

def run (s : Setup) (source : Bytes) : Outcome :=
  let lines := Source.Lines.ofBytes source
  match readLines s {} lines.lines with
  | .error abort => ⟨abort.journal, .error abort.halt⟩
  | .ok a =>
    if lines.intact then a.finish s lines.lines.length
    else ⟨a.journal, .error .undecodable⟩

end IjvmAsm.Assembly
