/-!
# Events

What a run has to say while it works: diagnostics, which concern a line of a file, and remarks.
A journal keeps them in the order in which they arise, and a verbosity selects from it.
-/

namespace IjvmAsm

inductive Level
  | error
  | warn
  | info
  | debug
  | trace
  deriving DecidableEq

namespace Level

def rank : Level → Nat
  | error => 1
  | warn => 2
  | info => 3
  | debug => 4
  | trace => 5

def name : Level → String
  | error => "ERROR"
  | warn => "WARN"
  | info => "INFO"
  | debug => "DEBUG"
  | trace => "TRACE"

end Level

inductive Severity
  | warning
  | error
  deriving DecidableEq

def Severity.name : Severity → String
  | warning => "warning"
  | error => "error"

structure Diagnostic where
  file : String
  line : Nat
  severity : Severity
  message : String
  deriving DecidableEq

namespace Diagnostic

def isError (d : Diagnostic) : Bool := d.severity == .error

def text (d : Diagnostic) : String :=
  match d.severity with
  | .error => s!"{d.file}:{d.line} > {d.message}"
  | .warning => s!"{d.file}:{d.line} > warning: {d.message}"

end Diagnostic

inductive Event
  | diagnostic (d : Diagnostic)
  | remark (level : Level) (text : String)
  deriving DecidableEq

namespace Event

def level : Event → Level
  | diagnostic d => if d.isError then .error else .warn
  | remark level _ => level

def message : Event → String
  | diagnostic d => d.text
  | remark _ text => text

def text (e : Event) : String := s!"{e.level.name} {e.message}"

def diagnostic? : Event → Option Diagnostic
  | diagnostic d => some d
  | remark .. => none

end Event

abbrev Journal := Array Event

namespace Journal

def diagnostics (j : Journal) : Array Diagnostic := j.filterMap Event.diagnostic?

def errors (j : Journal) : Nat := j.diagnostics.countP Diagnostic.isError

def warnings (j : Journal) : Nat := j.diagnostics.countP fun d => !d.isError

end Journal

inductive Verbosity
  | off
  | info
  | debug
  | trace
  deriving DecidableEq

namespace Verbosity

def ofCount : Nat → Verbosity
  | 0 => off
  | 1 => info
  | 2 => debug
  | _ => trace

def name : Verbosity → String
  | off => "off"
  | info => "info"
  | debug => "debug"
  | trace => "trace"

def depth : Verbosity → Nat
  | off => 0
  | info => Level.info.rank
  | debug => Level.debug.rank
  | trace => Level.trace.rank

def shows (v : Verbosity) (level : Level) : Bool := level.rank ≤ v.depth

def log (v : Verbosity) (j : Journal) : Array String :=
  (j.filter fun e => v.shows e.level).map Event.text

end Verbosity

end IjvmAsm
