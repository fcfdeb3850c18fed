import IjvmAsm.Event
import IjvmAsm.Literal
import IjvmAsm.Source.Quoted

/-!
# Problems

What can be wrong with a line of a source or with a program that is linked. The severity and the
wording of each are given here and nowhere else.
-/

namespace IjvmAsm

inductive ArgumentError
  | literal (cause : LiteralError)
  | unknownVariable (name : String)
  | unaddressable (name : String) (slot : Nat)
  | needsWide (name : String) (slot : Nat)
  | unknownConstant (name : String)
  deriving DecidableEq

def ArgumentError.message : ArgumentError → String
  | literal cause => cause.message
  | unknownVariable name => s!"Variable not found: `{name}`"
  | unaddressable name slot => s!"Variable `{name}` in slot {slot} cannot be addressed"
  | needsWide name slot => s!"Variable `{name}` in slot {slot} needs a WIDE prefix"
  | unknownConstant name => s!"Constant not found: `{name}`"

inductive Problem
  /-- A line that is in no block. -/
  | strayLine (text : String)
  | secondConstants
  | lateConstants
  | missingValue
  | constantName (name : String)
  | constantTaken (name : String) (line : Nat)
  | constantValue (cause : LiteralError)
  | trailingTokens (name : String)
  | secondMain
  | methodBeforeMain
  | methodName (name : String)
  | parameterName (name : String)
  | parameterTwice (name : String)
  | idleWide (method : String)
  | lateVariables
  | variableName (name : String)
  | variableTwice (name : String) (slot : Nat)
  | labelName (name : String)
  | labelTaken (name : String) (line : Nat)
  | unknownDirective (name : String)
  | printNothing
  | printString (cause : Source.QuoteError)
  | printUnsupported
  | printEmpty
  | unknownInstruction (text : String)
  | argumentCount (operation : String) (expected found : Nat)
  | argument (cause : ArgumentError)
  | cannotWiden (operation : String)
  | noMain
  | methodTaken (name : String) (line : Nat)
  | jumpTooFar (method label : String) (distance : Int)
  | undefinedLabel (method label : String)
  | undefinedMethod (method name : String)
  deriving DecidableEq

namespace Problem

def severity : Problem → Severity
  | strayLine _ | trailingTokens _ | parameterTwice _ | idleWide _ | variableTwice .. | printEmpty =>
    .warning
  | _ => .error

def message : Problem → String
  | strayLine text => s!"Ignoring line outside of any block: `{text}`"
  | secondConstants => "Constant block was already declared"
  | lateConstants => "Constant block must appear before methods"
  | missingValue => "constant: Missing constant value"
  | constantName name => s!"constant: Invalid constant name `{name}`"
  | constantTaken name line => s!"constant: Redefinition of constant `{name}` from line {line}"
  | constantValue cause => s!"constant: {cause.message}"
  | trailingTokens name => s!"constant: Ignoring trailing tokens after `{name}`"
  | secondMain => "Main was already declared"
  | methodBeforeMain => "Main must be declared before other methods"
  | methodName name => s!"Invalid method name `{name}`"
  | parameterName name => s!"Invalid parameter name `{name}`"
  | parameterTwice name => s!"Duplicate parameter `{name}`"
  | idleWide method => s!"[.{method}] WIDE prefix at the end of the method has no effect"
  | lateVariables => "Unexpected .var block"
  | variableName name => s!"Invalid variable name `{name}`"
  | variableTwice name slot =>
    s!"Duplicate variable `{name}`, references resolve to slot {slot}"
  | labelName name => s!"Invalid label name `{name}`"
  | labelTaken name line => s!"Duplicate label `{name}`, first defined on line {line}"
  | unknownDirective name => s!"Unknown macro `{name}`"
  | printNothing => "#print called without arguments"
  | printString cause => s!"#print: {cause.message}"
  | printUnsupported => "#print needs BIPUSH and OUT in the instruction set"
  | printEmpty => "#print with an empty string emits nothing"
  | unknownInstruction text => s!"Undefined instruction `{text}`"
  | argumentCount operation expected found =>
    s!"Mismatched argument count for `{operation}`, expected {expected}, got {found}"
  | argument cause => s!"argument: {cause.message}"
  | cannotWiden operation =>
    s!"Cannot widen `{operation}`: no WIDE operation in the instruction set"
  | noMain => "linker: No main found"
  | methodTaken name line =>
    s!"linker: Method constant name conflict. `{name}` already defined on line {line}"
  | jumpTooFar method label distance =>
    s!"[.{method}] Jump to `{label}` is out of range ({distance} bytes)"
  | undefinedLabel method label => s!"[.{method}] Undefined label `{label}`"
  | undefinedMethod method name => s!"[.{method}] Undefined method `{name}`"

def diagnostic (p : Problem) (file : String) (line : Nat) : Diagnostic :=
  ⟨file, line, p.severity, p.message⟩

def event (p : Problem) (file : String) (line : Nat) : Event := .diagnostic (p.diagnostic file line)

end Problem

end IjvmAsm
