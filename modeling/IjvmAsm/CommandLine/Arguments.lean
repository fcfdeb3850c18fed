import IjvmAsm.Text.Split

/-!
# Arguments

The grammar of the arguments of a tool. An option has a long name behind two hyphens and may have
a letter behind one; letters may stand together. The value of an option is the next argument, or
is attached to the option, with or without an equals sign behind a letter and with one behind a
long name. Two hyphens alone end the options. What remains is the operand, and there is one.

Arguments are read from the left, and the first that is wrong, or that asks for the help or the
version, ends the reading.
-/

namespace IjvmAsm.CommandLine

inductive Kind
  | help
  | version
  /-- Given at most once. -/
  | flag
  | count
  /-- Given at most once, with a value. -/
  | value (emptyAllowed : Bool)
  deriving DecidableEq

structure OptionSpec where
  long : String
  letter : Option Char
  kind : Kind
  deriving DecidableEq

namespace OptionSpec

def takesValue (spec : OptionSpec) : Bool :=
  match spec.kind with
  | .value _ => true
  | _ => false

end OptionSpec

inductive UsageError
  | unknown (argument : String)
  | missingValue (option : String)
  | emptyValue (name : String)
  | unneededValue (option : String)
  | repeated (option : String)
  | surplus (argument : String)
  | missingOperand
  deriving DecidableEq

def UsageError.message : UsageError → String
  | unknown argument | surplus argument => s!"unexpected argument '{argument}' found"
  | missingValue option => s!"a value is required for '--{option}' but none was supplied"
  | emptyValue name => s!"a value is required for '{name}' but none was supplied"
  | unneededValue option => s!"unexpected value for '--{option}' found; no more were expected"
  | repeated option => s!"the argument '--{option}' cannot be used multiple times"
  | missingOperand => "the following required arguments were not provided"

inductive Stop
  | help
  | version
  | refused (error : UsageError)
  deriving DecidableEq

structure Given where
  operand : Option String := none
  flags : List String := []
  count : Nat := 0
  values : List (String × String) := []
  deriving DecidableEq

namespace Given

def has (g : Given) (option : String) : Bool := g.flags.contains option

def value? (g : Given) (option : String) : Option String := g.values.lookup option

def mark (g : Given) (spec : OptionSpec) : Except Stop Given :=
  match spec.kind with
  | .help => .error .help
  | .version => .error .version
  | .count => .ok { g with count := g.count + 1 }
  | .flag =>
    if g.has spec.long then .error (.refused (.repeated spec.long))
    else .ok { g with flags := spec.long :: g.flags }
  | .value _ => .error (.refused (.missingValue spec.long))

def set (g : Given) (spec : OptionSpec) (value : String) : Except Stop Given :=
  if (g.value? spec.long).isSome then .error (.refused (.repeated spec.long))
  else if value.isEmpty ∧ spec.kind = .value false then .error (.refused (.emptyValue spec.long))
  else .ok { g with values := (spec.long, value) :: g.values }

def place (g : Given) (argument : String) : Except Stop Given :=
  if g.operand.isSome then .error (.refused (.surplus argument))
  else if argument.isEmpty then .error (.refused (.emptyValue argument))
  else .ok { g with operand := some argument }

/-- An option by its long name, `text` being what stands behind the hyphens. If the value is still
to come, the option is given back. -/
def readLong (specs : List OptionSpec) (g : Given) (text : List Char) :
    Except Stop (Given × Option OptionSpec) :=
  let (name, attached) := match Text.cutAt (· == '=') text with
    | some (name, value) => (String.ofList name, some (String.ofList value))
    | none => (String.ofList text, none)
  match specs.find? fun spec => spec.long == name, attached with
  | none, _ => .error (.refused (.unknown ("--" ++ name)))
  | some spec, some value =>
    if spec.takesValue then (g.set spec value).map (·, none)
    else .error (.refused (.unneededValue spec.long))
  | some spec, none =>
    if spec.takesValue then .ok (g, some spec) else (g.mark spec).map (·, none)

/-- Options by their letters. If the last wants a value that is still to come, it is given back. -/
def readLetters (specs : List OptionSpec) (g : Given) :
    List Char → Except Stop (Given × Option OptionSpec)
  | [] => .ok (g, none)
  | c :: rest =>
    match specs.find? fun spec => spec.letter == some c with
    | none => .error (.refused (.unknown ("-" ++ String.singleton c)))
    | some spec =>
      if spec.takesValue then
        match rest with
        | [] => .ok (g, some spec)
        | '=' :: value => (g.set spec (String.ofList value)).map (·, none)
        | value => (g.set spec (String.ofList value)).map (·, none)
      else
        match g.mark spec with
        | .error stop => .error stop
        | .ok g => readLetters specs g rest

def readOperands (g : Given) : List String → Except Stop Given
  | [] => .ok g
  | argument :: rest =>
    match g.place argument with
    | .error stop => .error stop
    | .ok g => readOperands g rest

inductive Shape
  | endOfOptions
  | long (text : List Char)
  | letters (text : List Char)
  | plain

def Shape.of (argument : String) : Shape :=
  match argument.toList with
  | ['-', '-'] => .endOfOptions
  | '-' :: '-' :: text => .long text
  | ['-'] => .plain
  | '-' :: text => .letters text
  | _ => .plain

/-- Reads arguments; `open?` is the option whose value comes next. -/
def read (specs : List OptionSpec) (open? : Option OptionSpec) (g : Given) :
    List String → Except Stop Given
  | [] =>
    match open? with
    | none => .ok g
    | some spec => .error (.refused (.missingValue spec.long))
  | argument :: rest =>
    match open?, Shape.of argument with
    | some spec, .plain =>
      match g.set spec argument with
      | .error stop => .error stop
      | .ok g => read specs none g rest
    | some spec, _ => .error (.refused (.missingValue spec.long))
    | none, .endOfOptions => readOperands g rest
    | none, .long text =>
      match readLong specs g text with
      | .error stop => .error stop
      | .ok (g, open?) => read specs open? g rest
    | none, .letters text =>
      match readLetters specs g text with
      | .error stop => .error stop
      | .ok (g, open?) => read specs open? g rest
    | none, .plain =>
      match g.place argument with
      | .error stop => .error stop
      | .ok g => read specs none g rest

end Given

def readArguments (specs : List OptionSpec) (arguments : List String) :
    Except Stop (String × Given) :=
  match Given.read specs none {} arguments with
  | .error stop => .error stop
  | .ok g =>
    match g.operand with
    | none => .error (.refused .missingOperand)
    | some operand => .ok (operand, g)

end IjvmAsm.CommandLine
