import IjvmAsm.Text.Split

/-!
# Method headers

A line that declares a method has the name of the method and its parameters, parted by commas,
between parentheses.
-/

namespace IjvmAsm.Source

structure MethodHeader where
  name : String
  parameters : List String
  deriving DecidableEq

inductive HeaderError
  | missingOpening
  | missingClosing
  | trailing (text : String)
  | missingName
  deriving DecidableEq

def HeaderError.message (e : HeaderError) : String :=
  "Invalid method declaration. " ++
    match e with
    | missingOpening => "Missing opening parenthesis"
    | missingClosing => "Missing closing parenthesis"
    | trailing text => s!"Characters remaining after parameter list: `{text}`"
    | missingName => "Missing method name"

def methodKeyword : String := ".method"

/-- What stands behind the keyword, on a line that declares a method. -/
def methodLine? (text : String) : Option String :=
  let keyword := methodKeyword.toList
  let cs := text.toList
  if keyword.isPrefixOf cs then
    let rest := cs.drop keyword.length
    if rest.head?.all Text.isBlank then some (String.ofList (Text.trimBlanks rest)) else none
  else none

/-- The parameters between the parentheses; none if there is nothing but blanks. -/
def parameterList (cs : List Char) : List String :=
  if (Text.trimBlanks cs).isEmpty then []
  else (Text.splitAt (· == ',') cs).map fun piece => String.ofList (Text.trimBlanks piece)

def MethodHeader.parse (declaration : String) : Except HeaderError MethodHeader :=
  match Text.cutAt (· == '(') declaration.toList with
  | none => .error .missingOpening
  | some (name, rest) =>
    match Text.cutAt (· == ')') rest with
    | none => .error .missingClosing
    | some (parameters, trailing) =>
      let trailing := Text.trimBlanks trailing
      let name := Text.trimBlanks name
      if !trailing.isEmpty then .error (.trailing (String.ofList trailing))
      else if name.isEmpty then .error .missingName
      else .ok ⟨String.ofList name, parameterList parameters⟩

end IjvmAsm.Source
