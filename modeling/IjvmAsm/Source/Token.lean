import IjvmAsm.Text.Split

/-!
# Names and tokens

Variables, parameters, constants, labels and methods are named by identifiers: a letter, then
letters, digits, underscores and hyphens, all of them ASCII.

A token begins at a character that is not blank. One that begins with a single quote runs through
the next single quote, or to the end of the text if there is none, and so may hold blanks; any
other runs up to the next blank.
-/

namespace IjvmAsm.Source

def isNameChar (c : Char) : Bool := c.isAlphanum || c == '_' || c == '-'

def isIdentifier (name : String) : Bool :=
  match name.toList with
  | [] => false
  | c :: rest => c.isAlpha && rest.all isNameChar

/-- Where a scan stands: between tokens, or in one whose characters so far are held last first. -/
inductive Scan
  | between
  | bare (held : List Char)
  | quoted (held : List Char)

def Scan.run : Scan → List Char → List (List Char)
  | between, [] => []
  | bare held, [] | quoted held, [] => [held.reverse]
  | between, c :: rest =>
    if Text.isBlank c then between.run rest
    else if c = '\'' then (quoted [c]).run rest
    else (bare [c]).run rest
  | bare held, c :: rest =>
    if Text.isBlank c then held.reverse :: between.run rest
    else (bare (c :: held)).run rest
  | quoted held, c :: rest =>
    if c = '\'' then (c :: held).reverse :: between.run rest
    else (quoted (c :: held)).run rest

namespace Scan

variable (held : List Char) (c : Char) (rest : List Char)

theorem run_between_cons : between.run (c :: rest) =
    if Text.isBlank c then between.run rest
    else if c = '\'' then (quoted [c]).run rest
    else (bare [c]).run rest := rfl

theorem run_bare_cons : (bare held).run (c :: rest) =
    if Text.isBlank c then held.reverse :: between.run rest
    else (bare (c :: held)).run rest := rfl

theorem run_quoted_cons : (quoted held).run (c :: rest) =
    if c = '\'' then (c :: held).reverse :: between.run rest
    else (quoted (c :: held)).run rest := rfl

end Scan

def tokens (cs : List Char) : List (List Char) := Scan.between.run cs

def tokensOf (text : String) : List String := (tokens text.toList).map String.ofList

end IjvmAsm.Source
