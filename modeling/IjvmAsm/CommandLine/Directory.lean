import IjvmAsm.Bytes
import IjvmAsm.Text.Split

/-!
# Files by their paths

What a path leads to, seen from a working directory. Every step but the last has to lead to a
directory; a dot stays there, two dots lead to the directory around, and above the working
directory nothing is known but the directories on the way to it.
-/

namespace IjvmAsm.CommandLine

inductive FileError
  | notFound
  | notADirectory
  | isADirectory
  | other (text : String)
  deriving DecidableEq

def FileError.message : FileError → String
  | notFound => "No such file or directory (os error 2)"
  | notADirectory => "Not a directory (os error 20)"
  | isADirectory => "Is a directory (os error 21)"
  | other text => text

inductive Node
  | file (content : Bytes)
  | directory
  deriving DecidableEq

namespace Path

def steps (path : String) : List String :=
  ((Text.splitAt (· == '/') path.toList).filter fun step => !step.isEmpty).map String.ofList

/-- The names in a path; a dot is none. -/
def names (path : String) : List String := (steps path).filter (· != ".")

/-- The last name in a path, unless it leads upwards. -/
def fileName? (path : String) : Option String :=
  match (names path).getLast? with
  | some ".." => none
  | last => last

def shownName (path : String) : String := (fileName? path).getD path

def isAbsolute (path : String) : Bool := path.toList.head? == some '/'

def namesDirectory (path : String) : Bool := path.toList.getLast? == some '/'

end Path

/-- The files in and around a working directory, each with its names from there on. -/
structure Directory where
  files : List (List String × Bytes)
  deriving DecidableEq

namespace Directory

/-- The root, as a name that no path spells. -/
def root : String := "/"

def isUpward (location : List String) : Bool := location.all (· == "..") || location == [root]

def at? (d : Directory) (location : List String) : Option Node :=
  match d.files.lookup location with
  | some content => some (.file content)
  | none =>
    if isUpward location || d.files.any (fun (names, _) => location.isPrefixOf names) then
      some .directory
    else none

def above (location : List String) : List String :=
  if location == [root] then location
  else if isUpward location then ".." :: location
  else location.dropLast

def next (location : List String) (step : String) : List String :=
  if step == "." then location
  else if step == ".." then above location
  else location ++ [step]

/-- The location that steps lead to. Each has to be taken from a directory. -/
def walk (d : Directory) (location : List String) : List String → Except FileError (List String)
  | [] => .ok location
  | step :: rest =>
    match d.at? location with
    | none => .error .notFound
    | some (.file _) => .error .notADirectory
    | some .directory => d.walk (next location step) rest

def locate (d : Directory) (path : String) : Except FileError (List String) :=
  if path.isEmpty then .error .notFound
  else d.walk (if Path.isAbsolute path then [root] else []) (Path.steps path)

def read (d : Directory) (path : String) : Except FileError Node := do
  let location ← d.locate path
  match d.at? location with
  | none => throw .notFound
  | some (.file content) =>
    if Path.namesDirectory path then throw .notADirectory else return .file content
  | some .directory => return .directory

def put (d : Directory) (location : List String) (content : Bytes) : Directory :=
  ⟨(location, content) :: d.files.filter fun (names, _) => names != location⟩

def write (d : Directory) (path : String) (content : Bytes) : Except FileError Directory := do
  let location ← d.locate path
  if d.at? location = some .directory ∨ Path.namesDirectory path then throw .isADirectory
  return d.put location content

end Directory

end IjvmAsm.CommandLine
