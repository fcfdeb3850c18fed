import IjvmAsm.Literal

/-!
# JSON documents

Documents whose objects keep the order of their fields, and their printing over several lines
with an indentation of two blanks.
-/

namespace IjvmAsm

inductive Document
  | null
  | bool (b : Bool)
  | number (n : Int)
  | string (text : String)
  | array (items : List Document)
  | object (fields : List (String × Document))

namespace Document

/-- A character inside quotes. Control characters have short escapes or four hexadecimal digits. -/
def escape (c : Char) : String :=
  match c with
  | '"' => "\\\""
  | '\\' => "\\\\"
  | '\n' => "\\n"
  | '\r' => "\\r"
  | '\t' => "\\t"
  | '\x08' => "\\b"
  | '\x0c' => "\\f"
  | c =>
    if c.toNat < 0x20 then "\\u" ++ (Numeral.hex 4 c.toNat).toLower else String.singleton c

def quote (text : String) : String :=
  "\"" ++ String.join (text.toList.map escape) ++ "\""

def newLine (depth : Nat) : String := "\n" ++ String.ofList (List.replicate (2 * depth) ' ')

def bracket (opening closing : String) (depth : Nat) (items : List String) : String :=
  if items.isEmpty then opening ++ closing
  else
    opening ++ newLine (depth + 1) ++ ("," ++ newLine (depth + 1)).intercalate items ++
      newLine depth ++ closing

mutual

def prettyAt (depth : Nat) : Document → String
  | null => "null"
  | bool b => if b then "true" else "false"
  | number n => toString n
  | string text => quote text
  | array items => bracket "[" "]" depth (prettyItems (depth + 1) items)
  | object fields => bracket "\x7b" "\x7d" depth (prettyFields (depth + 1) fields)

def prettyItems (depth : Nat) : List Document → List String
  | [] => []
  | item :: rest => prettyAt depth item :: prettyItems depth rest

def prettyFields (depth : Nat) : List (String × Document) → List String
  | [] => []
  | (name, value) :: rest =>
    (quote name ++ ": " ++ prettyAt depth value) :: prettyFields depth rest

end

def pretty (document : Document) : String := prettyAt 0 document

end Document

end IjvmAsm
