import IjvmAsm.Literal

/-!
# Quoted strings

A string is written between double quotes, with escapes, or raw between backticks, and stands for
a sequence of bytes.
-/

namespace IjvmAsm.Source

inductive QuoteError
  | malformedRaw (text : String)
  | unquoted (text : String)
  | unterminated (text : String)
  | shortEscape (digits : String)
  | badEscape (escape : String)
  | notAByte (c : Char)
  | trailing (rest : String)
  deriving DecidableEq

def QuoteError.message : QuoteError → String
  | malformedRaw text => s!"Malformed raw string {text}"
  | unquoted text => s!"Expected a quoted string, got {text}"
  | unterminated text => s!"Unterminated string {text}"
  | shortEscape digits => s!"Incomplete escape sequence `\\x{digits}`"
  | badEscape escape => s!"Invalid escape sequence `\\{escape}`"
  | notAByte c => s!"Character `{c}` does not fit in a byte"
  | trailing rest => s!"Unexpected characters after string: `{rest}`"

namespace Quoted

def asciiByte (c : Char) : Except QuoteError UInt8 :=
  if c.toNat < 128 then .ok (UInt8.ofNat c.toNat) else .error (.notAByte c)

def escape? : Char → Option UInt8
  | 'n' => some 0x0A
  | 't' => some 0x09
  | 'r' => some 0x0D
  | '0' => some 0x00
  | '\\' => some 0x5C
  | '"' => some 0x22
  | '\'' => some 0x27
  | _ => none

/-- What is wrong with the characters of a numeric escape: there are not two of one byte each, or
they are no number. -/
def numericFault (digits : List Char) : QuoteError :=
  let text := String.ofList digits
  if text.utf8ByteSize = 2 then .badEscape ("x" ++ text) else .shortEscape text

/-- The byte of a numeric escape: two hexadecimal digits, or one behind a plus sign. -/
def numericByte (c d : Char) : Except QuoteError UInt8 :=
  let high := if c = '+' then some 0 else Literal.digit? 16 c
  match high, Literal.digit? 16 d with
  | some high, some low => .ok (UInt8.ofNat (high * 16 + low))
  | _, _ => .error (numericFault [c, d])

/-- The bytes up to the closing quote and the characters behind it. `whole` is the text that is
reported when there is no closing quote. -/
def items (whole : String) : List Char → Except QuoteError (List UInt8 × List Char)
  | [] => .error (.unterminated whole)
  | '"' :: rest => .ok ([], rest)
  | '\\' :: 'x' :: c :: d :: rest => do
    let b ← numericByte c d
    let (bytes, after) ← items whole rest
    return (b :: bytes, after)
  | '\\' :: 'x' :: digits => .error (numericFault digits)
  | '\\' :: c :: rest =>
    match escape? c with
    | none => .error (.badEscape (String.singleton c))
    | some b => do
      let (bytes, after) ← items whole rest
      return (b :: bytes, after)
  | ['\\'] => .error (.unterminated whole)
  | c :: rest => do
    let b ← asciiByte c
    let (bytes, after) ← items whole rest
    return (b :: bytes, after)

def raw (whole : String) (body : List Char) : Except QuoteError (List UInt8) :=
  if body.getLast? = some '`' ∧ '`' ∉ body.dropLast then body.dropLast.mapM asciiByte
  else .error (.malformedRaw whole)

def decode (text : String) : Except QuoteError (List UInt8) :=
  match text.toList with
  | '`' :: body => raw text body
  | '"' :: body =>
    match items text body with
    | .error e => .error e
    | .ok (bytes, rest) =>
      if rest.isEmpty then .ok bytes else .error (.trailing (String.ofList rest))
  | _ => .error (.unquoted text)

end Quoted

end IjvmAsm.Source
