import IjvmAsm.Image.Basic
import IjvmAsm.Text.Split
import IjvmAsm.Text.Utf8

/-!
# The image format

Numbers of four bytes, highest first: the magic number, the pool offset, the size of the pool in
bytes and its constants, the data base, the size of the text and the text. Nothing may follow, or
two blocks of symbols, for methods and for labels: a marker, the size of what follows, and each
symbol as an offset and a name that a zero byte ends.
-/

namespace IjvmAsm.Image

def number (bytes : Bytes) : Except ImageError (Nat × Bytes) :=
  match bytes.natFirst? 4 with
  | some result => .ok result
  | none => .error .shortNumber

def run (length : Nat) (bytes : Bytes) : Except ImageError (Bytes × Bytes) :=
  match bytes.take? length with
  | some result => .ok result
  | none => .error (.shortRun length bytes.length)

def constantsOf : Bytes → List Int32
  | a :: b :: c :: d :: rest =>
    (UInt32.ofNat (Bytes.toNat [a, b, c, d])).toInt32 :: constantsOf rest
  | _ => []

def symbol (bytes : Bytes) : Except ImageError (Symbol × Bytes) := do
  let (offset, bytes) ← number bytes
  match Text.cutAt (· == 0) bytes with
  | none => throw .unterminatedName
  | some (name, rest) => return (⟨UInt32.ofNat offset, Utf8.lossyText name⟩, rest)

theorem length_of_number {bytes rest : Bytes} {n : Nat} (h : number bytes = .ok (n, rest)) :
    bytes.length = 4 + rest.length := by
  unfold number at h
  split at h
  next result heq =>
    cases h
    exact Bytes.length_of_natFirst? heq
  next => cases h

theorem length_of_symbol {bytes rest : Bytes} {s : Symbol} (h : symbol bytes = .ok (s, rest)) :
    rest.length < bytes.length := by
  unfold symbol at h
  cases hn : number bytes with
  | error e => rw [hn] at h; cases h
  | ok result =>
    obtain ⟨n, back⟩ := result
    rw [hn] at h
    have hlen := length_of_number hn
    cases hc : Text.cutAt (· == 0) back with
    | none => simp only [hc, bind, Except.bind] at h; cases h
    | some parts =>
      obtain ⟨name, after⟩ := parts
      simp only [hc, bind, Except.bind, pure, Except.pure, Except.ok.injEq, Prod.mk.injEq] at h
      obtain ⟨_, rfl⟩ := h
      have := Text.length_after_cutAt hc
      omega

def symbolList (bytes : Bytes) : Except ImageError (List Symbol) :=
  match bytes with
  | [] => .ok []
  | b :: bytes =>
    match _h : symbol (b :: bytes) with
    | .error e => .error e
    | .ok (s, rest) => (symbolList rest).map (s :: ·)
termination_by bytes.length
decreasing_by exact length_of_symbol _h

def block (marker : Nat) (bytes : Bytes) : Except ImageError (List Symbol × Bytes) := do
  let (found, bytes) ← number bytes
  if found ≠ marker then throw (.marker marker found)
  let (length, bytes) ← number bytes
  let (payload, rest) ← run length bytes
  let symbols ← symbolList payload
  return (symbols, rest)

def symbolsOf (bytes : Bytes) : Except ImageError (Option Symbols) :=
  if bytes.isEmpty then .ok none
  else do
    let (methods, bytes) ← block methodMarker bytes
    let (labels, bytes) ← block labelMarker bytes
    if !bytes.isEmpty then throw (.trailing bytes.length)
    return some ⟨methods, labels⟩

def parse (bytes : Bytes) : Except ImageError Image := do
  let (found, bytes) ← number bytes
  if found ≠ magic then throw (.magic found)
  let (poolOffset, bytes) ← number bytes
  let (poolSize, bytes) ← number bytes
  if poolSize % 4 ≠ 0 then throw (.poolSize poolSize)
  let (pool, bytes) ← run poolSize bytes
  let (dataBase, bytes) ← number bytes
  let (textSize, bytes) ← number bytes
  let (text, bytes) ← run textSize bytes
  let symbols ← symbolsOf bytes
  return ⟨UInt32.ofNat poolOffset, constantsOf pool, UInt32.ofNat dataBase, text, symbols⟩

end IjvmAsm.Image
