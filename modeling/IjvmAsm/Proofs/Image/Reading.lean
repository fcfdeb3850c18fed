import IjvmAsm.Image.Format
import IjvmAsm.Proofs.Program.Encoding
import IjvmAsm.Proofs.Text.Written

/-!
# Reading what was written

Each part of an image is read back from the bytes that are written for it, and the bytes behind it
are left: numbers, runs, constants, symbols, blocks of symbols, and the image as a whole.
-/

namespace IjvmAsm

namespace Image

variable {rest : Bytes}

theorem number_ofNat (n : Nat) (rest : Bytes) :
    number (Bytes.ofNat 4 n ++ rest) = .ok (n % 2 ^ 32, rest) := by
  rw [number, Bytes.natFirst?_append]

theorem number_ofNat_of_lt {n : Nat} (h : n < 2 ^ 32) (rest : Bytes) :
    number (Bytes.ofNat 4 n ++ rest) = .ok (n, rest) := by
  rw [number_ofNat, Nat.mod_eq_of_lt h]

theorem run_append {length : Nat} {front : Bytes} (h : front.length = length) (back : Bytes) :
    run length (front ++ back) = .ok (front, back) := by
  rw [run, Bytes.take?_append h]

theorem constantsOf_ofNat (n : Nat) (rest : Bytes) :
    constantsOf (Bytes.ofNat 4 n ++ rest) =
      (UInt32.ofNat (n % 2 ^ 32)).toInt32 :: constantsOf rest := by
  have hvalue : Bytes.toNat (Bytes.ofNat 4 n) = n % 2 ^ 32 := Bytes.toNat_ofNat 4 n
  rw [← hvalue]
  simp only [Bytes.ofNat, List.nil_append, List.cons_append, constantsOf]

def poolBytes (constants : List Int32) : Bytes :=
  constants.flatMap fun c => Bytes.ofNat 4 c.toUInt32.toNat

theorem constantsOf_poolBytes (constants : List Int32) :
    constantsOf (poolBytes constants) = constants := by
  induction constants with
  | nil => rfl
  | cons c rest ih =>
    rw [poolBytes, List.flatMap_cons, constantsOf_ofNat, ← poolBytes, ih,
      Nat.mod_eq_of_lt c.toUInt32.toNat_lt, UInt32.ofNat_toNat, Int32.toInt32_toUInt32]

theorem length_poolBytes (constants : List Int32) :
    (poolBytes constants).length = constants.length * 4 := by
  induction constants with
  | nil => rfl
  | cons c rest ih =>
    rw [poolBytes, List.flatMap_cons, List.length_append, ← poolBytes, ih, Bytes.length_ofNat,
      List.length_cons]
    omega

theorem constantBytes_eq (cs : List Constant) :
    Program.constantBytes cs = poolBytes (cs.map Constant.value) := by
  rw [Program.constantBytes, poolBytes, List.flatMap_map]

/-- A symbol is read back if no zero byte in its name ends it too early. -/
theorem symbol_encode {name : String} (hname : '\x00' ∉ name.toList) (offset : Nat) (rest : Bytes) :
    symbol (Symbol.encode offset name ++ rest) = .ok (⟨UInt32.ofNat offset, name⟩, rest) := by
  have hcut : Text.cutAt (· == 0) (Utf8.encode name ++ 0 :: rest) =
      some (Utf8.encode name, rest) :=
    Text.cutAt_first (Utf8.notMem_encode (by decide) hname)
  have hoffset : UInt32.ofNat (offset % 2 ^ 32) = UInt32.ofNat offset := UInt32.ofNat_mod_size
  rw [Symbol.encode, List.append_assoc, List.append_assoc, symbol, number_ofNat]
  simp only [bind, Except.bind, List.singleton_append, hcut, hoffset, Utf8.lossyText_encode, pure,
    Except.pure]

theorem symbolList_of_symbol {bytes : Bytes} {s : Symbol} (h : symbol bytes = .ok (s, rest)) :
    symbolList bytes = (symbolList rest).map (s :: ·) := by
  cases bytes with
  | nil => cases h
  | cons b bytes =>
    rw [symbolList]
    split
    next e he => rw [h] at he; cases he
    next s' rest' hs => rw [h] at hs; cases hs; rfl

def symbolBytes (symbols : List (Nat × String)) : Bytes :=
  symbols.flatMap fun x => Symbol.encode x.1 x.2

theorem symbolList_symbolBytes {symbols : List (Nat × String)}
    (h : ∀ x ∈ symbols, '\x00' ∉ x.2.toList) :
    symbolList (symbolBytes symbols) =
      .ok (symbols.map fun x => ⟨UInt32.ofNat x.1, x.2⟩) := by
  induction symbols with
  | nil => rw [symbolBytes, List.flatMap_nil, symbolList]; rfl
  | cons x rest ih =>
    obtain ⟨hx, hrest⟩ := List.forall_mem_cons.1 h
    rw [symbolBytes, List.flatMap_cons, ← symbolBytes,
      symbolList_of_symbol (symbol_encode hx x.1 _), ih hrest]
    rfl

theorem block_blockBytes {marker : Nat} {payload : Bytes} {symbols : List Symbol}
    (hmarker : marker < 2 ^ 32) (hlength : payload.length < 2 ^ 32)
    (hsymbols : symbolList payload = .ok symbols) (rest : Bytes) :
    block marker (Program.blockBytes marker payload ++ rest) = .ok (symbols, rest) := by
  rw [Program.blockBytes, List.append_assoc, List.append_assoc, block, number_ofNat_of_lt hmarker]
  simp only [bind, Except.bind, ne_eq, not_true_eq_false, ↓reduceIte, number_ofNat_of_lt hlength,
    run_append rfl, hsymbols, pure, Except.pure]

def framed (poolOffset : UInt32) (constants : List Int32) (dataBase : UInt32)
    (text trailer : Bytes) : Bytes :=
  Bytes.ofNat 4 magic ++ (Bytes.ofNat 4 poolOffset.toNat ++
    (Bytes.ofNat 4 (constants.length * 4) ++ (poolBytes constants ++
      (Bytes.ofNat 4 dataBase.toNat ++ (Bytes.ofNat 4 text.length ++ (text ++ trailer))))))

/-- An image is read off its parts if the lengths among them fit their four bytes. -/
theorem parse_framed {poolOffset : UInt32} {constants : List Int32} {dataBase : UInt32}
    {text trailer : Bytes} {symbols : Option Symbols} (hpool : constants.length * 4 < 2 ^ 32)
    (htext : text.length < 2 ^ 32) (hsymbols : symbolsOf trailer = .ok symbols) :
    parse (framed poolOffset constants dataBase text trailer) =
      .ok ⟨poolOffset, constants, dataBase, text, symbols⟩ := by
  have hmagic : magic < 2 ^ 32 := by decide
  have hmultiple : constants.length * 4 % 4 = 0 := Nat.mul_mod_left _ _
  simp only [framed, parse, number_ofNat_of_lt hmagic, number_ofNat_of_lt poolOffset.toNat_lt,
    number_ofNat_of_lt hpool, hmultiple, run_append (length_poolBytes constants),
    number_ofNat_of_lt dataBase.toNat_lt, number_ofNat_of_lt htext, run_append rfl, hsymbols,
    constantsOf_poolBytes, bind, Except.bind, pure, Except.pure, ne_eq, not_true_eq_false,
    ↓reduceIte, UInt32.ofNat_toNat]

variable {p : Program}

/-- An image is read back if the three counts in it fit their four bytes. -/
theorem parse_image (hconstants : p.constants.size * 4 < 2 ^ 32) (hsize : p.size < 2 ^ 32)
    (htext : p.text.length = p.size) {trailer : Bytes} {symbols : Option Symbols}
    (hsymbols : symbolsOf trailer = .ok symbols) :
    parse (p.head ++ (p.text ++ trailer)) =
      .ok ⟨0x10000, p.constants.toList.map Constant.value, 0, p.text, symbols⟩ := by
  have hcount : (p.constants.toList.map Constant.value).length = p.constants.size := by
    rw [List.length_map, Array.length_toList]
  have hframed : p.head ++ (p.text ++ trailer) =
      framed 0x10000 (p.constants.toList.map Constant.value) 0 p.text trailer := by
    simp only [Program.head, framed, hcount, htext, constantBytes_eq, List.append_assoc]
    rfl
  rw [hframed]
  exact parse_framed (by rwa [hcount]) (by rwa [htext]) hsymbols

end Image

end IjvmAsm
