import IjvmAsm.Proofs.Image.Reading
import Mathlib.Data.List.Induction
import Mathlib.Tactic.SplitIfs

/-!
# The layout of images

Bytes are read as an image exactly if they are laid out as the format says, and then the image holds
what the layout holds, the names of symbols decoded. So an image is read back from the bytes that
are written for it, and bytes whose names are UTF-8 are the only ones for their image.
-/

namespace IjvmAsm

section Steps

variable {ε α β : Type} {b : β}

/-- A step and what follows it go through if both do. -/
theorem bind_eq_ok_iff {x : Except ε α} {f : α → Except ε β} :
    (x >>= f) = .ok b ↔ ∃ a, x = .ok a ∧ f a = .ok b := by
  cases x with
  | error e => exact iff_of_false nofun nofun
  | ok a =>
    constructor
    · intro h
      exact ⟨a, rfl, h⟩
    · rintro ⟨_, ⟨⟩, h⟩
      exact h

theorem guard_eq_ok_iff {c : Prop} [Decidable c] {e : ε} {f : α → Except ε β} {x : Except ε β} :
    (if c then throw e >>= f else x) = .ok b ↔ ¬ c ∧ x = .ok b := by
  split_ifs with h
  · exact iff_of_false nofun fun hc => hc.1 h
  · exact (and_iff_right h).symm

end Steps

namespace Image

/-- A symbol as it stands in a block. The bytes of its name need not be UTF-8. -/
structure RawSymbol where
  offset : UInt32
  name : Bytes
  /-- No zero byte ends the name early. -/
  unended : 0 ∉ name

namespace RawSymbol

def bytes (s : RawSymbol) : Bytes := Bytes.ofNat 4 s.offset.toNat ++ (s.name ++ [0])

def symbol (s : RawSymbol) : Symbol := ⟨s.offset, Utf8.lossyText s.name⟩

end RawSymbol

structure RawBlock where
  symbols : List RawSymbol
  fits : (symbols.flatMap RawSymbol.bytes).length < 2 ^ 32

namespace RawBlock

def bytes (marker : Nat) (b : RawBlock) : Bytes :=
  Program.blockBytes marker (b.symbols.flatMap RawSymbol.bytes)

def read (b : RawBlock) : List Symbol := b.symbols.map RawSymbol.symbol

end RawBlock

/-- An image as it stands in bytes. -/
structure Layout where
  poolOffset : UInt32
  constants : List Int32
  dataBase : UInt32
  text : Bytes
  /-- The symbols of methods and those of labels. -/
  blocks : Option (RawBlock × RawBlock)
  poolFits : constants.length * 4 < 2 ^ 32
  textFits : text.length < 2 ^ 32

def blockPair : Option (RawBlock × RawBlock) → Bytes
  | none => []
  | some (methods, labels) => methods.bytes methodMarker ++ labels.bytes labelMarker

def readPair (blocks : Option (RawBlock × RawBlock)) : Option Symbols :=
  blocks.map fun (methods, labels) => ⟨methods.read, labels.read⟩

namespace Layout

def bytes (l : Layout) : Bytes :=
  framed l.poolOffset l.constants l.dataBase l.text (blockPair l.blocks)

def image (l : Layout) : Image :=
  ⟨l.poolOffset, l.constants, l.dataBase, l.text, readPair l.blocks⟩

def rawSymbols (l : Layout) : List RawSymbol :=
  l.blocks.toList.flatMap fun blocks => blocks.1.symbols ++ blocks.2.symbols

end Layout

variable {bytes rest : Bytes}

theorem number_eq_ok_iff {n : Nat} :
    number bytes = .ok (n, rest) ↔ n < 2 ^ 32 ∧ bytes = Bytes.ofNat 4 n ++ rest := by
  constructor
  · intro h
    unfold number at h
    split at h
    next result hfirst =>
      cases h
      obtain ⟨⟨front, back⟩, htake, hvalue⟩ := Option.map_eq_some_iff.1 hfirst
      obtain ⟨rfl, hlength⟩ := Bytes.take?_eq_some htake
      cases hvalue
      have hlt := Bytes.toNat_lt front
      have hfront := Bytes.ofNat_toNat front
      rw [hlength] at hlt hfront
      exact ⟨hlt, by rw [hfront]⟩
    next => cases h
  · rintro ⟨hlt, rfl⟩
    exact number_ofNat_of_lt hlt rest

theorem run_eq_ok_iff {length : Nat} {front : Bytes} :
    run length bytes = .ok (front, rest) ↔ front.length = length ∧ bytes = front ++ rest := by
  constructor
  · intro h
    unfold run at h
    split at h
    next result htake =>
      cases h
      exact (Bytes.take?_eq_some htake).symm
    next => cases h
  · rintro ⟨hlength, rfl⟩
    exact run_append hlength rest

theorem toNat_ofNat_four {bytes : Bytes} (h : bytes.length = 4) :
    (UInt32.ofNat (Bytes.toNat bytes)).toNat = Bytes.toNat bytes := by
  have hlt := Bytes.toNat_lt bytes
  rw [h] at hlt
  exact UInt32.toNat_ofNat_of_lt' hlt

/-- Whole constants are what is written for what they are read as. -/
theorem poolBytes_constantsOf {pool : Bytes} (h : pool.length % 4 = 0) :
    poolBytes (constantsOf pool) = pool := by
  fun_induction constantsOf pool with
  | case1 a b c d rest ih =>
    have hrest : rest.length % 4 = 0 := by
      simp only [List.length_cons] at h
      omega
    have hfront : Bytes.ofNat 4 (Bytes.toNat [a, b, c, d]) = [a, b, c, d] :=
      Bytes.ofNat_toNat [a, b, c, d]
    rw [poolBytes, List.flatMap_cons, ← poolBytes, ih hrest, UInt32.toUInt32_toInt32,
      toNat_ofNat_four rfl, hfront]
    rfl
  | case2 pool hshort =>
    rcases pool with _ | ⟨a, _ | ⟨b, _ | ⟨c, _ | ⟨d, rest⟩⟩⟩⟩
    · rfl
    · cases h
    · cases h
    · cases h
    · exact absurd rfl (hshort a b c d rest)

theorem symbol_bytes (raw : RawSymbol) (rest : Bytes) :
    symbol (raw.bytes ++ rest) = .ok (raw.symbol, rest) := by
  have hcut : Text.cutAt (· == 0) (raw.name ++ 0 :: rest) = some (raw.name, rest) :=
    Text.cutAt_first raw.unended
  have hnumber := number_ofNat_of_lt raw.offset.toNat_lt (raw.name ++ 0 :: rest)
  simp only [symbol, RawSymbol.bytes, List.append_assoc, List.singleton_append, hnumber, bind,
    Except.bind, hcut, pure, Except.pure, RawSymbol.symbol, UInt32.ofNat_toNat]

theorem symbol_eq_ok_iff {s : Symbol} :
    symbol bytes = .ok (s, rest) ↔
      ∃ raw : RawSymbol, raw.symbol = s ∧ bytes = raw.bytes ++ rest := by
  constructor
  · intro h
    unfold symbol at h
    obtain ⟨⟨offset, back⟩, hoffset, hname⟩ := bind_eq_ok_iff.1 h
    obtain ⟨hlt, rfl⟩ := number_eq_ok_iff.1 hoffset
    dsimp only at hname
    cases hcut : Text.cutAt (· == 0) back with
    | none =>
      rw [hcut] at hname
      cases hname
    | some parts =>
      obtain ⟨name, after⟩ := parts
      rw [hcut] at hname
      cases hname
      obtain ⟨⟨b, hb, rfl⟩, hbefore⟩ := Text.cutAt_eq_some hcut
      obtain rfl := beq_iff_eq.1 hb
      have hunended : 0 ∉ name := fun hmem => Bool.noConfusion (hbefore 0 hmem)
      refine ⟨⟨UInt32.ofNat offset, name, hunended⟩, rfl, ?_⟩
      rw [RawSymbol.bytes, UInt32.toNat_ofNat_of_lt' hlt, List.append_assoc, List.append_assoc]
      rfl
  · rintro ⟨raw, rfl, rfl⟩
    exact symbol_bytes raw rest

theorem symbolList_flatMap (raws : List RawSymbol) :
    symbolList (raws.flatMap RawSymbol.bytes) = .ok (raws.map RawSymbol.symbol) := by
  induction raws with
  | nil => rw [List.flatMap_nil, symbolList]; rfl
  | cons raw rest ih =>
    rw [List.flatMap_cons, symbolList_of_symbol (symbol_bytes raw _), ih]
    rfl

theorem exists_of_symbolList {symbols : List Symbol} (h : symbolList bytes = .ok symbols) :
    ∃ raws : List RawSymbol, raws.map RawSymbol.symbol = symbols ∧
      bytes = raws.flatMap RawSymbol.bytes := by
  fun_induction symbolList bytes generalizing symbols with
  | case1 =>
    cases h
    exact ⟨[], rfl, rfl⟩
  | case2 b bytes e he => cases h
  | case3 b bytes s rest hsymbol ih =>
    obtain ⟨raw, rfl, hraw⟩ := symbol_eq_ok_iff.1 hsymbol
    cases hrest : symbolList rest with
    | error e =>
      rw [hrest] at h
      cases h
    | ok more =>
      rw [hrest] at h
      cases h
      obtain ⟨raws, rfl, hraws⟩ := ih hrest
      exact ⟨raw :: raws, rfl, by rw [hraw, List.flatMap_cons, ← hraws]⟩

theorem block_eq_ok_iff {marker : Nat} (hmarker : marker < 2 ^ 32) {symbols : List Symbol} :
    block marker bytes = .ok (symbols, rest) ↔
      ∃ b : RawBlock, b.read = symbols ∧ bytes = b.bytes marker ++ rest := by
  constructor
  · intro h
    simp only [block, bind_eq_ok_iff, Prod.exists, guard_eq_ok_iff, number_eq_ok_iff,
      run_eq_ok_iff, pure, Except.pure, Except.ok.injEq, Prod.mk.injEq] at h
    obtain ⟨found, _, ⟨_, rfl⟩, hfound, length, _, ⟨hlt, rfl⟩, payload, _, ⟨hlength, rfl⟩, _,
      hsymbols, rfl, rfl⟩ := h
    obtain rfl := not_ne_iff.1 hfound
    obtain ⟨raws, rfl, rfl⟩ := exists_of_symbolList hsymbols
    subst hlength
    refine ⟨⟨raws, hlt⟩, rfl, ?_⟩
    rw [RawBlock.bytes, Program.blockBytes, List.append_assoc, List.append_assoc]
  · rintro ⟨b, rfl, rfl⟩
    exact block_blockBytes hmarker b.fits (symbolList_flatMap b.symbols) rest

theorem markers_lt : methodMarker < 2 ^ 32 ∧ labelMarker < 2 ^ 32 := by decide

theorem isEmpty_block_append {marker : Nat} (b : RawBlock) (rest : Bytes) :
    (b.bytes marker ++ rest).isEmpty = false := rfl

theorem symbolsOf_blockPair (blocks : Option (RawBlock × RawBlock)) :
    symbolsOf (blockPair blocks) = .ok (readPair blocks) := by
  cases blocks with
  | none => rfl
  | some pair =>
    obtain ⟨methods, labels⟩ := pair
    have hmethods : block methodMarker (methods.bytes methodMarker ++ labels.bytes labelMarker) =
        .ok (methods.read, labels.bytes labelMarker) :=
      (block_eq_ok_iff markers_lt.1).2 ⟨methods, rfl, rfl⟩
    have hlabels : block labelMarker (labels.bytes labelMarker) = .ok (labels.read, []) :=
      (block_eq_ok_iff markers_lt.2).2 ⟨labels, rfl, (List.append_nil _).symm⟩
    simp only [symbolsOf, blockPair, isEmpty_block_append, Bool.false_eq_true, ↓reduceIte, bind,
      Except.bind, hmethods, hlabels, List.isEmpty_nil, Bool.not_true, pure, Except.pure]
    rfl

theorem symbolsOf_eq_ok_iff {symbols : Option Symbols} :
    symbolsOf bytes = .ok symbols ↔
      ∃ blocks, readPair blocks = symbols ∧ bytes = blockPair blocks := by
  constructor
  · intro h
    unfold symbolsOf at h
    split_ifs at h with hempty
    · cases h
      exact ⟨none, rfl, List.isEmpty_iff.1 hempty⟩
    · simp only [bind_eq_ok_iff, Prod.exists, guard_eq_ok_iff, block_eq_ok_iff markers_lt.1,
        block_eq_ok_iff markers_lt.2, pure, Except.pure, Except.ok.injEq] at h
      obtain ⟨_, _, ⟨methods, rfl, rfl⟩, _, back, ⟨labels, rfl, rfl⟩, hback, rfl⟩ := h
      rw [Bool.not_eq_true', Bool.not_eq_false, List.isEmpty_iff] at hback
      exact ⟨some (methods, labels), rfl, by rw [blockPair, hback, List.append_nil]⟩
  · rintro ⟨blocks, rfl, rfl⟩
    exact symbolsOf_blockPair blocks

theorem parse_layout (l : Layout) : parse l.bytes = .ok l.image :=
  parse_framed l.poolFits l.textFits (symbolsOf_blockPair l.blocks)

/-- Only what is laid out is an image. -/
theorem exists_layout_of_parse {image : Image} (h : parse bytes = .ok image) :
    ∃ l : Layout, l.bytes = bytes ∧ l.image = image := by
  simp only [parse, bind_eq_ok_iff, Prod.exists, guard_eq_ok_iff, number_eq_ok_iff, run_eq_ok_iff,
    symbolsOf_eq_ok_iff, pure, Except.pure, Except.ok.injEq] at h
  obtain ⟨found, _, ⟨_, rfl⟩, hfound, poolOffset, _, ⟨hoffset, rfl⟩, poolSize, _, ⟨hsize, rfl⟩,
    hmultiple, pool, _, ⟨hpool, rfl⟩, dataBase, _, ⟨hbase, rfl⟩, textSize, _, ⟨htext, rfl⟩, text, _,
    ⟨hlength, rfl⟩, symbols, ⟨blocks, rfl, rfl⟩, rfl⟩ := h
  obtain rfl := not_ne_iff.1 hfound
  have hpool' : poolBytes (constantsOf pool) = pool :=
    poolBytes_constantsOf (by rw [hpool]; exact not_ne_iff.1 hmultiple)
  have hcount : (constantsOf pool).length * 4 = poolSize := by
    rw [← length_poolBytes, hpool', hpool]
  refine ⟨⟨UInt32.ofNat poolOffset, constantsOf pool, UInt32.ofNat dataBase, text, blocks,
    hcount ▸ hsize, hlength ▸ htext⟩, ?_, rfl⟩
  simp only [Layout.bytes, framed, UInt32.toNat_ofNat_of_lt' hoffset,
    UInt32.toNat_ofNat_of_lt' hbase, hcount, hpool', hlength]

def symbolEncoding (s : Symbol) : Bytes := Symbol.encode s.offset.toNat s.name

def symbolsEncoding : Option Symbols → Bytes
  | none => []
  | some symbols =>
    Program.blockBytes methodMarker (symbols.methods.flatMap symbolEncoding) ++
      Program.blockBytes labelMarker (symbols.labels.flatMap symbolEncoding)

def encode (image : Image) : Bytes :=
  framed image.poolOffset image.constants image.dataBase image.text (symbolsEncoding image.symbols)

/-- The symbols of a block can be written: no name ends early, and their length fits. -/
structure Writable (symbols : List Symbol) : Prop where
  names : ∀ s ∈ symbols, '\x00' ∉ s.name.toList
  fits : (symbols.flatMap symbolEncoding).length < 2 ^ 32

structure Encodable (image : Image) : Prop where
  pool : image.constants.length * 4 < 2 ^ 32
  text : image.text.length < 2 ^ 32
  symbols : ∀ symbols ∈ image.symbols, Writable symbols.methods ∧ Writable symbols.labels

def RawSymbol.Readable (raw : RawSymbol) : Prop := (Utf8.text? raw.name).isSome = true

/-- Bytes laid out as an image in which all names are UTF-8. -/
def NamedInUtf8 (bytes : Bytes) : Prop :=
  ∃ l : Layout, l.bytes = bytes ∧ ∀ raw ∈ l.rawSymbols, raw.Readable

theorem RawSymbol.Readable.bytes_eq {raw : RawSymbol} (h : raw.Readable) :
    raw.bytes = symbolEncoding raw.symbol := by
  obtain ⟨text, htext⟩ := Option.isSome_iff_exists.1 h
  have hname := Utf8.encode_of_text? htext
  have hsymbol : raw.symbol = ⟨raw.offset, text⟩ := by
    rw [RawSymbol.symbol, ← hname, Utf8.lossyText_encode]
  rw [hsymbol, symbolEncoding, Symbol.encode, hname, RawSymbol.bytes]

theorem RawBlock.bytes_eq {b : RawBlock} (h : ∀ raw ∈ b.symbols, raw.Readable) (marker : Nat) :
    b.bytes marker = Program.blockBytes marker (b.read.flatMap symbolEncoding) := by
  rw [RawBlock.bytes, RawBlock.read, List.flatMap_map]
  exact congrArg _ (List.flatMap_congr fun raw hraw => (h raw hraw).bytes_eq)

/-- A layout with names in UTF-8 is what is written for its image. -/
theorem Layout.bytes_eq_encode {l : Layout} (h : ∀ raw ∈ l.rawSymbols, raw.Readable) :
    l.bytes = l.image.encode := by
  refine congrArg (framed l.poolOffset l.constants l.dataBase l.text) ?_
  obtain ⟨_, _, _, _, blocks, _, _⟩ := l
  cases blocks with
  | none => rfl
  | some pair =>
    obtain ⟨methods, labels⟩ := pair
    simp only [rawSymbols, Option.toList_some, List.flatMap_singleton, List.forall_mem_append] at h
    change methods.bytes methodMarker ++ labels.bytes labelMarker = _
    rw [RawBlock.bytes_eq h.1, RawBlock.bytes_eq h.2]
    rfl

theorem exists_rawSymbols {symbols : List Symbol} (h : ∀ s ∈ symbols, '\x00' ∉ s.name.toList) :
    ∃ raws : List RawSymbol, raws.map RawSymbol.symbol = symbols ∧ ∀ raw ∈ raws, raw.Readable := by
  induction symbols with
  | nil => exact ⟨[], rfl, nofun⟩
  | cons s rest ih =>
    obtain ⟨hs, hrest⟩ := List.forall_mem_cons.1 h
    obtain ⟨raws, rfl, hraws⟩ := ih hrest
    have hunended : 0 ∉ Utf8.encode s.name := Utf8.notMem_encode (by decide) hs
    refine ⟨⟨s.offset, Utf8.encode s.name, hunended⟩ :: raws, ?_, ?_⟩
    · rw [List.map_cons, RawSymbol.symbol, Utf8.lossyText_encode]
    · refine List.forall_mem_cons.2 ⟨?_, hraws⟩
      rw [RawSymbol.Readable, Utf8.text?_encode]
      rfl

theorem exists_rawBlock {symbols : List Symbol} (h : Writable symbols) :
    ∃ b : RawBlock, b.read = symbols ∧ ∀ raw ∈ b.symbols, raw.Readable := by
  obtain ⟨raws, rfl, hraws⟩ := exists_rawSymbols h.names
  have hfits : (raws.flatMap RawSymbol.bytes).length < 2 ^ 32 := by
    rw [List.flatMap_congr fun raw hraw => (hraws raw hraw).bytes_eq, ← List.flatMap_map]
    exact h.fits
  exact ⟨⟨raws, hfits⟩, rfl, hraws⟩

theorem exists_layout_of_encodable {image : Image} (h : image.Encodable) :
    ∃ l : Layout, l.image = image ∧ ∀ raw ∈ l.rawSymbols, raw.Readable := by
  obtain ⟨poolOffset, constants, dataBase, text, symbols⟩ := image
  obtain ⟨hpool, htext, hsymbols⟩ := h
  cases symbols with
  | none => exact ⟨⟨poolOffset, constants, dataBase, text, none, hpool, htext⟩, rfl, nofun⟩
  | some symbols =>
    obtain ⟨hmethods, hlabels⟩ := hsymbols symbols rfl
    obtain ⟨methods, hmethods, hreadable⟩ := exists_rawBlock hmethods
    obtain ⟨labels, hlabels, hreadable'⟩ := exists_rawBlock hlabels
    refine ⟨⟨poolOffset, constants, dataBase, text, some (methods, labels), hpool, htext⟩, ?_, ?_⟩
    · simp only [Layout.image, readPair, Option.map_some, hmethods, hlabels]
    · simp only [Layout.rawSymbols, Option.toList_some, List.flatMap_singleton,
        List.forall_mem_append]
      exact ⟨hreadable, hreadable'⟩

theorem parse_encode {image : Image} (h : image.Encodable) : parse image.encode = .ok image := by
  obtain ⟨l, rfl, hreadable⟩ := exists_layout_of_encodable h
  rw [← Layout.bytes_eq_encode hreadable, parse_layout]

theorem eq_encode_of_parse {image : Image} (h : parse bytes = .ok image)
    (hnames : NamedInUtf8 bytes) : bytes = image.encode := by
  obtain ⟨l, rfl, hreadable⟩ := hnames
  cases (parse_layout l).symm.trans h
  exact Layout.bytes_eq_encode hreadable

theorem namedInUtf8_encode {image : Image} (h : image.Encodable) : NamedInUtf8 image.encode := by
  obtain ⟨l, rfl, hreadable⟩ := exists_layout_of_encodable h
  exact ⟨l, Layout.bytes_eq_encode hreadable, hreadable⟩

/-- Exactly what is laid out as an image is read, as what it holds. So every image is read back from
what is written for it, and no other bytes with names in UTF-8 are read as that image. -/
theorem parse_exact :
    (∀ bytes image, parse bytes = .ok image ↔ ∃ l : Layout, l.bytes = bytes ∧ l.image = image) ∧
      (∀ image : Image, image.Encodable → parse image.encode = .ok image) ∧
      ∀ bytes bytes' image, parse bytes = .ok image → parse bytes' = .ok image →
        NamedInUtf8 bytes → NamedInUtf8 bytes' → bytes = bytes' := by
  refine ⟨fun bytes image => ⟨exists_layout_of_parse, ?_⟩, fun image => parse_encode, ?_⟩
  · rintro ⟨l, rfl, rfl⟩
    exact parse_layout l
  · intro bytes bytes' image h h' hnames hnames'
    rw [eq_encode_of_parse h hnames, eq_encode_of_parse h' hnames']

/-- Two constants, a text of three bytes, and a label with a name of two bytes for one character. -/
def accented : Image :=
  ⟨0x10000, [-1, 7], 0, [0x10, 0x05, 0xFF], some ⟨[⟨0, "main"⟩], [⟨2, "à"⟩]⟩⟩

theorem encodable_accented : accented.Encodable where
  pool := by decide
  text := by decide
  symbols := by
    rintro _ ⟨⟩
    exact ⟨⟨by decide, by decide⟩, ⟨by decide, by decide⟩⟩

theorem parse_exact_accented :
    accented.Encodable ∧ parse accented.encode = .ok accented ∧
      (∃ l : Layout, l.bytes = accented.encode ∧ l.image = accented) ∧
      NamedInUtf8 accented.encode ∧
      ∀ bytes, parse bytes = .ok accented → NamedInUtf8 bytes → bytes = accented.encode := by
  obtain ⟨hlayout, hencode, hunique⟩ := parse_exact
  have hparse := hencode accented encodable_accented
  have hnames := namedInUtf8_encode encodable_accented
  refine ⟨encodable_accented, hparse, (hlayout _ _).1 hparse, hnames, ?_⟩
  intro bytes h hbytes
  exact hunique bytes accented.encode accented h hparse hbytes hnames

end Image

end IjvmAsm

