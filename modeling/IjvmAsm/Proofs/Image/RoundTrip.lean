import IjvmAsm.Proofs.Assembly.Arity
import IjvmAsm.Proofs.Image.Symbols
import IjvmAsm.Proofs.Program.Coding

/-!
# Images of assembled programs

The image that is rendered of a program without errors is read back with the constants of the
program, with a text in which every method stands at its offset, and with the names of methods and
labels if they were asked for.
-/

namespace IjvmAsm

namespace Program

/-- The lengths that are written into an image fit the four bytes that are there for each. -/
structure FitsImage (p : Program) : Prop where
  constants : 4 * p.constants.size < 2 ^ 32
  text : p.size < 2 ^ 32
  methodSymbols : p.methodSymbols.length < 2 ^ 32
  labelSymbols : p.labelSymbols.length < 2 ^ 32

/-- The names of offsets in the text: of the methods, and of the labels behind their methods. -/
structure NamedBy (p : Program) (symbols : Symbols) : Prop where
  methods : symbols.methods.map (fun x => (x.offset.toNat, x.name)) =
    p.methods.toList.map fun m => (m.offset, m.name)
  labels : symbols.labels.map (fun x => (x.offset.toNat, x.name)) =
    p.methods.toList.flatMap fun m =>
      m.labels.toList.map fun l => (m.offset + l.offset, m.name ++ "#" ++ l.name)

/-- What an image shows of a program. -/
structure ShownBy (p : Program) (withSymbols : Bool) (image : Image) : Prop where
  poolOffset : image.poolOffset = 0x00010000
  constants : image.constants = p.constants.toList.map Constant.value
  dataBase : image.dataBase = 0
  size : image.text.length = p.size
  text : ∃ entry others main rest, p.methods.toList = entry :: others ∧ entry.isEntry = true ∧
    entry.Coded main ∧ RowCoded main.length others rest ∧ image.text = main ++ rest
  symbols : if withSymbols then ∃ symbols, image.symbols = some symbols ∧ p.NamedBy symbols
    else image.symbols = none

/-- Methods that are written one behind the other stand each at its offset. -/
theorem Consecutive.rowCoded {start : Nat} {ms : List Method} (h : Consecutive start ms)
    (harity : ∀ m ∈ ms, ∀ i ∈ m.instructions, i.HasArity)
    (hwritable : ∀ m ∈ ms, m.Writable false) (hfits : ∀ m ∈ ms, m.FitsHeader)
    (hsizes : ∀ m ∈ ms, m.encoding.length = m.size) :
    RowCoded start ms (ms.flatMap Method.headedEncoding) := by
  induction ms generalizing start with
  | nil => exact .nil
  | cons m ms ih =>
    obtain ⟨hplaced, hrest⟩ := h.tail
    rw [List.forall_mem_cons] at harity hwritable hfits hsizes
    have hlength : m.headedEncoding.length = m.size + Image.headerSize := by
      rw [Method.headedEncoding, List.length_append, Method.length_headerBytes, hsizes.1,
        Nat.add_comm]
    have hrow := ih hrest harity.2 hwritable.2 hfits.2 hsizes.2
    rw [Nat.add_assoc, ← hlength] at hrow
    rw [List.flatMap_cons]
    exact .cons hplaced (Method.headedCoded_headedEncoding harity.1 hwritable.1 hfits.1) hrow

theorem Shape.coded {p : Program} {entry : Method} {others : List Method}
    (h : Shape p entry others) (harity : ∀ m ∈ p.methods, ∀ i ∈ m.instructions, i.HasArity)
    (hwritten : p.Renderable false) (hsizes : ∀ m ∈ p.methods.toList, m.encoding.length = m.size) :
    entry.Coded entry.encoding ∧
      RowCoded entry.encoding.length others (others.flatMap Method.headedEncoding) := by
  obtain ⟨-, hheaders, harguments⟩ := hwritten
  rw [h.others_eq] at hheaders
  rw [h.methods, List.forall_mem_cons] at hsizes
  rw [hsizes.1]
  exact ⟨Method.coded_encoding (harity _ h.entry_mem) (harguments _ h.entry_mem),
    h.consecutive.rowCoded (fun m hm => harity m (h.mem_of_mem_others hm))
      (fun m hm => harguments m (h.mem_of_mem_others hm)) hheaders hsizes.2⟩

end Program

namespace Assembly

variable {s : Setup} {p : Program} {source : Bytes}

def pictured (p : Program) (withSymbols : Bool) : Image where
  poolOffset := 0x00010000
  constants := p.constants.toList.map Constant.value
  dataBase := 0
  text := p.text
  symbols := if withSymbols then
      some ⟨p.methods.toList.map fun m => ⟨UInt32.ofNat m.offset, m.name⟩,
        p.methods.toList.flatMap fun m => m.labels.toList.map fun l =>
          ⟨UInt32.ofNat (m.offset + l.offset), m.name ++ "#" ++ l.name⟩⟩
    else none

theorem parse_eq_pictured (hset : s.set.Plain) (hrun : (run s source).result = .ok p)
    (herrors : (run s source).errors = 0) (hfits : p.FitsImage) {withSymbols : Bool}
    {bytes : Bytes} (hrender : (p.render false withSymbols).result = .ok bytes) :
    Image.parse bytes = .ok (pictured p withSymbols) := by
  have hassembled := assembled_of_run hrun
  have hflawless := flawless_of_run hrun herrors
  obtain ⟨entry, others, hshape⟩ := hassembled.exists_shape hflawless
  obtain ⟨hconstants, hsize, hmethods, hlabels⟩ := hfits
  have htext := hassembled.length_text (hassembled.hasArity (Setup.regular_of_plain hset))
  obtain ⟨_, rfl⟩ := Program.render_eq_ok_iff.1 hrender
  have hsymbols := hassembled.symbolsOf_trailer hflawless hshape hmethods hlabels withSymbols
  exact Image.parse_image (by omega) hsize htext hsymbols

theorem shownBy_pictured (hset : s.set.Plain) (hrun : (run s source).result = .ok p)
    (herrors : (run s source).errors = 0) (hfits : p.FitsImage) {withSymbols : Bool}
    {bytes : Bytes} (hrender : (p.render false withSymbols).result = .ok bytes) :
    p.ShownBy withSymbols (pictured p withSymbols) := by
  have hassembled := assembled_of_run hrun
  have hflawless := flawless_of_run hrun herrors
  have harity := hassembled.hasArity (Setup.regular_of_plain hset)
  obtain ⟨entry, others, hshape⟩ := hassembled.exists_shape hflawless
  obtain ⟨hwritten, _⟩ := Program.render_eq_ok_iff.1 hrender
  refine ⟨rfl, rfl, rfl, hassembled.length_text harity, ?_, ?_⟩
  · obtain ⟨hentry, hothers⟩ := hshape.coded harity hwritten (hassembled.length_encoding harity)
    exact ⟨entry, others, _, _, hshape.methods, hshape.isEntry, hentry, hothers, hshape.text_eq⟩
  · cases withSymbols with
    | false => rfl
    | true =>
      refine ⟨_, rfl, ⟨?_, ?_⟩⟩
      · rw [List.map_map]
        refine List.map_congr_left fun m hm => ?_
        have hoffset := hshape.toNat_offset hfits.text (Array.mem_toList_iff.1 hm)
        simp only [Function.comp_apply, hoffset]
      · rw [List.map_flatMap]
        refine List.flatMap_congr fun m hm => ?_
        rw [List.map_map]
        refine List.map_congr_left fun l hl => ?_
        rw [Array.mem_toList_iff] at hm hl
        have hplace := hshape.toNat_place hfits.text hm ((hassembled.laidOut m hm).labels l hl)
        simp only [Function.comp_apply, hplace]

/-- What is rendered of a program without errors is read back, and shows the program. -/
theorem parse_render (hset : s.set.Plain) (hrun : (run s source).result = .ok p)
    (herrors : (run s source).errors = 0) (hfits : p.FitsImage) {withSymbols : Bool}
    {bytes : Bytes} (hrender : (p.render false withSymbols).result = .ok bytes) :
    ∃ image, Image.parse bytes = .ok image ∧ p.ShownBy withSymbols image :=
  ⟨pictured p withSymbols, parse_eq_pictured hset hrun herrors hfits hrender,
    shownBy_pictured hset hrun herrors hfits hrender⟩

/-- An entry method with a wide instruction and a call, and a method with a jump. -/
def sample : Bytes := Text.unlines
  [".main", ".var", "v", ".end-var", "WIDE", "ISTORE v", "INVOKEVIRTUAL f", "HALT", ".end-main",
    ".method f(a)", "loop: ILOAD a", "IFEQ loop", "IRETURN", ".end-method"]

def sampleSetup : Setup := { file := "t.jas" }

def sampleProgram : Program :=
  { constants := #[⟨"f", 8, 10, .method⟩]
    methods := #[
      { Method.entry 1 with
        slots := #[⟨Method.linkPointer, 0⟩, ⟨"v", 1⟩]
        instructions := #[
          { operation := ⟨Operation.wideName, 0xC4, []⟩, arguments := [], line := 5 },
          { operation := ⟨"ISTORE", 0x36, [.var]⟩, arguments := [.resolved 1], line := 6
            wide := true, offset := 1 },
          { operation := ⟨"INVOKEVIRTUAL", 0xB6, [.method]⟩, arguments := [.resolved 0], line := 7
            offset := 4 },
          { operation := ⟨"HALT", 0xFF, []⟩, arguments := [], line := 8, offset := 7 }]
        size := 8 },
      { Method.named "f" ["a"] 10 with
        instructions := #[
          { operation := ⟨"ILOAD", 0x15, [.var]⟩, arguments := [.resolved 1], line := 11 },
          { operation := ⟨"IFEQ", 0x99, [.label]⟩, arguments := [.resolved (-2)], line := 12
            offset := 2 },
          { operation := ⟨"IRETURN", 0xAC, []⟩, arguments := [], line := 13, offset := 5 }]
        labels := #[⟨"loop", 11, 0, 0⟩]
        size := 6
        offset := 8 }] }

theorem assembled_sample : (run sampleSetup sample).result = .ok sampleProgram ∧
    (run sampleSetup sample).errors = 0 := by decide +kernel

theorem run_sample : (run sampleSetup sample).result = .ok sampleProgram := assembled_sample.1

theorem errors_sample : (run sampleSetup sample).errors = 0 := assembled_sample.2

theorem fitsImage_sample : sampleProgram.FitsImage :=
  ⟨by decide, by decide, by decide, by decide⟩

/-- The head, the entry method, the other one behind its header, and the two blocks of symbols. -/
def sampleImage : Bytes :=
  [0x1D, 0xEA, 0xDF, 0xAD, 0, 1, 0, 0, 0, 0, 0, 4, 0, 0, 0, 8, 0, 0, 0, 0, 0, 0, 0, 18,
    0xC4, 0x36, 0, 1, 0xB6, 0, 0, 0xFF,
    0, 2, 0, 0, 0x15, 1, 0x99, 0xFF, 0xFE, 0xAC,
    0xEE, 0xEE, 0xEE, 0xEE, 0, 0, 0, 15, 0, 0, 0, 0, 109, 97, 105, 110, 0, 0, 0, 0, 8, 102, 0,
    0xFF, 0xFF, 0xFF, 0xFF, 0, 0, 0, 11, 0, 0, 0, 8, 102, 35, 108, 111, 111, 112, 0]

theorem render_sample : (sampleProgram.render false true).result = .ok sampleImage := by decide

theorem parse_render_sample :
    InstructionSet.standard.Plain ∧ (run sampleSetup sample).result = .ok sampleProgram ∧
      (run sampleSetup sample).errors = 0 ∧ sampleProgram.FitsImage ∧
      (sampleProgram.render false true).result = .ok sampleImage ∧
      ∃ image, Image.parse sampleImage = .ok image ∧ sampleProgram.ShownBy true image := by
  have hset : sampleSetup.set.Plain := InstructionSet.plain_standard
  exact ⟨hset, run_sample, errors_sample, fitsImage_sample, render_sample,
    parse_render hset run_sample errors_sample fitsImage_sample render_sample⟩

end Assembly

end IjvmAsm
