import IjvmAsm.Proofs.Image.Disassembly
import IjvmAsm.Proofs.Image.Tiling

/-!
# Headers in listings

The symbols of an image promise no header at offset zero, where the entry method begins. An entry
method without instructions leaves this place to the header of the method behind it, which is then
listed as instructions or unknown bytes. In all other images of programs without errors the headers
that are listed are those that were written.
-/

namespace IjvmAsm

def ListingLine.isHeader : ListingLine → Bool
  | header .. => true
  | instruction _ | unknown .. => false

theorem ListingLine.ShownAt.isHeader_eq {isHeader : Nat → Bool} {set : InstructionSet}
    {offset : Nat} {wide : Bool} {line : ListingLine} (h : line.ShownAt isHeader set offset wide) :
    line.isHeader = isHeader offset := by
  cases h with
  | header _ _ promised => exact promised.symm
  | instruction _ _ unpromised => exact unpromised.symm
  | unknown _ unpromised => exact unpromised.symm

def Method.headerLine (m : Method) : ListingLine :=
  .header m.offset m.parameterCount m.localCount

/-- The headers in a listing are those of the methods of a program, and no other line shows a byte
of one. -/
structure Program.HeadersShown (p : Program) (lines : List ListingLine) : Prop where
  headers : lines.filter ListingLine.isHeader =
    (p.methods.toList.filter fun m => !m.isEntry).map Method.headerLine
  apart : ∀ line ∈ lines, line.isHeader = false → ∀ m ∈ p.methods, m.isEntry = false →
    line.offset + line.size ≤ m.offset ∨ m.offset + Image.headerSize ≤ line.offset

namespace Image

variable {isHeader : Nat → Bool} {set : InstructionSet} {offset : Nat} {wide : Bool}

/-- A listing begins where it begins, with a line that is no header if none is promised there. -/
theorem exists_first_of_listingFrom {b : UInt8} {bytes : Bytes} {lines : List ListingLine}
    (hnone : isHeader offset = false)
    (h : listingFrom isHeader set offset wide (b :: bytes) = .ok lines) :
    ∃ line ∈ lines, line.offset = offset ∧ line.isHeader = false := by
  obtain ⟨⟨after, htiles⟩, -⟩ := tiles_of_listingFrom h
  have hlt : offset < offset + (b :: bytes).length := by simp
  generalize offset + (b :: bytes).length = stop at htiles hlt
  cases htiles with
  | nil => exact absurd hlt (Nat.lt_irrefl _)
  | cons shown _ =>
    exact ⟨_, List.mem_cons_self, shown.offset_eq, shown.isHeader_eq.trans hnone⟩

end Image

namespace Method

variable {m : Method} {start : Nat} {line : ListingLine}

/-- The lines of the code of a method lie where its code does. -/
theorem bounds_of_mem_codeLines (hlaid : m.LaidOut) (h : line ∈ m.codeLines start) :
    start ≤ line.offset ∧ line.offset + line.size ≤ start + m.size := by
  obtain ⟨i, hi, rfl⟩ := List.mem_map.1 h
  have hle := (hlaid.laid.offset_le hi).2
  change start ≤ start + i.offset ∧ start + i.offset + i.size ≤ start + m.size
  omega

theorem filter_isHeader_codeLines (m : Method) (start : Nat) :
    (m.codeLines start).filter ListingLine.isHeader = [] := by
  rw [List.filter_eq_nil_iff]
  intro line h
  obtain ⟨i, _, rfl⟩ := List.mem_map.1 h
  exact Bool.false_ne_true

theorem filter_isHeader_headedLines (m : Method) :
    m.headedLines.filter ListingLine.isHeader = [m.headerLine] := by
  rw [headedLines, List.filter_cons_of_pos rfl, filter_isHeader_codeLines]
  rfl

end Method

namespace Program

variable {p : Program} {entry : Method} {others : List Method}

theorem Shape.filter_not_isEntry (h : Shape p entry others) :
    p.methods.toList.filter (fun m => !m.isEntry) = others := by
  rw [h.methods, List.filter_cons_of_neg (by simp [h.isEntry]), List.filter_eq_self]
  intro m hm
  rw [h.notEntry m hm]
  rfl

theorem Shape.listing_eq (h : Shape p entry others) :
    p.listing = entry.codeLines 0 ++ others.flatMap Method.headedLines := by
  rw [listing, h.others_eq, h.methods, List.take_succ_cons, List.take_zero, List.flatMap_singleton,
    h.offset]

/-- The lines that a program is to be disassembled to show its headers. -/
theorem Shape.headersShown_listing (h : Shape p entry others)
    (hlaid : ∀ m ∈ p.methods, m.LaidOut) : p.HeadersShown p.listing := by
  constructor
  · rw [h.listing_eq, h.filter_not_isEntry, List.filter_append, Method.filter_isHeader_codeLines,
      List.nil_append, List.filter_flatMap]
    simp only [Method.filter_isHeader_headedLines]
    exact List.flatMap_pure_eq_map _ _
  · intro line hline hcode m hm hentry
    have hother := h.mem_others hm hentry
    rw [h.listing_eq, List.mem_append, List.mem_flatMap] at hline
    rcases hline with hline | ⟨m', hm', hline⟩
    · have hbounds := Method.bounds_of_mem_codeLines (hlaid entry h.entry_mem) hline
      have hbehind := h.consecutive.le_offset hother
      omega
    · rcases List.mem_cons.1 hline with rfl | hline
      · cases hcode
      · have hbounds := Method.bounds_of_mem_codeLines (hlaid m' (h.mem_of_mem_others hm')) hline
        have hapart := h.consecutive.apart hm' hother
        omega

end Program

namespace Assembly

open Program

variable {s : Setup} {p : Program} {source : Bytes} {entry : Method} {others : List Method}

/-- The symbols of an image promise no header where its text begins. -/
theorem zero_notMem_headerOffsets (image : Image) : 0 ∉ image.headerOffsets := by
  unfold Image.headerOffsets
  cases image.symbols with
  | none => exact List.not_mem_nil
  | some symbols => simp

/-- The header of a method that begins where the text does is not listed. -/
theorem not_headersShown_of_offset_zero {m : Method} {rest : List Method}
    (h : Shape p entry (m :: rest)) (hentry : entry.instructions = #[]) (hlaid : entry.LaidOut)
    {set : InstructionSet} {lines : List ListingLine}
    (hlines : (pictured p true).listing set = .ok lines) : ¬ p.HeadersShown lines := by
  have hsize : entry.size = 0 := by
    rw [hlaid.size_eq, hentry]
    rfl
  have hoffset : m.offset = 0 := by
    rw [h.consecutive.tail.1, hsize]
  have htext : p.text = UInt8.ofNat (m.parameterCount / 256) :: p.text.tail := by
    rw [h.text_eq, Method.encoding, hentry]
    rfl
  have hnone : (pictured p true).headerOffsets.contains 0 = false := by
    rw [← Bool.not_eq_true, List.contains_iff_mem]
    exact zero_notMem_headerOffsets _
  rw [Image.listing, pictured, htext] at hlines
  obtain ⟨line, hline, hstart, hcode⟩ := Image.exists_first_of_listingFrom hnone hlines
  intro hshown
  have hpos := Image.size_pos line
  have hmem := h.mem_of_mem_others List.mem_cons_self
  rcases hshown.apart line hline hcode m hmem (h.notEntry m List.mem_cons_self) with hle | hle
  · omega
  · rw [Image.headerSize] at hle
    omega

/-- Behind an entry method that takes bytes, all methods are listed with their headers. -/
theorem listing_pictured (haccepted : s.set.Accepted) (hset : s.set.Plain)
    (hassembled : Assembled s p) (hshape : Shape p entry others) (hrenderable : p.Renderable false)
    (hsize : p.size < 2 ^ 32)
    (hentry : p.methods.size = 1 ∨ ∃ m, p.methods[0]? = some m ∧ 0 < m.instructions.size) :
    (pictured p true).listing s.set = .ok p.listing := by
  have hlaid := hassembled.laidOut entry hshape.entry_mem
  have hbehind := offset_pos_of_shape hshape hlaid hentry
  apply listingFrom_text hshape _ hassembled.laidOut hrenderable.headers
    (decodable_of_assembled haccepted hset hassembled hrenderable)
  intro offset
  rw [List.contains_iff_mem]
  exact mem_headerOffsets_pictured hshape hsize hbehind

/-- The image of a program without errors lists the headers that were written, unless the entry
method is empty and other methods follow it. -/
theorem exists_headersShown_iff (haccepted : s.set.Accepted) (hset : s.set.Plain)
    (hrun : (run s source).result = .ok p) (herrors : (run s source).errors = 0)
    (hfits : p.FitsImage) {bytes : Bytes} (hrender : (p.render false true).result = .ok bytes) :
    ∃ image, Image.parse bytes = .ok image ∧
      ((∃ lines, image.listing s.set = .ok lines ∧ p.HeadersShown lines) ↔
        p.methods.size = 1 ∨ ∃ m, p.methods[0]? = some m ∧ 0 < m.instructions.size) := by
  have hassembled := assembled_of_run hrun
  obtain ⟨entry, others, hshape⟩ := hassembled.exists_shape (flawless_of_run hrun herrors)
  obtain ⟨hrenderable, _⟩ := Program.render_eq_ok_iff.1 hrender
  have hlaid := hassembled.laidOut entry hshape.entry_mem
  refine ⟨pictured p true, parse_eq_pictured hset hrun herrors hfits hrender, ?_, fun hentry => ?_⟩
  · rintro ⟨lines, hlines, hshown⟩
    cases others with
    | nil =>
      left
      rw [← Array.length_toList, hshape.methods]
      rfl
    | cons m rest =>
      refine .inr ⟨entry, getElem?_zero_of_toList hshape.methods, ?_⟩
      apply Nat.pos_of_ne_zero
      intro hempty
      exact not_headersShown_of_offset_zero hshape (Array.eq_empty_of_size_eq_zero hempty) hlaid
        hlines hshown
  · exact ⟨p.listing,
      listing_pictured haccepted hset hassembled hshape hrenderable hfits.text hentry,
      hshape.headersShown_listing hassembled.laidOut⟩

def emptyMain : Bytes := Text.unlines [".main", ".end-main", ".method f()", "HALT", ".end-method"]

def emptyMainProgram : Program :=
  { constants := #[⟨"f", 0, 3, .method⟩]
    methods := #[
      Method.entry 1,
      { Method.named "f" [] 3 with
        instructions := #[{ operation := ⟨"HALT", 0xFF, []⟩, arguments := [], line := 4 }]
        size := 1 }] }

theorem not_headersShown_emptyMain :
    InstructionSet.standard.Accepted ∧ InstructionSet.standard.Plain ∧
      (run sampleSetup emptyMain).result = .ok emptyMainProgram ∧
      (run sampleSetup emptyMain).errors = 0 ∧ emptyMainProgram.FitsImage ∧
      ∃ bytes, (emptyMainProgram.render false true).result = .ok bytes ∧
        ∃ image, Image.parse bytes = .ok image ∧
          ¬ ∃ lines, image.listing InstructionSet.standard = .ok lines ∧
            emptyMainProgram.HeadersShown lines := by
  obtain ⟨hrun, herrors⟩ : (run sampleSetup emptyMain).result = .ok emptyMainProgram ∧
      (run sampleSetup emptyMain).errors = 0 := by decide +kernel
  have hfits : emptyMainProgram.FitsImage :=
    ⟨by decide, by decide, by decide, by decide⟩
  have haccepted : sampleSetup.set.Accepted := .inl rfl
  have hset : sampleSetup.set.Plain := InstructionSet.plain_standard
  obtain ⟨bytes, hrender⟩ : ∃ bytes, (emptyMainProgram.render false true).result = .ok bytes := by
    have hfailure : (emptyMainProgram.render false true).failure = none := by decide
    exact ⟨_, by rw [Output.result, hfailure]⟩
  obtain ⟨image, hparse, hiff⟩ :=
    exists_headersShown_iff haccepted hset hrun herrors hfits hrender
  refine ⟨haccepted, hset, hrun, herrors, hfits, bytes, hrender, image, hparse, fun hshown => ?_⟩
  rcases hiff.1 hshown with hsize | ⟨m, hfirst, hpos⟩
  · cases hsize
  · cases hfirst
    exact absurd hpos (Nat.lt_irrefl 0)

end Assembly

end IjvmAsm
