import IjvmAsm.Proofs.Image.Decoding
import IjvmAsm.Proofs.Image.RoundTrip
import IjvmAsm.Proofs.InstructionSet.Accepted

/-!
# Disassembling assembled programs

The symbols of an image say where the headers are, and the walk over its text comes to each of
them and to no other one in between. So the image of a program without errors lists the program.
-/

namespace IjvmAsm

namespace Program

def listing (p : Program) : List ListingLine :=
  ((p.methods.toList.take 1).flatMap fun m => m.codeLines m.offset) ++
    p.others.flatMap Method.headedLines

variable {start : Nat} {ms : List Method}

theorem Consecutive.le_offset (h : Consecutive start ms) {m : Method} (hm : m ∈ ms) :
    start ≤ m.offset := by
  obtain ⟨before, after, hsplit⟩ := List.append_of_mem hm
  rw [h before m after hsplit]
  exact Nat.le_add_right start _

/-- No method begins inside another one. -/
theorem Consecutive.apart (h : Consecutive start ms) {m m' : Method} (hm : m ∈ ms) (hm' : m' ∈ ms) :
    m'.offset ≤ m.offset ∨ m.offset + m.size + Image.headerSize ≤ m'.offset := by
  induction ms generalizing start with
  | nil => cases hm
  | cons first rest ih =>
    obtain ⟨hoffset, hnext⟩ := h.tail
    rcases List.mem_cons.1 hm with rfl | hrest
    · rcases List.mem_cons.1 hm' with rfl | hrest'
      · exact .inl (Nat.le_refl _)
      · right
        rw [hoffset]
        exact hnext.le_offset hrest'
    · rcases List.mem_cons.1 hm' with rfl | hrest'
      · left
        have hle := hnext.le_offset hrest
        omega
      · exact ih hnext hrest hrest'

end Program

namespace Image

variable {isHeader : Nat → Bool} {set : InstructionSet}

/-- Methods one behind the other are listed with their headers, whatever stands before them. -/
theorem listingFrom_methods {start : Nat} {ms : List Method}
    (hconsecutive : Program.Consecutive start ms) (hlaid : ∀ m ∈ ms, m.LaidOut)
    (hfits : ∀ m ∈ ms, m.FitsHeader) (hall : ∀ m ∈ ms, ∀ i ∈ m.instructions, Decodable set i)
    (hheader : ∀ m ∈ ms, isHeader m.offset = true)
    (hinside : ∀ m ∈ ms, ∀ i ∈ m.instructions, isHeader (m.offset + headerSize + i.offset) = false)
    (wide : Bool) :
    listingFrom isHeader set start wide (ms.flatMap Method.headedEncoding) =
      .ok (ms.flatMap Method.headedLines) := by
  induction ms generalizing start wide with
  | nil =>
    rw [List.flatMap_nil, listingFrom]
    rfl
  | cons m rest ih =>
    rw [List.forall_mem_cons] at hlaid hfits hall hheader hinside
    obtain ⟨hoffset, hnext⟩ := hconsecutive.tail
    have hrest := ih hnext hlaid.2 hfits.2 hall.2 hheader.2 hinside.2 m.widensNext
    have hstop : m.offset + headerSize + m.size = start + m.size + headerSize := by omega
    rw [List.flatMap_cons, ← hoffset,
      listingFrom_method hlaid.1 hfits.1 hall.1 hheader.1 hinside.1, hstop, hrest]
    rfl

end Image

namespace Assembly

open Program

variable {s : Setup} {p : Program} {source : Bytes} {entry : Method} {others : List Method}

/-- Behind an entry method with instructions the symbols promise a header exactly where another
method begins. -/
theorem mem_headerOffsets_pictured (h : Shape p entry others) (hsize : p.size < 2 ^ 32)
    (hbehind : ∀ m ∈ others, 0 < m.offset) {offset : Nat} :
    offset ∈ (pictured p true).headerOffsets ↔ ∃ m ∈ others, m.offset = offset := by
  have hoffsets : (p.methods.toList.map fun m => (UInt32.ofNat m.offset).toNat) =
      p.methods.toList.map Method.offset := by
    refine List.map_congr_left fun m hm => ?_
    exact h.toNat_offset hsize (Array.mem_toList_iff.1 hm)
  have hsymbols : (pictured p true).headerOffsets =
      (p.methods.toList.map Method.offset).filter (· ≠ 0) := by
    rw [← hoffsets]
    simp only [Image.headerOffsets, pictured, ↓reduceIte, List.map_map]
    rfl
  rw [hsymbols, h.methods, List.map_cons, List.filter_cons_of_neg (by simp [h.offset]),
    List.mem_filter, List.mem_map]
  constructor
  · rintro ⟨hm, _⟩
    exact hm
  · rintro ⟨m, hm, rfl⟩
    have hpos := hbehind m hm
    exact ⟨⟨m, hm, rfl⟩, decide_eq_true (by omega)⟩

theorem decodable_of_assembled (haccepted : s.set.Accepted) (hset : s.set.Plain)
    (hassembled : Assembled s p) (hrender : p.Renderable false) :
    ∀ m ∈ p.methods, ∀ i ∈ m.instructions, Image.Decodable s.set i := by
  intro m hm i hi
  obtain ⟨name, hname⟩ := hassembled.found hm hi
  exact
    { decoded := haccepted.coherent.decode?_opcode hname
      arity := hassembled.hasArity (Setup.regular_of_plain hset) m hm i hi
      writable := hrender.arguments m hm i hi }

/-- The other methods begin behind the entry method, so at none of its instructions. -/
theorem offset_ne_of_mem_entry (h : Shape p entry others) (hlaid : entry.LaidOut) {i : Instruction}
    (hi : i ∈ entry.instructions) {m : Method} (hm : m ∈ others) : m.offset ≠ 0 + i.offset := by
  have hlt := hlaid.offset_lt hi
  have hle := h.consecutive.le_offset hm
  omega

theorem offset_ne_of_mem_others (h : Shape p entry others) {m m' : Method} (hm : m ∈ others)
    (hm' : m' ∈ others) (hlaid : m.LaidOut) {i : Instruction} (hi : i ∈ m.instructions) :
    m'.offset ≠ m.offset + Image.headerSize + i.offset := by
  have hlt := hlaid.offset_lt hi
  have hpos : 0 < Image.headerSize := by decide
  rcases h.consecutive.apart hm hm' with hle | hle
  · omega
  · omega

/-- The text of a program is listed as the program if headers are promised where they are. -/
theorem listingFrom_text {isHeader : Nat → Bool} {set : InstructionSet} (h : Shape p entry others)
    (hheader : ∀ offset, isHeader offset = true ↔ ∃ m ∈ others, m.offset = offset)
    (hlaid : ∀ m ∈ p.methods, m.LaidOut) (hfits : ∀ m ∈ p.others, m.FitsHeader)
    (hall : ∀ m ∈ p.methods, ∀ i ∈ m.instructions, Image.Decodable set i) :
    Image.listingFrom isHeader set 0 false p.text = .ok p.listing := by
  have hnone : ∀ offset, (∀ m ∈ others, m.offset ≠ offset) → isHeader offset = false := by
    intro offset hne
    rw [Bool.eq_false_iff, ne_eq, hheader]
    rintro ⟨m, hm, hoffset⟩
    exact hne m hm hoffset
  -- What widens at the end of the entry method widens nothing, since a header follows.
  have hrest := Image.listingFrom_methods h.consecutive
    (fun m hm => hlaid m (h.mem_of_mem_others hm)) (by rwa [h.others_eq] at hfits)
    (fun m hm => hall m (h.mem_of_mem_others hm)) (fun m hm => (hheader m.offset).2 ⟨m, hm, rfl⟩)
    (fun m hm i hi => hnone _ fun m' hm' =>
      offset_ne_of_mem_others h hm hm' (hlaid m (h.mem_of_mem_others hm)) hi)
    entry.widensNext
  have hcode := Image.listingFrom_instructions (hlaid entry h.entry_mem).laid
    (fun i hi => hall entry h.entry_mem i (Array.mem_toList_iff.1 hi))
    (fun i hi => hnone _ fun m hm =>
      offset_ne_of_mem_entry h (hlaid entry h.entry_mem) (Array.mem_toList_iff.1 hi) hm)
    (others.flatMap Method.headedEncoding)
  rw [Nat.zero_add, Nat.zero_add, hrest] at hcode
  rw [h.text_eq, Method.encoding, hcode, listing, h.others_eq, h.methods, List.take_succ_cons,
    List.take_zero, List.flatMap_singleton, h.offset]
  rfl

/-- The methods behind an entry method that takes bytes do not begin where it does. -/
theorem offset_pos_of_shape (h : Shape p entry others) (hlaid : entry.LaidOut)
    (hentry : p.methods.size = 1 ∨ ∃ m, p.methods[0]? = some m ∧ 0 < m.instructions.size) :
    ∀ m ∈ others, 0 < m.offset := by
  intro m hm
  rcases hentry with hsize | ⟨first, hfirst, hsize⟩
  · rw [← Array.length_toList, h.methods, List.length_cons, Nat.add_eq_right,
      List.length_eq_zero_iff] at hsize
    rw [hsize] at hm
    cases hm
  · rw [← Array.getElem?_toList, h.methods, List.getElem?_cons_zero, Option.some.injEq] at hfirst
    subst hfirst
    have hlt := hlaid.offset_lt (Array.getElem_mem hsize)
    have hstart := h.consecutive.le_offset hm
    omega

/-- What is rendered of a program without errors is disassembled to the program. -/
theorem listing_render (haccepted : s.set.Accepted) (hset : s.set.Plain)
    (hrun : (run s source).result = .ok p) (herrors : (run s source).errors = 0)
    (hentry : p.methods.size = 1 ∨ ∃ m, p.methods[0]? = some m ∧ 0 < m.instructions.size)
    (hfits : p.FitsImage) {bytes : Bytes} (hrender : (p.render false true).result = .ok bytes) :
    ∃ image, Image.parse bytes = .ok image ∧ image.listing s.set = .ok p.listing ∧
      ∀ m ∈ p.methods, ∀ i ∈ m.instructions, i.arguments = i.values.map Argument.resolved := by
  have hassembled := assembled_of_run hrun
  obtain ⟨entry, others, hshape⟩ := hassembled.exists_shape (flawless_of_run hrun herrors)
  obtain ⟨hrenderable, _⟩ := Program.render_eq_ok_iff.1 hrender
  have hall := decodable_of_assembled haccepted hset hassembled hrenderable
  have hlaid := hassembled.laidOut entry hshape.entry_mem
  have hbehind := offset_pos_of_shape hshape hlaid hentry
  refine ⟨pictured p true, parse_eq_pictured hset hrun herrors hfits hrender, ?_, ?_⟩
  · refine listingFrom_text hshape (fun offset => ?_) hassembled.laidOut hrenderable.headers hall
    rw [List.contains_iff_mem]
    exact mem_headerOffsets_pictured hshape hfits.text hbehind
  · intro m hm i hi
    exact (hall m hm i hi).arguments_eq

theorem listing_render_sample :
    InstructionSet.standard.Accepted ∧ InstructionSet.standard.Plain ∧
      (run sampleSetup sample).result = .ok sampleProgram ∧ (run sampleSetup sample).errors = 0 ∧
      sampleProgram.FitsImage ∧ (sampleProgram.render false true).result = .ok sampleImage ∧
        ∃ image, Image.parse sampleImage = .ok image ∧
          image.listing InstructionSet.standard = .ok sampleProgram.listing ∧
            ∀ m ∈ sampleProgram.methods, ∀ i ∈ m.instructions,
              i.arguments = i.values.map Argument.resolved := by
  have haccepted : sampleSetup.set.Accepted := .inl rfl
  have hset : sampleSetup.set.Plain := InstructionSet.plain_standard
  have hentry : ∃ m, sampleProgram.methods[0]? = some m ∧ 0 < m.instructions.size :=
    ⟨_, rfl, by decide⟩
  exact ⟨haccepted, hset, run_sample, errors_sample, fitsImage_sample, render_sample,
    listing_render haccepted hset run_sample errors_sample (.inr hentry) fitsImage_sample
      render_sample⟩

end Assembly

end IjvmAsm
