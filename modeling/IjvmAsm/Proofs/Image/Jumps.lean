import IjvmAsm.Proofs.Assembly.Definition
import IjvmAsm.Proofs.Assembly.Rendering
import IjvmAsm.Proofs.Image.Headers
import IjvmAsm.Proofs.Program.Segments

/-!
# Jumps in listings

An instruction that takes a label is listed with a target. In the image of a program without errors
the target is the place of the instruction that came next when the label was defined, or the end of
the method if none did, and the symbol of the label says the same, the header of the method aside.
-/

namespace IjvmAsm

/-- A list made of lists, read at a place. -/
theorem getElem?_flatMap {α β : Type} {f : α → List β} {xs : List α} {k j : Nat} {x : α} {y : β}
    (hx : xs[k]? = some x) (hy : (f x)[j]? = some y) :
    (xs.flatMap f)[((xs.take k).map fun x => (f x).length).sum + j]? = some y := by
  induction xs generalizing k with
  | nil => cases hx
  | cons first rest ih =>
    cases k with
    | zero =>
      cases hx
      rw [List.take_zero, List.map_nil, List.sum_nil, Nat.zero_add, List.flatMap_cons,
        List.getElem?_append_left (List.getElem?_eq_some_iff.1 hy).1]
      exact hy
    | succ k =>
      have hrest := ih hx
      rw [List.take_succ_cons, List.map_cons, List.sum_cons, List.flatMap_cons, Nat.add_assoc,
        List.getElem?_append_right (Nat.le_add_right _ _), Nat.add_sub_cancel_left]
      exact hrest

theorem sum_map_take_add_le {α : Type} {f : α → Nat} {xs : List α} {k : Nat} {x : α}
    (hx : xs[k]? = some x) : ((xs.take k).map f).sum + f x ≤ (xs.map f).sum := by
  induction xs generalizing k with
  | nil => cases hx
  | cons first rest ih =>
    cases k with
    | zero =>
      cases hx
      rw [List.take_zero, List.map_nil, List.sum_nil, List.map_cons, List.sum_cons]
      omega
    | succ k =>
      have hrest := ih hx
      rw [List.take_succ_cons, List.map_cons, List.sum_cons, List.map_cons, List.sum_cons]
      omega

namespace Program

def labelsBefore (p : Program) (k : Nat) : Nat :=
  ((p.methods.toList.take k).map fun m => m.labels.size).sum

variable {p : Program} {entry : Method} {others : List Method} {k : Nat} {m : Method}

theorem getElem?_offsetsFrom {start : Nat} {ms : List Method} (hm : ms[k]? = some m) :
    (offsetsFrom start ms)[k]? = some (start + ((ms.take k).map Method.segmentSize).sum) := by
  induction ms generalizing start k with
  | nil => cases hm
  | cons first rest ih =>
    cases k with
    | zero => rfl
    | succ k =>
      rw [List.take_succ_cons, List.map_cons, List.sum_cons, ← Nat.add_assoc]
      exact ih hm

/-- A method stands behind the segments of those before it. -/
theorem Shape.offset_eq (h : Shape p entry others) (hm : p.methods[k]? = some m) :
    m.offset = ((p.methods.toList.take k).map Method.segmentSize).sum := by
  rw [← Array.getElem?_toList] at hm
  have hoffset : (offsetsFrom 0 p.methods.toList)[k]? = _ := getElem?_offsetsFrom hm
  rw [h.offsets_eq, List.getElem?_map, hm, Nat.zero_add] at hoffset
  exact Option.some.inj hoffset

theorem Shape.position_eq (h : Shape p entry others) (hm : p.methods[k]? = some m) (n : Nat) :
    p.position k n = m.offset + m.headerLength + m.sizeBefore n := by
  rw [position, hm, ← h.offset_eq hm, Nat.add_assoc]

theorem Shape.end_le_size (h : Shape p entry others) (hm : p.methods[k]? = some m) :
    m.offset + m.headerLength + m.size ≤ p.size := by
  have hle := sum_map_take_add_le (f := Method.segmentSize) (Array.getElem?_toList ▸ hm)
  rw [Program.size_eq, h.offset_eq hm, Nat.add_assoc, ← m.segmentSize_eq]
  exact hle

theorem Shape.mem_listing (h : Shape p entry others) (hm : m ∈ p.methods) {i : Instruction}
    (hi : i ∈ m.instructions) :
    .instruction (i.codeLine (m.offset + m.headerLength)) ∈ p.listing := by
  have hcode : ∀ start, .instruction (i.codeLine start) ∈ m.codeLines start := fun start =>
    List.mem_map_of_mem (f := fun i : Instruction => ListingLine.instruction (i.codeLine start))
      (Array.mem_toList_iff.2 hi)
  rw [h.listing_eq, List.mem_append, List.mem_flatMap]
  by_cases hentry : m.isEntry = true
  · have hfirst : m = entry := by
      rw [← Array.mem_toList_iff, h.methods] at hm
      rcases List.mem_cons.1 hm with rfl | hm
      · rfl
      · rw [h.notEntry m hm] at hentry
        cases hentry
    rw [Method.headerLength, if_pos hentry, hfirst, h.offset]
    rw [hfirst] at hcode
    exact .inl (hcode 0)
  · rw [Method.headerLength, if_neg hentry]
    rw [Bool.not_eq_true] at hentry
    exact .inr ⟨m, h.mem_others hm hentry, List.mem_cons_of_mem _ (hcode _)⟩

end Program

/-- A program in which nothing is pending is not rendered with more leniency than without. -/
theorem Program.Renderable.strict {p : Program} {lenient : Bool} (h : p.Renderable lenient)
    (hsettled : p.awaitsLinking = false) : p.Renderable false := by
  refine ⟨h.entry, h.headers, fun m hm i hi x hx => ⟨.inl ?_, (h.arguments m hm i hi x hx).2⟩⟩
  rw [awaitsLinking, Array.any_eq_false'] at hsettled
  have hmethod := hsettled m hm
  rw [Array.any_eq_true', not_exists] at hmethod
  have hpending := not_and.1 (hmethod i) hi
  rw [← Bool.not_eq_true]
  exact fun hx' => hpending (List.any_eq_true.2 ⟨x.2, (List.of_mem_zip hx).2, hx'⟩)

def lineAt (lines : List ListingLine) (offset : Nat) : Option ListingLine :=
  lines.find? fun line => line.offset == offset

namespace Image

variable {isHeader : Nat → Bool} {set : InstructionSet} {offset : Nat} {wide : Bool}

/-- The lines of a listing stand one behind the other. -/
theorem pairwise_listingFrom {bytes : Bytes} {lines : List ListingLine}
    (h : listingFrom isHeader set offset wide bytes = .ok lines) :
    (∀ line ∈ lines, offset ≤ line.offset) ∧
      lines.Pairwise fun line line' => line.offset + line.size ≤ line'.offset := by
  obtain ⟨⟨after, htiles⟩, -⟩ := tiles_of_listingFrom h
  exact htiles.pairwise

/-- Every line is the one at its offset. -/
theorem lineAt_of_mem {lines : List ListingLine}
    (h : lines.Pairwise fun line line' => line.offset + line.size ≤ line'.offset)
    {line : ListingLine} (hline : line ∈ lines) : lineAt lines line.offset = some line := by
  induction lines with
  | nil => cases hline
  | cons first rest ih =>
    obtain ⟨hfirst, hrest⟩ := List.pairwise_cons.1 h
    rw [lineAt, List.find?_cons]
    rcases List.mem_cons.1 hline with rfl | hline
    · rw [beq_self_eq_true]
    · have hne : (first.offset == line.offset) = false := by
        have hle := hfirst line hline
        have hpos := size_pos first
        rw [beq_eq_false_iff_ne]
        omega
      rw [hne]
      exact ih hrest hline

end Image

/-- A jump of the set takes nothing but its label. -/
theorem InstructionSet.operands_of_label_mem {name : String} {op : Operation}
    (h : standard.find? name = some op) (hlabel : .label ∈ op.operands) : op.operands = [.label] := by
  have hall : ∀ op ∈ standard.named, .label ∈ op.operands → op.operands = [.label] := by
    decide
  exact hall op (find?_eq_some h).1 hlabel

theorem toNat_ofInt_natCast {n : Nat} (h : n < 2 ^ 32) : (UInt32.ofInt n).toNat = n := by
  have hmod : ((n : Int) % 2 ^ 32).toNat = n := by omega
  rw [UInt32.ofInt, hmod]
  exact UInt32.toNat_ofNat_of_lt' h

/-- What linking makes of a jump to a label: the distance to the label is its only argument. -/
theorem Instruction.LinksTo.values_of_label {pool : Array Constant} {m : Method}
    {i i' : Instruction} (h : i.LinksTo pool m i') {count : Nat} (hsuited : i.Suited count)
    (hjump : .label ∈ i.operation.operands → i.operation.operands = [.label]) {name : String}
    (hname : .pending (.label name) ∈ i.arguments) :
    i'.operation.operands = [.label] ∧
      ∃ l, m.findLabel? name = some l ∧ i'.values = [(l.offset : Int) - i.offset] := by
  obtain ⟨kind, hkind, hsuits⟩ := exists_of_mem_right hsuited hname
  cases hsuits
  have hoperands := hjump hkind
  have hlength := hsuited.length_eq
  rw [hoperands] at hlength
  obtain ⟨argument, hsingle⟩ := List.length_eq_one_iff.1 hlength.symm
  rw [hsingle, List.mem_singleton] at hname
  have hsettled := h.settled
  rw [hsingle, ← hname] at hsettled
  obtain ⟨argument', rest, hfirst, hrest, hsingle'⟩ := List.forall₂_cons_left_iff.1 hsettled
  rw [List.forall₂_nil_left_iff.1 hrest] at hsingle'
  refine ⟨h.alike.operation ▸ hoperands, ?_⟩
  rw [values, hsingle']
  cases hfirst with
  | label found _ _ => exact ⟨_, found, rfl⟩

namespace Assembly

open Program

variable {s : Setup} {p : Program} {source : Bytes} {entry : Method} {others : List Method}

/-- The `j`-th instruction of the `k`-th method, a jump to a label, lands on it. The source defines
the label in one place, behind some of the instructions of the method. The target that is listed for
the jump is the place of the instruction behind these, or the end of the method if there is none,
and so says the symbol of the label, the header of the method aside. -/
structure Lands (s : Setup) (lines : List Source.Line) (p : Program) (symbols : Symbols)
    (listing : List ListingLine) (k j : Nat) (name : String) (emitted : List (Operation × Nat)) :
    Prop where
  defined : Defines s lines k name emitted
  unique : ∀ emitted', Defines s lines k name emitted' → emitted' = emitted
  inside : ∃ m, p.methods[k]? = some m ∧ emitted <+: m.emitted
  target : ∃ decoded target, lineAt listing (p.position k j) = some (.instruction decoded) ∧
    decoded.target = some target ∧ target.toNat = p.position k emitted.length
  symbol : ∃ m index label symbol, p.methods[k]? = some m ∧ m.labels[index]? = some label ∧
    label.name = name ∧ symbols.labels[p.labelsBefore k + index]? = some symbol ∧
    symbol.name = m.name ++ "#" ++ name ∧
    p.position k emitted.length =
      symbol.offset.toNat + if m.isEntry then 0 else Image.headerSize

/-- The symbols of labels are listed method by method. -/
theorem getElem?_labels_pictured {k index : Nat} {m : Method} {l : Label}
    (hm : p.methods[k]? = some m) (hl : m.labels[index]? = some l) {symbols : Symbols}
    (hsymbols : (pictured p true).symbols = some symbols) :
    symbols.labels[p.labelsBefore k + index]? =
      some ⟨UInt32.ofNat (m.offset + l.offset), m.name ++ "#" ++ l.name⟩ := by
  cases hsymbols
  rw [← Array.getElem?_toList] at hm hl
  have hlabels : ∀ m : Method, (m.labels.toList.map fun l => (⟨UInt32.ofNat (m.offset + l.offset),
      m.name ++ "#" ++ l.name⟩ : Symbol)).length = m.labels.size := by
    intro m
    rw [List.length_map, Array.length_toList]
  have hat := getElem?_flatMap (f := fun m : Method => m.labels.toList.map fun l =>
    (⟨UInt32.ofNat (m.offset + l.offset), m.name ++ "#" ++ l.name⟩ : Symbol)) hm
    (by rw [List.getElem?_map, hl]; rfl)
  simp only [hlabels] at hat
  exact hat

/-- The image is disassembled so that every instruction stands in its place and every jump, as the
lines of the source left it, lands on its label. -/
def JumpsLand (s : Setup) (source : Bytes) (p : Program) (bytes : Bytes) : Prop :=
  ∃ a image symbols listing,
    readLines s {} (Source.Lines.ofBytes source).lines = .ok a ∧
    p = (a.program.link s.file).1 ∧
    Image.parse bytes = .ok image ∧ image.symbols = some symbols ∧
    image.listing s.set = .ok listing ∧
    (∀ k m, p.methods[k]? = some m → ∀ j i, m.instructions[j]? = some i →
      lineAt listing (p.position k j) =
        some (.instruction ⟨p.position k j, i.operation, i.values, i.wide⟩)) ∧
    ∀ k m, a.program.methods[k]? = some m → ∀ j i, m.instructions[j]? = some i →
      ∀ name, .pending (.label name) ∈ i.arguments →
        ∃ emitted, Lands s (Source.Lines.ofBytes source).lines p symbols listing k j name emitted

/-- What is known of a label that a jump names, in the lines and in what they come to. -/
structure Labelled (s : Setup) (lines : List Source.Line) (k : Nat) (m : Method) (name : String)
    (l : Label) (emitted : List (Operation × Nat)) : Prop where
  mem : l ∈ m.labels
  named : l.name = name
  defined : Defines s lines k name emitted
  unique : ∀ emitted', Defines s lines k name emitted' → emitted' = emitted
  inside : emitted <+: m.emitted
  offset : l.offset = m.sizeBefore emitted.length

theorem exists_labelled_of_findLabel? {a : Progress} {lines : List Source.Line} {k : Nat}
    {m : Method} {name : String} {l : Label}
    (hsolid : ∀ line ∈ lines, Text.StartsSolid line.text.toList)
    (hread : readLines s {} lines = .ok a) (herrors : a.journal.errors = 0)
    (hm : a.methods[k]? = some m) (hl : m.findLabel? name = some l) :
    ∃ emitted, Labelled s lines k m name l emitted := by
  have hmem : l ∈ m.labels := Array.mem_of_find?_eq_some hl
  have hname := Array.find?_some hl
  rw [beq_iff_eq] at hname
  obtain ⟨_, hoffset⟩ :=
    (kept_anchored s).readLines hsolid hread m (List.mem_of_getElem? hm) l hmem
  have hplace : ∀ emitted, Defines s lines k name emitted →
      l.index = emitted.length ∧ emitted <+: m.emitted := by
    intro emitted h
    obtain ⟨m', l', hm', hl', hindex, hinside⟩ := h.findLabel? hsolid hread herrors
    cases hm.symm.trans hm'
    cases hl.symm.trans hl'
    exact ⟨hindex, hinside⟩
  obtain ⟨emitted, hdefined, hlength⟩ := located_of_mem_labels hsolid hread k m hm l hmem
  rw [hname] at hdefined
  refine ⟨emitted, hmem, hname, hdefined, fun emitted' h => ?_, (hplace emitted hdefined).2, ?_⟩
  · -- Two beginnings of one list that are equally long are the same.
    obtain ⟨hindex, hinside⟩ := hplace emitted' h
    have hle : emitted'.length ≤ emitted.length := by omega
    exact (List.prefix_of_prefix_length_le hinside (hplace emitted hdefined).2 hle).eq_of_length
      (by omega)
  · rw [hlength, hoffset]

theorem target_of_label {d : CodeLine} {value : Int} (hkinds : d.operation.operands = [.label])
    (hvalues : d.operands = [value]) : d.target = some (UInt32.ofInt (d.offset + value)) := by
  rw [CodeLine.target, hkinds, hvalues]
  rfl

/-- An instruction is listed in its place. -/
theorem lineAt_position (h : Shape p entry others)
    (hpairwise : p.listing.Pairwise fun line line' => line.offset + line.size ≤ line'.offset)
    {k j : Nat} {m : Method} (hm : p.methods[k]? = some m) (hlaid : m.LaidOut) {i : Instruction}
    (hi : m.instructions[j]? = some i) :
    lineAt p.listing (p.position k j) =
      some (.instruction ⟨p.position k j, i.operation, i.values, i.wide⟩) := by
  have hline := Image.lineAt_of_mem hpairwise
    (h.mem_listing (Array.mem_of_getElem? hm) (Array.mem_of_getElem? hi))
  have hplace : i.codeLine (m.offset + m.headerLength) =
      ⟨p.position k j, i.operation, i.values, i.wide⟩ := by
    rw [h.position_eq hm, ← hlaid.offset_eq hi]
    rfl
  rw [hplace] at hline
  exact hline

theorem lands_of_labelled (h : Shape p entry others) (hsize : p.size < 2 ^ 32)
    {lines : List Source.Line} {symbols : Symbols} {listing : List ListingLine}
    (hsymbols : (pictured p true).symbols = some symbols) {k j : Nat} {m m' : Method}
    (hm' : p.methods[k]? = some m') (halike : m.Alike m') (hlaid : m'.LaidOut) {name : String}
    {l : Label} {emitted : List (Operation × Nat)}
    (hlabel : Labelled s lines k m name l emitted) {i i' : Instruction}
    (hoffset : i.offset = m.sizeBefore j)
    (hline : lineAt listing (p.position k j) =
      some (.instruction ⟨p.position k j, i'.operation, i'.values, i'.wide⟩))
    (hkinds : i'.operation.operands = [.label])
    (hvalues : i'.values = [(l.offset : Int) - i.offset]) :
    Lands s lines p symbols listing k j name emitted := by
  have hmem : l ∈ m'.labels := by
    rw [halike.labels]
    exact hlabel.mem
  have hle := hlaid.labels l hmem
  have hend := h.end_le_size hm'
  have hfrom : p.position k j = m'.offset + m'.headerLength + i.offset := by
    rw [h.position_eq hm', halike.sizeBefore_eq, hoffset]
  have hto : p.position k emitted.length = m'.offset + m'.headerLength + l.offset := by
    rw [h.position_eq hm', halike.sizeBefore_eq, hlabel.offset]
  refine ⟨hlabel.defined, hlabel.unique, ⟨m', hm', ?_⟩,
    ⟨_, _, hline, target_of_label hkinds hvalues, ?_⟩, ?_⟩
  · rw [halike.emitted_eq]
    exact hlabel.inside
  · -- The distance counts from the jump, so that its own place drops out.
    have hsum : (p.position k j : Int) + ((l.offset : Int) - i.offset) =
        (p.position k emitted.length : Nat) := by omega
    rw [hsum]
    exact toNat_ofInt_natCast (by omega)
  · obtain ⟨index, hindex⟩ := Array.getElem?_of_mem hmem
    refine ⟨m', index, l, _, hm', hindex, hlabel.named,
      getElem?_labels_pictured hm' hindex hsymbols, by rw [hlabel.named], ?_⟩
    rw [hto, h.toNat_place hsize (Array.mem_of_getElem? hm') hle, Method.headerLength]
    omega

/-- In the image of a program without errors whose entry method takes bytes, every jump lands on its
label. -/
theorem jumpsLand_of_run (hset : s.set = .standard) (hrun : (run s source).result = .ok p)
    (herrors : (run s source).errors = 0)
    (hentry : ∃ m, p.methods[0]? = some m ∧ 0 < m.instructions.size) (hfits : p.FitsImage)
    {lenient : Bool} {bytes : Bytes} (hrender : (p.render lenient true).result = .ok bytes) :
    JumpsLand s source p bytes := by
  have haccepted : s.set.Accepted := .inl hset
  have hplain : s.set.Plain := hset ▸ InstructionSet.plain_standard
  have hassembled := assembled_of_run hrun
  have hflawless := flawless_of_run hrun herrors
  obtain ⟨hlenient, hbytes⟩ := render_eq_ok_iff.1 hrender
  have hrenderable := hlenient.strict hflawless.settled
  have hstrict := render_eq_ok_iff.2 ⟨hrenderable, hbytes⟩
  obtain ⟨entry, others, hshape⟩ := hassembled.exists_shape hflawless
  have hlisting := listing_pictured haccepted hplain hassembled hshape hrenderable hfits.text
    (.inr hentry)
  have hpairwise := (Image.pairwise_listingFrom hlisting).2
  have hline : ∀ {k j m i}, p.methods[k]? = some m → m.instructions[j]? = some i →
      lineAt p.listing (p.position k j) =
        some (.instruction ⟨p.position k j, i.operation, i.values, i.wide⟩) := fun hm hi =>
    lineAt_position hshape hpairwise hm (hassembled.laidOut _ (Array.mem_of_getElem? hm)) hi
  obtain ⟨a, hread, hblock, hquiet, hlink, _, hlinks⟩ := exists_linksTo_of_run hrun herrors
  have hsolid : ∀ line ∈ (Source.Lines.ofBytes source).lines, Text.StartsSolid line.text.toList :=
    fun _ => startsSolid_of_mem_lines
  refine ⟨a, pictured p true, _, p.listing, hread, hlink,
    parse_eq_pictured hplain hrun herrors hfits hstrict, rfl, hlisting,
    fun k m hm j i hi => hline hm hi, fun k m hm j i hi name hname => ?_⟩
  have hopen : a.methods[k]? = some m := by
    rw [Progress.methods_of_outside hblock, Array.getElem?_toList, hm]
  have hmem := List.mem_of_getElem? hopen
  have hgrown := ((Progress.sound_start s).readLines hsolid hread).grown m hmem
  have hsuited := (kept_suitable hplain).readLines hsolid hread m hmem i (Array.mem_of_getElem? hi)
  obtain ⟨mnemonic, hfound⟩ := (hgrown.issued i (Array.mem_of_getElem? hi)).found
  rw [hset] at hfound
  rw [← Array.getElem?_toList] at hm
  obtain ⟨m', hm', hmethod⟩ := exists_getElem?_of_forall₂ hlinks hm
  rw [Array.getElem?_toList] at hm'
  have hoffset := hgrown.laidOut.offset_eq hi
  rw [← Array.getElem?_toList] at hi
  obtain ⟨i', hi', hinstruction⟩ := exists_getElem?_of_forall₂ hmethod.instructions hi
  rw [Array.getElem?_toList] at hi'
  obtain ⟨hkinds, l, hl, hvalues⟩ :=
    hinstruction.values_of_label hsuited (InstructionSet.operands_of_label_mem hfound) hname
  obtain ⟨emitted, hlabel⟩ := exists_labelled_of_findLabel? hsolid hread hquiet hopen hl
  exact ⟨emitted, lands_of_labelled hshape hfits.text rfl hm' hmethod.alike
    (hassembled.laidOut m' (Array.mem_of_getElem? hm')) hlabel hoffset (hline hm' hi') hkinds
    hvalues⟩

theorem jumpsLand_sample :
    sampleSetup.set = .standard ∧ (run sampleSetup sample).result = .ok sampleProgram ∧
      (run sampleSetup sample).errors = 0 ∧
      (∃ m, sampleProgram.methods[0]? = some m ∧ 0 < m.instructions.size) ∧
      sampleProgram.FitsImage ∧ (sampleProgram.render false true).result = .ok sampleImage ∧
        JumpsLand sampleSetup sample sampleProgram sampleImage := by
  have hentry : ∃ m, sampleProgram.methods[0]? = some m ∧ 0 < m.instructions.size :=
    ⟨_, rfl, Nat.zero_lt_succ _⟩
  exact ⟨rfl, run_sample, errors_sample, hentry, fitsImage_sample, render_sample,
    jumpsLand_of_run rfl run_sample errors_sample hentry fitsImage_sample render_sample⟩

end Assembly

end IjvmAsm
