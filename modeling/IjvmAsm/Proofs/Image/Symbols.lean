import IjvmAsm.Proofs.Assembly.Assembled
import IjvmAsm.Proofs.Image.Reading
import IjvmAsm.Proofs.Source.Identifier

/-!
# Symbols of assembled programs

The offsets in the symbols are summed up anew when they are written. They are those that linking
gave to the methods, and the names hold no zero byte, so the symbols are read back as they are.
-/

namespace IjvmAsm

namespace Program

/-- Methods behind each other from an offset on, each behind its header. -/
def Consecutive (start : Nat) (ms : List Method) : Prop :=
  ∀ before m after, ms = before ++ m :: after → m.offset = start + headedSize before

theorem Consecutive.tail {start : Nat} {m : Method} {rest : List Method}
    (h : Consecutive start (m :: rest)) :
    m.offset = start ∧ Consecutive (start + m.size + Image.headerSize) rest := by
  constructor
  · exact h [] m rest rfl
  · intro before m' after hrest
    have hoffset := h (m :: before) m' after (by rw [hrest, List.cons_append])
    rw [hoffset, headedSize_cons]
    omega

theorem offsetsFrom_eq {start : Nat} {ms : List Method} (h : Consecutive start ms)
    (hothers : ∀ m ∈ ms, m.isEntry = false) : offsetsFrom start ms = ms.map Method.offset := by
  induction ms generalizing start with
  | nil => rfl
  | cons m rest ih =>
    obtain ⟨hm, hrest⟩ := List.forall_mem_cons.1 hothers
    obtain ⟨hoffset, hnext⟩ := h.tail
    have hsegment : m.segmentSize = m.size + Image.headerSize := by
      rw [Method.segmentSize, hm]
      rfl
    rw [offsetsFrom, hsegment, ← Nat.add_assoc, ih hnext hrest, List.map_cons, hoffset]

/-- A method and the bytes it takes end before the text does. -/
theorem Consecutive.offset_add_size_lt {start : Nat} {ms : List Method} (h : Consecutive start ms)
    {m : Method} (hm : m ∈ ms) : m.offset + m.size < start + headedSize ms := by
  induction ms generalizing start with
  | nil => cases hm
  | cons first rest ih =>
    obtain ⟨hoffset, hnext⟩ := h.tail
    rw [headedSize_cons, Image.headerSize]
    rcases List.mem_cons.1 hm with rfl | hm
    · omega
    · have hlt := ih hnext hm
      rw [Image.headerSize] at hlt
      omega

structure Shape (p : Program) (entry : Method) (others : List Method) : Prop where
  methods : p.methods.toList = entry :: others
  isEntry : entry.isEntry = true
  notEntry : ∀ m ∈ others, m.isEntry = false
  offset : entry.offset = 0
  consecutive : Consecutive entry.size others

end Program

open Program

variable {p : Program} {entry : Method} {others : List Method}

namespace Program.Shape

theorem entry_mem (h : Shape p entry others) : entry ∈ p.methods := by
  rw [← Array.mem_toList_iff, h.methods]
  exact List.mem_cons_self

theorem mem_of_mem_others (h : Shape p entry others) {m : Method} (hm : m ∈ others) :
    m ∈ p.methods := by
  rw [← Array.mem_toList_iff, h.methods]
  exact List.mem_cons_of_mem _ hm

theorem mem_others (h : Shape p entry others) {m : Method} (hm : m ∈ p.methods)
    (hentry : m.isEntry = false) : m ∈ others := by
  rw [← Array.mem_toList_iff, h.methods] at hm
  rcases List.mem_cons.1 hm with rfl | hm
  · rw [h.isEntry] at hentry
    cases hentry
  · exact hm

theorem others_eq (h : Shape p entry others) : p.others = others := by
  rw [Program.others, h.methods, List.drop_succ_cons, List.drop_zero]

theorem size_eq (h : Shape p entry others) : p.size = entry.size + headedSize others := by
  rw [← extent_eq_size h.methods h.isEntry h.notEntry, extent, h.others_eq, h.methods]
  rfl

theorem text_eq (h : Shape p entry others) :
    p.text = entry.encoding ++ others.flatMap Method.headedEncoding := by
  rw [text, h.others_eq, h.methods, List.take_succ_cons, List.take_zero, List.flatMap_singleton]

theorem offset_add_size_le (h : Shape p entry others) {m : Method} (hm : m ∈ p.methods) :
    m.offset + m.size ≤ p.size := by
  rw [h.size_eq]
  rw [← Array.mem_toList_iff, h.methods] at hm
  rcases List.mem_cons.1 hm with rfl | hm
  · rw [h.offset]
    omega
  · exact Nat.le_of_lt (h.consecutive.offset_add_size_lt hm)

/-- What stands in a program that fits four bytes has an offset that does. -/
theorem toNat_place (h : Shape p entry others) (hsize : p.size < 2 ^ 32) {m : Method}
    (hm : m ∈ p.methods) {offset : Nat} (hoffset : offset ≤ m.size) :
    (UInt32.ofNat (m.offset + offset)).toNat = m.offset + offset := by
  have hle := h.offset_add_size_le hm
  exact UInt32.toNat_ofNat_of_lt' (show m.offset + offset < 2 ^ 32 by omega)

theorem toNat_offset (h : Shape p entry others) (hsize : p.size < 2 ^ 32) {m : Method}
    (hm : m ∈ p.methods) : (UInt32.ofNat m.offset).toNat = m.offset :=
  h.toNat_place hsize hm (Nat.zero_le _)

theorem offsets_eq (h : Shape p entry others) :
    offsetsFrom 0 p.methods.toList = p.methods.toList.map Method.offset := by
  have hsegment : entry.segmentSize = entry.size := by rw [Method.segmentSize, if_pos h.isEntry]
  rw [h.methods, offsetsFrom, hsegment, Nat.zero_add, offsetsFrom_eq h.consecutive h.notEntry,
    List.map_cons, h.offset]

/-- The names and offsets of the methods. -/
theorem methodSymbols_eq (h : Shape p entry others) :
    p.methodSymbols = Image.symbolBytes (p.methods.toList.map fun m => (m.offset, m.name)) := by
  rw [methodSymbols, h.offsets_eq, List.zipWith_map_right, List.zipWith_self, Image.symbolBytes,
    List.flatMap_map, List.flatMap_def]

/-- The names and offsets of the labels. -/
theorem labelSymbols_eq (h : Shape p entry others) :
    p.labelSymbols = Image.symbolBytes (p.methods.toList.flatMap fun m =>
      m.labels.toList.map fun l => (m.offset + l.offset, m.name ++ "#" ++ l.name)) := by
  have hmethod : ∀ m : Method, labelSymbolsOf m m.offset = Image.symbolBytes
      (m.labels.toList.map fun l => (m.offset + l.offset, m.name ++ "#" ++ l.name)) := by
    intro m
    rw [labelSymbolsOf, Image.symbolBytes, List.flatMap_map]
    rfl
  rw [labelSymbols, h.offsets_eq, List.zipWith_map_right, List.zipWith_self, ← List.flatMap_def,
    Image.symbolBytes, List.flatMap_assoc]
  exact List.flatMap_congr fun m _ => hmethod m

end Program.Shape

namespace Assembly

variable {s : Setup}

theorem Assembled.exists_shape (h : Assembled s p) (hflawless : Flawless p) :
    ∃ entry others, Shape p entry others := by
  obtain ⟨seen, hled⟩ := h.led
  obtain ⟨first, hfirst, _⟩ := hflawless.entry
  have hoffsets := hflawless.offsets
  generalize hms : p.methods.toList = ms at hled hoffsets
  cases hled with
  | nil =>
    rw [← Array.getElem?_toList, hms] at hfirst
    cases hfirst
  | @cons entry others hentry hothers =>
    refine ⟨entry, others, hms, hentry, hothers, hoffsets [] entry others rfl, ?_⟩
    intro before m after hsplit
    rw [hoffsets (entry :: before) m after (by rw [hsplit, List.cons_append]), headedSize_eq,
      List.map_cons, List.sum_cons, List.length_cons, Nat.add_sub_cancel]
    omega

theorem symbolList_methodSymbols (hflawless : Flawless p) (hshape : Shape p entry others) :
    Image.symbolList p.methodSymbols =
      .ok (p.methods.toList.map fun m => ⟨UInt32.ofNat m.offset, m.name⟩) := by
  have hnames : ∀ m ∈ p.methods.toList, '\x00' ∉ m.name.toList := by
    intro m hm
    exact Source.notMem_of_isIdentifier (hflawless.names m (Array.mem_toList_iff.1 hm)) (by decide)
  rw [hshape.methodSymbols_eq, Image.symbolList_symbolBytes, List.map_map]
  · rfl
  · rw [List.forall_mem_map]
    exact hnames

theorem Assembled.symbolList_labelSymbols (h : Assembled s p) (hflawless : Flawless p)
    (hshape : Shape p entry others) :
    Image.symbolList p.labelSymbols =
      .ok (p.methods.toList.flatMap fun m => m.labels.toList.map fun l =>
        ⟨UInt32.ofNat (m.offset + l.offset), m.name ++ "#" ++ l.name⟩) := by
  rw [hshape.labelSymbols_eq, Image.symbolList_symbolBytes, List.map_flatMap]
  · simp only [List.map_map]
    rfl
  · intro x hx
    obtain ⟨m, hm, hx⟩ := List.mem_flatMap.1 hx
    obtain ⟨l, hl, rfl⟩ := List.mem_map.1 hx
    rw [Array.mem_toList_iff] at hm hl
    have hname : '\x00' ∉ m.name.toList :=
      Source.notMem_of_isIdentifier (hflawless.names m hm) (by decide)
    have hlabel : '\x00' ∉ l.name.toList :=
      Source.notMem_of_isIdentifier (h.labelNames m hm l hl) (by decide)
    have hmark : '\x00' ∉ "#".toList := by decide
    rw [String.toList_append, String.toList_append, List.mem_append, List.mem_append, not_or, not_or]
    exact ⟨⟨hname, hmark⟩, hlabel⟩

/-- The symbols of an assembled program are read back from the blocks written for them. -/
theorem Assembled.symbolsOf_trailer (h : Assembled s p) (hflawless : Flawless p)
    (hshape : Shape p entry others) (hmethods : p.methodSymbols.length < 2 ^ 32)
    (hlabels : p.labelSymbols.length < 2 ^ 32) (withSymbols : Bool) :
    Image.symbolsOf (p.trailer withSymbols) = .ok (if withSymbols then
      some ⟨p.methods.toList.map fun m => ⟨UInt32.ofNat m.offset, m.name⟩,
        p.methods.toList.flatMap fun m => m.labels.toList.map fun l =>
          ⟨UInt32.ofNat (m.offset + l.offset), m.name ++ "#" ++ l.name⟩⟩
      else none) := by
  cases withSymbols with
  | false => rfl
  | true =>
    have hsome : (p.trailer true).isEmpty = false := by
      rw [trailer, if_pos rfl, blockBytes]
      rfl
    have hmarkers : Image.methodMarker < 2 ^ 32 ∧ Image.labelMarker < 2 ^ 32 := by decide
    have hfirst := Image.block_blockBytes hmarkers.1 hmethods
      (symbolList_methodSymbols hflawless hshape)
    have hlast := Image.block_blockBytes hmarkers.2 hlabels
      (h.symbolList_labelSymbols hflawless hshape) []
    rw [List.append_nil] at hlast
    rw [Image.symbolsOf, hsome, trailer, if_pos rfl]
    simp only [Bool.false_eq_true, ↓reduceIte, bind, Except.bind, hfirst, hlast, List.isEmpty_nil,
      Bool.not_true, pure, Except.pure]

end Assembly

end IjvmAsm
