import IjvmAsm.Proofs.Correspondence
import IjvmAsm.Proofs.InstructionSet.Format
import IjvmAsm.Proofs.Source.Sentence

/-!
# Definitions that are printed

An operation is printed as its opcode in hexadecimal, its mnemonic and the kinds of its operands.
Where a definition gives a set, each operation of it is printed as a line that defines it, and so
the operations, printed one a line, are a definition that gives the same tables again, in whatever
order the lines of the first one came.
-/

namespace IjvmAsm

/-! ### Opcodes as they are printed -/

theorem Numeral.toList_hex_two {n : Nat} (h : n < 256) :
    (hex 2 n).toList = [(n / 16).digitChar.toUpper, (n % 16).digitChar.toUpper] := by
  rw [hex, String.toList_ofList, Nat.toDigits_eq_if (by decide)]
  by_cases hn : n < 16
  · rw [if_pos hn, Nat.div_eq_of_lt hn, Nat.mod_eq_of_lt hn]
    rfl
  · have hhigh : n / 16 < 16 := by omega
    rw [if_neg hn, Nat.toDigits_eq_if (by decide), if_pos hhigh]
    rfl

namespace Literal

theorem isDigit_digitChar {d : Nat} (h : d < 16) : IsDigit d.digitChar.toUpper d := by
  have hall : ∀ d : Fin 16, digit? 16 (Nat.digitChar d).toUpper = some d.val := by decide
  exact digit?_sixteen_eq_some_iff.1 (hall ⟨d, h⟩)

theorem ne_underscore_of_isDigit {c : Char} {d : Nat} (h : IsDigit c d) : c ≠ '_' := by
  rintro rfl
  have hnone : digit? 16 '_' = none := by decide
  rw [digit?_sixteen_eq_some_iff.2 h] at hnone
  cases hnone

/-- The opcode of an operation is printed as a literal for it. -/
theorem denotes_hex {n : Nat} (h : n < 256) : Denotes ("0x" ++ Numeral.hex 2 n).toList n := by
  have hhigh := isDigit_digitChar (d := n / 16) (by omega)
  have hlow := isDigit_digitChar (d := n % 16) (by omega)
  rw [String.toList_append, Numeral.toList_hex_two h]
  generalize (n / 16).digitChar.toUpper = c at hhigh
  generalize (n % 16).digitChar.toUpper = d at hlow
  have hparted : '_' ∉ [c, d] := by
    simpa using ⟨(ne_underscore_of_isDigit hhigh).symm, (ne_underscore_of_isDigit hlow).symm⟩
  have hfilter : [c, d].filter (· ≠ '_') = [c, d] := by
    rw [List.filter_eq_self]
    intro e he
    simpa using fun heq : e = '_' => hparted (heq ▸ he)
  have hspelled : Spelled ('0' :: 'x' :: [c, d]) 16 [c, d] := by
    have hmark : ('x', 16) ∈ marks := by decide
    have hbased := Spelled.based hmark
      (fun hdoubled : ['_', '_'] <:+: [c, d] => hparted (hdoubled.subset List.mem_cons_self))
      (fun hlast => hparted (hlast.subset List.mem_cons_self))
    rwa [hfilter] at hbased
  have hvalued : Valued 16 [c, d] n := by
    refine ⟨[n / 16, n % 16], .cons ⟨hhigh, by omega⟩ (.cons ⟨hlow, by omega⟩ .nil), ?_⟩
    change Nat.ofDigits 16 [n % 16, n / 16] = n
    rw [Nat.ofDigits_cons, Nat.ofDigits_singleton]
    omega
  exact ⟨1, _, 16, _, n, .none nofun nofun, hspelled, nofun, hvalued, Int.one_mul _⟩

end Literal

namespace InstructionSet

variable {set : InstructionSet} {op : Operation} {ops : List Operation} {line : String}

/-- Words with single spaces between them are the words of their line. -/
theorem definitionTokens_sentence {first : String} {more : List String}
    (hfirst : DefinitionWord first) (hmore : ∀ text ∈ more, DefinitionWord text) :
    definitionTokens (Source.sentence first more) = first :: more := by
  have hline : Text.Commentless (Source.sentence first more).toList ∧
      Text.words (Source.sentence first more).toList = (first :: more).map String.toList := by
    rw [Source.toList_sentence]
    induction more generalizing first with
    | nil =>
      rw [List.flatMap_nil, List.append_nil]
      exact ⟨hfirst.commentless, Text.words_of_solid hfirst.nonempty hfirst.solid⟩
    | cons text rest ih =>
      obtain ⟨htext, hrest⟩ := List.forall_mem_cons.1 hmore
      obtain ⟨hcommentless, hwords⟩ := ih htext hrest
      rw [List.flatMap_cons, List.cons_append]
      refine ⟨hfirst.commentless.append_cons hcommentless (by decide), ?_⟩
      rw [Text.words_append_cons hfirst.nonempty hfirst.solid (by decide), hwords]
      rfl
  rw [definitionTokens, Text.beforeComment_eq_self hline.1, hline.2, List.map_map]
  exact (List.map_congr_left fun _ _ => String.ofList_toList).trans (List.map_id _)

/-- The operation can be printed and read again: its mnemonic is a word in capitals. -/
structure Printable (op : Operation) : Prop where
  word : DefinitionWord op.name
  capitals : op.name.toUpper = op.name

theorem Defines.printable (h : Defines line op) : Printable op := by
  obtain ⟨opcode, name, kinds, htokens, -, hname, -⟩ := h
  have hmem : name ∈ definitionTokens line := by
    rw [htokens]
    exact List.mem_cons_of_mem _ List.mem_cons_self
  constructor
  · rw [hname]
    exact definitionWord_toUpper hmem
  · rw [hname, toUpper_toUpper]

theorem text_eq_sentence (op : Operation) : op.text =
    Source.sentence ("0x" ++ Numeral.hex 2 op.opcode.toNat)
      (op.name :: op.operands.map OperandKind.name) := by
  rw [Operation.text, Source.sentence, List.map_cons, List.map_map, String.join_cons]
  simp only [toString, String.append_assoc]
  rfl

theorem definitionWord_of_item {text : String} (h : Source.Item text) : DefinitionWord text :=
  ⟨h.nonempty, h.solid, Text.commentless_of_notMem (h.notMem (by decide))⟩

theorem item_hex (opcode : UInt8) : Source.Item ("0x" ++ Numeral.hex 2 opcode.toNat) := by
  have hdigit : ∀ d : Fin 16, Source.isNameChar (Nat.digitChar d).toUpper = true := by decide
  have hlt := opcode.toNat_lt
  have hchars : ("0x" ++ Numeral.hex 2 opcode.toNat).toList =
      ['0', 'x', (opcode.toNat / 16).digitChar.toUpper, (opcode.toNat % 16).digitChar.toUpper] := by
    rw [String.toList_append, Numeral.toList_hex_two hlt]
    rfl
  refine ⟨by rw [hchars]; exact List.cons_ne_nil _ _, ?_⟩
  rw [hchars]
  simp only [List.forall_mem_cons]
  exact ⟨by decide, by decide, hdigit ⟨_, by omega⟩, hdigit ⟨_, by omega⟩, nofun⟩

theorem item_name (kind : OperandKind) : Source.Item kind.name := by
  have hname : Source.isIdentifier kind.name = true := by cases kind <;> decide
  exact Source.item_of_isIdentifier hname

/-- A printed operation is a line that defines it. -/
theorem Printable.defines (h : Printable op) : Defines op.text op := by
  have hwords : ∀ text ∈ op.name :: op.operands.map OperandKind.name, DefinitionWord text :=
    List.forall_mem_cons.2 ⟨h.word, List.forall_mem_map.2 fun kind _ =>
      definitionWord_of_item (item_name kind)⟩
  have hlower : ∀ kind : OperandKind, kind.name.toLower = kind.name := by
    intro kind
    have hmapped : (kind.name.map Char.toLower).toList = kind.name.toList := by
      rw [String.toList_map]
      cases kind <;> decide
    exact String.toList_inj.1 hmapped
  refine ⟨_, op.name, op.operands.map OperandKind.name, ?_,
    Literal.denotes_hex op.opcode.toNat_lt, h.capitals.symm, ?_⟩
  · rw [text_eq_sentence]
    exact definitionTokens_sentence (definitionWord_of_item (item_hex op.opcode)) hwords
  · rw [List.map_map]
    exact List.map_congr_left fun kind _ => hlower kind

/-- A printed operation is one line. -/
theorem Printable.unbroken (h : Printable op) :
    '\n' ∉ op.text.toList ∧ '\r' ∉ op.text.toList := by
  have hkinds : ∀ text ∈ op.operands.map OperandKind.name, Source.Item text :=
    List.forall_mem_map.2 fun kind _ => item_name kind
  -- Of the blanks, only spaces stand between the words.
  have hblank : ∀ c ∈ op.text.toList, Text.isBlank c = true → c = ' ' := by
    intro c hc hblank
    rw [text_eq_sentence, Source.toList_sentence, List.mem_append, List.mem_flatMap] at hc
    rcases hc with hc | ⟨text, htext, hc⟩
    · rw [(item_hex op.opcode).solid c hc] at hblank
      cases hblank
    · rcases List.mem_cons.1 hc with rfl | hc
      · rfl
      · rcases List.mem_cons.1 htext with rfl | htext
        · rw [h.word.solid c hc] at hblank
          cases hblank
        · rw [(hkinds text htext).solid c hc] at hblank
          cases hblank
  constructor
  · intro hc
    cases hblank _ hc (by decide)
  · intro hc
    cases hblank _ hc (by decide)

/-! ### Loading -/

/-- The lines of a definition that can all be decoded give a set, or faults. -/
theorem exists_reads_ofDefinition (name : String) {bytes : List UInt8} {lines : List String}
    (h : Text.Lines.ofBytes bytes = ⟨lines, true⟩) : ∃ set ops faults, Reads [] 0 lines ops faults ∧
      set.Holds ops ∧ set.name = name ∧ (ofDefinition name bytes).2 =
        if faults = [] then .ok set else .error (.refused name (faults.map (report name))) := by
  obtain ⟨ops, faults, hreads, hset, hname, hjournal⟩ :=
    exists_reads_foldl lines (r := { set := empty name }) (holds_empty name)
  refine ⟨_, ops, faults, hreads, hset, hname, ?_⟩
  have hdiagnostics : (lines.foldl Reading.step { set := empty name }).journal.diagnostics.toList =
      faults.map (report name) := hjournal
  simp only [ofDefinition, h, hdiagnostics, Bool.not_true, Bool.false_eq_true, ↓reduceIte,
    List.isEmpty_map, List.isEmpty_iff]

/-- An accepted definition can be decoded, and its lines define what the set holds. -/
theorem exists_holds_of_ofDefinition {name : String} {bytes : List UInt8}
    (h : (ofDefinition name bytes).2 = .ok set) :
    ∃ lines ops, List.Forall₂ Defines (written lines) ops ∧ set.Holds ops := by
  have hintact : Text.Lines.ofBytes bytes = ⟨(Text.Lines.ofBytes bytes).readable, true⟩ := by
    cases hlines : Text.Lines.ofBytes bytes with
    | mk readable intact =>
      cases intact with
      | true => rfl
      | false =>
        simp only [ofDefinition, hlines, Bool.not_false, ↓reduceIte] at h
        cases h
  obtain ⟨set', ops, faults, hreads, hset, -, hresult⟩ := exists_reads_ofDefinition name hintact
  rw [hresult] at h
  split_ifs at h with hfaults
  subst hfaults
  cases h
  exact ⟨_, ops, hreads.forall₂_defines, hset⟩

/-- Lines that define different operations are accepted, and give a set of these. -/
theorem exists_ofDefinition (name : String) {bytes : List UInt8} {lines : List String}
    (hlines : Text.Lines.ofBytes bytes = ⟨lines, true⟩)
    (hdefines : List.Forall₂ Defines (written lines) ops) (hdistinct : Distinct ops) :
    ∃ set, (ofDefinition name bytes).2 = .ok set ∧ set.name = name ∧ set.Holds ops := by
  obtain ⟨set, ops', faults, hreads, hset, hname, hresult⟩ := exists_reads_ofDefinition name hlines
  obtain rfl := hreads.eq_nil_of_distinct hdefines hdistinct
  have hunique : Relator.RightUnique Defines := fun _ _ _ hop hop' => hop.unique hop'
  have hsame : ops' = ops := List.right_unique_forall₂' hunique hreads.forall₂_defines hdefines
  subst hsame
  exact ⟨set, by rw [hresult, if_pos rfl], hname, hset⟩

theorem Distinct.perm {ops' : List Operation} (h : Distinct ops) (hperm : ops.Perm ops') :
    Distinct ops' :=
  ⟨((hperm.map Operation.opcode).nodup_iff).1 h.1, ((hperm.map Operation.name).nodup_iff).1 h.2⟩

/-- Sets that hold the same operations, in whatever order they came, answer alike. -/
theorem Holds.congr {set' : InstructionSet} {ops' : List Operation} (h : set.Holds ops)
    (h' : set'.Holds ops') (hperm : ops.Perm ops') : set'.operations = set.operations ∧
      (∀ name, set'.find? name = set.find? name) ∧
      ∀ opcode, set'.decode? opcode = set.decode? opcode := by
  refine ⟨?_, fun name => ?_, fun opcode => ?_⟩
  · have hasymm : ∀ op other : Operation, op ∈ set'.operations → other ∈ set.operations →
        op.opcode < other.opcode → other.opcode < op.opcode → op = other := by
      intro op other _ _ hlt hgt
      exact absurd hlt (UInt8.lt_asymm hgt)
    exact (h'.coded.trans (hperm.symm.trans h.coded.symm)).eq_of_pairwise hasymm h'.increasing
      h.increasing
  · apply Option.ext
    intro op
    rw [h'.find?_eq_some_iff, h.find?_eq_some_iff, hperm.mem_iff]
  · apply Option.ext
    intro op
    rw [h'.decode?_eq_some_iff, h.decode?_eq_some_iff, hperm.mem_iff]

/-- A set that a definition gives is given again by its operations, printed one a line. -/
theorem reloaded_ofDefinition {name : String} {bytes : List UInt8}
    (h : (ofDefinition name bytes).2 = .ok set) (copy : String) : ∃ set',
      (ofDefinition copy (Text.unlines (set.operations.map Operation.text))).2 = .ok set' ∧
      set'.name = copy ∧ set'.operations = set.operations ∧
      (∀ mnemonic, set'.find? mnemonic = set.find? mnemonic) ∧
      ∀ opcode, set'.decode? opcode = set.decode? opcode := by
  obtain ⟨lines, ops, hdefines, hset⟩ := exists_holds_of_ofDefinition h
  have hprintable : ∀ op ∈ set.operations, Printable op := by
    intro op hop
    obtain ⟨line, -, hline⟩ := exists_of_mem_right hdefines (hset.coded.mem_iff.1 hop)
    exact hline.printable
  have hread : Text.Lines.ofBytes (Text.unlines (set.operations.map Operation.text)) =
      ⟨set.operations.map Operation.text, true⟩ :=
    Text.ofBytes_unlines (List.forall_mem_map.2 fun op hop => (hprintable op hop).unbroken)
  have hlines : List.Forall₂ Defines (set.operations.map Operation.text) set.operations :=
    List.forall₂_map_left_iff.2 (List.forall₂_same.2 fun op hop => (hprintable op hop).defines)
  have hwritten : written (set.operations.map Operation.text) =
      set.operations.map Operation.text := by
    rw [written, List.filter_eq_self, List.forall_mem_map]
    intro op hop
    rw [(hprintable op hop).defines.isVacant_eq_false]
    rfl
  obtain ⟨set', hresult, hname, hset'⟩ := exists_ofDefinition copy hread
    (hwritten.symm ▸ hlines) (hset.distinct.perm hset.coded.symm)
  exact ⟨set', hresult, hname, hset.congr hset' hset.coded.symm⟩

/-- Operations that do not stand in the order of their opcodes, with opcodes in several bases and
mnemonics that hold marks. -/
def scattered : List UInt8 := Text.unlines
  ["0xFd Out // writes", "-0 a/b: LABEL Var", "", "0b1_0 'x byte"]

def scatteredSet : InstructionSet :=
  { name := "test.conf"
    named := [⟨"OUT", 0xFD, []⟩, ⟨"A/B:", 0, [.label, .var]⟩, ⟨"'X", 2, [.byte]⟩]
    coded := [⟨"A/B:", 0, [.label, .var]⟩, ⟨"'X", 2, [.byte]⟩, ⟨"OUT", 0xFD, []⟩] }

theorem reloaded_scattered : (ofDefinition "test.conf" scattered).2 = .ok scatteredSet ∧ ∃ set',
    (ofDefinition "copy.conf" (Text.unlines (scatteredSet.operations.map Operation.text))).2 =
      .ok set' ∧ set'.name = "copy.conf" ∧ set'.operations = scatteredSet.operations ∧
      (∀ mnemonic, set'.find? mnemonic = scatteredSet.find? mnemonic) ∧
      ∀ opcode, set'.decode? opcode = scatteredSet.decode? opcode := by
  have hloaded : (ofDefinition "test.conf" scattered).2 = .ok scatteredSet := by decide +kernel
  exact ⟨hloaded, reloaded_ofDefinition hloaded "copy.conf"⟩

end InstructionSet

end IjvmAsm
