import IjvmAsm.Proofs.Assembly.Atomic
import IjvmAsm.Proofs.Assembly.WellFormed

/-!
# Which slots instructions name

An operand that is a variable is the first slot of the name that its line gives. This is never the
slot of the link pointer: only a token that begins with a quote can hold a blank, so that none is
the name of this slot, whatever parameters and variables are called.
-/

namespace IjvmAsm

namespace Method

structure FirstNamed (m : Method) (name : String) (slot : Nat) : Prop where
  named : m.slots[slot]?.map Variable.name = some name
  first : ∀ k < slot, m.slots[k]?.map Variable.name ≠ some name

variable {m : Method} {name : String} {v : Variable}

theorem Tidy.firstNamed (h : m.Tidy) (hfind : m.findVariable? name = some v) :
    m.FirstNamed name v.slot := by
  obtain ⟨hname, k, hk, rfl, hbefore⟩ := Array.find?_eq_some_iff_getElem.1 hfind
  have hslot : m.slots[k].slot = k := h.slots k _ (Array.getElem?_eq_getElem hk)
  rw [hslot]
  refine ⟨?_, fun j hj => ?_⟩
  · rw [Array.getElem?_eq_getElem hk, Option.map_some, beq_iff_eq.1 hname]
  · rw [Array.getElem?_eq_getElem (by omega), Option.map_some, ne_eq, Option.some.injEq]
    simpa using hbefore j hj

/-- A variable that has been found is found again when others have been declared. -/
theorem findVariable?_addVariable (h : m.findVariable? name = some v) (other : String) :
    (m.addVariable other).findVariable? name = some v := by
  rw [findVariable?, addVariable, Array.find?_push]
  rw [findVariable?] at h
  rw [h, Option.some_or]

end Method

namespace Assembly

/-- What stands behind the label of a line, which is all of it if there is none. -/
def behindLabel (text : String) : String :=
  match splitLabel text with
  | none => text
  | some (_, rest) => rest

/-- The line asks for the operation, with these tokens for its operands. -/
def AsksFor (s : Setup) (text : String) (op : Operation) (tokens : List String) : Prop :=
  (behindLabel text).toList.head? ≠ some '#' ∧
    ∃ name, Source.tokensOf (behindLabel text) = name :: tokens ∧ s.set.find? name = some op

def Names (s : Setup) (lines : List Source.Line) (i : Instruction) (k : Nat) (token : String) :
    Prop :=
  ∃ line ∈ lines, line.number = i.line ∧
    ∃ tokens, AsksFor s line.text i.operation tokens ∧ tokens[k]? = some token

/-- The operands that are variables were found in the method by the names that a line gives. -/
def Traced (s : Setup) (lines : List Source.Line) (m : Method) (i : Instruction) : Prop :=
  ∀ k, i.operation.operands[k]? = some .var → ∃ token v, Names s lines i k token ∧
    m.findVariable? token = some v ∧ v.slot ≤ maxWideSlot ∧
    i.arguments[k]? = some (.resolved v.slot)

/-- The operand of the instruction is the first slot of the name that its line gives there, and not
that of the link pointer. -/
def Addressed (s : Setup) (lines : List Source.Line) (m : Method) (i : Instruction) (k : Nat) :
    Prop :=
  ∃ token, ∃ slot : Nat, Names s lines i k token ∧ i.arguments[k]? = some (.resolved slot) ∧
    m.FirstNamed token slot ∧ 1 ≤ slot ∧ slot < m.slots.size ∧ slot ≤ 65535

variable {s : Setup} {p : Program} {m m' : Method} {text : String} {lines : List Source.Line}
  {line : Source.Line} {i : Instruction}

theorem Traced.mono (h : Traced s lines m i)
    (hfind : ∀ token v, m.findVariable? token = some v → m'.findVariable? token = some v) :
    Traced s lines m' i := by
  intro k hk
  obtain ⟨token, v, hnames, hv, hslot, hargument⟩ := h k hk
  exact ⟨token, v, hnames, hfind token v hv, hslot, hargument⟩

theorem traced_of_notMem (h : OperandKind.var ∉ i.operation.operands) : Traced s lines m i :=
  fun _ hk => absurd (List.mem_of_getElem? hk) h

/-! ### What a line appends -/

theorem Requests.traced {op : Operation} {tokens : List String} {arguments : List Argument}
    (h : Requests s p m text op tokens arguments) (hline : line ∈ lines)
    (hbehind : behindLabel line.text = text) :
    Traced s lines m { operation := op, arguments, line := line.number } := by
  intro k hk
  have hlt : k < tokens.length := h.count ▸ (List.getElem?_eq_some_iff.1 hk).1
  have htoken : tokens[k]? = some tokens[k] := List.getElem?_eq_getElem hlt
  have hzip : (op.operands.zip tokens)[k]? = some (.var, tokens[k]) :=
    List.getElem?_zip_eq_some.2 ⟨hk, htoken⟩
  obtain ⟨argument, hargument, hstands⟩ := exists_getElem?_of_forall₂ h.stand hzip
  have hasks : AsksFor s line.text op tokens := by
    rw [AsksFor, hbehind]
    exact ⟨h.plain, h.named⟩
  cases hstands with
  | var found addressable =>
    exact ⟨_, _, ⟨line, hline, rfl, tokens, hasks, htoken⟩, found, addressable, hargument⟩

/-- What a run adds by itself has no variables for operands. -/
theorem Meaning.traced (hplain : s.set.Plain) {is : List Instruction} {warnings : List Problem}
    (h : Meaning s p m text line.number is warnings) (hline : line ∈ lines)
    (hbehind : behindLabel line.text = text) : ∀ i ∈ is, Traced s lines m i := by
  cases h with
  | narrow requests _ => exact List.forall_mem_singleton.2 (requests.traced hline hbehind)
  | widened requests _ found =>
    refine List.forall_mem_cons.2 ⟨traced_of_notMem ?_,
      List.forall_mem_singleton.2 (requests.traced hline hbehind)⟩
    rw [hplain.widener _ found]
    exact List.not_mem_nil
  | printed prints _ =>
    intro i hi
    obtain ⟨b, -, hi⟩ := List.mem_flatMap.1 hi
    rcases List.mem_pair.1 hi with rfl | rfl
    · refine traced_of_notMem ?_
      rw [hplain.push _ prints.push]
      decide
    · refine traced_of_notMem ?_
      rw [hplain.out _ prints.out]
      exact List.not_mem_nil
  | empty => exact nofun

theorem traced_pushAll {is : List Instruction} (hunplaced : ∀ i ∈ is, i.unplaced = i)
    (his : ∀ i ∈ is, Traced s lines m i) (hknown : ∀ i ∈ m.instructions, Traced s lines m i) :
    ∀ i ∈ (m.pushAll is).instructions, Traced s lines (m.pushAll is) i := by
  obtain ⟨placed, rfl, happended⟩ := m.exists_appended_pushAll hunplaced
  intro i hi
  have hsame : Traced s lines m i → Traced s lines (m.pushAll (placed.map Instruction.unplaced)) i :=
    fun h => h.mono fun token v hv => by rwa [Method.findVariable?, happended.others]
  rw [happended.instructions, ← Array.mem_toList_iff, Array.toList_appendList] at hi
  rcases List.mem_append.1 hi with hi | hi
  · exact hsame (hknown i (Array.mem_toList_iff.1 hi))
  · exact hsame (his i.unplaced (List.mem_map_of_mem hi))

theorem traced_action (hplain : s.set.Plain) (hsolid : Text.StartsSolid text.toList)
    (hline : line ∈ lines) (hbehind : behindLabel line.text = text)
    (hknown : ∀ i ∈ m.instructions, Traced s lines m i) :
    ∀ i ∈ (action s p m text line.number).1.instructions,
      Traced s lines (action s p m text line.number).1 i := by
  by_cases hempty : text = ""
  · rw [action, if_pos (String.isEmpty_iff.2 hempty)]
    exact hknown
  · have hverdict : Verdict s p m text line.number (action s p m text line.number) :=
      verdict_action hsolid hempty
    generalize action s p m text line.number = result at hverdict
    cases hverdict with
    | refused => exact hknown
    | carried meaning _ =>
      exact traced_pushAll meaning.unplaced_eq (meaning.traced hplain hline hbehind) hknown

theorem traced_statement (hplain : s.set.Plain) (hsolid : Text.StartsSolid line.text.toList)
    (hline : line ∈ lines) (hknown : ∀ i ∈ m.instructions, Traced s lines m i) :
    ∀ i ∈ (statement s p m line.text line.number).1.instructions,
      Traced s lines (statement s p m line.text line.number).1 i := by
  rw [statement]
  cases hsplit : splitLabel line.text with
  | none =>
    have hbehind : behindLabel line.text = line.text := by rw [behindLabel, hsplit]
    exact traced_action hplain hsolid hline hbehind hknown
  | some parts =>
    obtain ⟨name, rest⟩ := parts
    have hbehind : behindLabel line.text = rest := by rw [behindLabel, hsplit]
    obtain ⟨labels, hlabels⟩ := exists_labels_defineLabel s m name line.number
    dsimp only
    refine traced_action hplain (startsSolid_of_splitLabel hsplit) hline hbehind ?_
    rw [hlabels]
    exact fun i hi => (hknown i hi).mono fun _ _ hv => hv

theorem traced_declareAll {n : Nat} {names : List String}
    (hknown : ∀ i ∈ m.instructions, Traced s lines m i) :
    ∀ i ∈ (Progress.declareAll s n m names).1.instructions,
      Traced s lines (Progress.declareAll s n m names).1 i := by
  induction names generalizing m with
  | nil => exact hknown
  | cons name rest ih =>
    refine ih (m := (Progress.declare s n m name).1) ?_
    unfold Progress.declare
    split_ifs
    · exact hknown
    · exact fun i hi => (hknown i hi).mono fun _ _ hv => Method.findVariable?_addVariable hv name

theorem held_traced (hplain : s.set.Plain)
    (hsolid : ∀ line ∈ lines, Text.StartsSolid line.text.toList) :
    Held s lines fun _ m => ∀ i ∈ m.instructions, Traced s lines m i where
  build := by
    intro constants name parameters line isEntry
    rw [Method.build, foldl_addVariable]
    exact fun i hi => absurd hi (Array.not_mem_empty i)
  turn := by
    intro line a m m' hline hturn hgrown hkept
    cases hturn with
    | statement => exact traced_statement hplain (hsolid line hline) hline hkept
    | slots => exact traced_declareAll hkept
    | closing =>
      rw [hgrown.laidOut.instructions_sealed]
      exact fun i hi => (hkept i hi).mono fun _ _ hv => hv
  constant := id

/-! ### The slot of the link pointer -/

/-- No token is the name of the link pointer. -/
theorem ne_linkPointer_of_mem_tokensOf {token : String} (h : token ∈ Source.tokensOf text) :
    token ≠ Method.linkPointer := by
  rintro rfl
  obtain ⟨w, hw, hname⟩ := List.mem_map.1 h
  obtain rfl : w = Method.linkPointer.toList := by rw [← hname, String.toList_ofList]
  rcases Source.quoted_or_solid_of_mem_tokens hw with hquoted | hsolid
  · revert hquoted
    decide
  · have hblank := hsolid ' ' (by decide)
    revert hblank
    decide

theorem Names.ne_linkPointer {k : Nat} {token : String} (h : Names s lines i k token) :
    token ≠ Method.linkPointer := by
  obtain ⟨line, -, -, tokens, ⟨-, name, htokens, -⟩, htoken⟩ := h
  have hmem : token ∈ Source.tokensOf (behindLabel line.text) := by
    rw [htokens]
    exact List.mem_cons_of_mem _ (List.mem_of_getElem? htoken)
  exact ne_linkPointer_of_mem_tokensOf hmem

/-- What is known of a variable when it is read holds when the method has been linked. -/
theorem Traced.alike {i' : Instruction} (h : Traced s lines m i) (htidy : m.Tidy)
    (hm : m.Alike m') (hi : i.Alike i') {k : Nat} (hk : i'.operation.operands[k]? = some .var) :
    Addressed s lines m' i' k := by
  rw [hi.operation] at hk
  obtain ⟨token, v, hnames, hv, hslot, hargument⟩ := h k hk
  obtain ⟨argument', hargument', hkept⟩ := exists_getElem?_of_forall₂ hi.arguments hargument
  have hfirst : m'.FirstNamed token v.slot := by
    obtain ⟨hnamed, hbefore⟩ := htidy.firstNamed hv
    rw [← hm.slots] at hnamed hbefore
    exact ⟨hnamed, hbefore⟩
  obtain ⟨v', hv', hname⟩ := Option.map_eq_some_iff.1 hfirst.named
  refine ⟨token, v.slot, ?_, ?_, hfirst, Nat.one_le_iff_ne_zero.2 fun hzero => ?_,
    (Array.getElem?_eq_some_iff.1 hv').1, hslot⟩
  · rwa [Names, hi.line, hi.operation]
  · rw [hargument', hkept _ rfl]
  · rw [hm.slots, hzero, htidy.link, Option.some.injEq] at hv'
    exact hnames.ne_linkPointer (hv' ▸ hname).symm

/-- An operand that is a variable is the first slot of the name that its line gives, and not that
of the link pointer, whatever is wrong with the source. -/
theorem addressed_of_run {source : Bytes} (hplain : s.set.Plain)
    (hrun : (run s source).result = .ok p) : ∀ m ∈ p.methods, ∀ i ∈ m.instructions,
      ∀ k, i.operation.operands[k]? = some .var →
        Addressed s (Source.Lines.ofBytes source).lines m i k := by
  obtain ⟨a, hread, hblock, rfl, -⟩ := exists_read_of_run hrun
  have hsolid : ∀ line ∈ (Source.Lines.ofBytes source).lines, Text.StartsSolid line.text.toList :=
    fun _ => startsSolid_of_mem_lines
  intro m' hm' i' hi' k hk
  obtain ⟨m, hm, halike⟩ := exists_of_mem_right (Program.forall₂_alike_link s.file a.program)
    (Array.mem_toList_iff.2 hm')
  obtain ⟨i, hi, hi'⟩ := exists_of_mem_right halike.instructions (Array.mem_toList_iff.2 hi')
  rw [← Progress.methods_of_outside hblock] at hm
  have htraced := (held_traced hplain hsolid).readLines hsolid hread m hm i (Array.mem_toList_iff.1 hi)
  exact htraced.alike ((kept_tidy s).readLines hsolid hread m hm) halike hi' hk

/-- A method with parameters and a line with tokens that come close to the name of the link
pointer. -/
def crafty : Bytes := Text.unlines
  [".main", "HALT", ".end-main", ".method f(LINK PTR, 'LINK PTR', x, x)", "ILOAD LINK PTR",
    "ILOAD 'LINK PTR'", "IINC x 1", ".end-method"]

def craftyProgram : Program :=
  { constants := #[⟨"f", 1, 4, .method⟩]
    methods := #[
      { Method.entry 1 with
        instructions := #[{ operation := ⟨"HALT", 0xFF, []⟩, arguments := [], line := 2 }]
        size := 1 },
      { Method.named "f" ["LINK PTR", "'LINK PTR'", "x", "x"] 4 with
        instructions := #[
          { operation := ⟨"ILOAD", 0x15, [.var]⟩, arguments := [.resolved 2], line := 6 },
          { operation := ⟨"IINC", 0x84, [.var, .byte]⟩, arguments := [.resolved 3, .resolved 1]
            line := 7, offset := 2 }]
        size := 5
        offset := 1 }] }

theorem addressed_crafty : sampleSetup.set.Plain ∧
    (run sampleSetup crafty).result = .ok craftyProgram ∧
    ∀ m ∈ craftyProgram.methods, ∀ i ∈ m.instructions,
      ∀ k, i.operation.operands[k]? = some .var →
        Addressed sampleSetup (Source.Lines.ofBytes crafty).lines m i k := by
  have hrun : (run sampleSetup crafty).result = .ok craftyProgram := by decide +kernel
  exact ⟨InstructionSet.plain_standard, hrun,
    addressed_of_run InstructionSet.plain_standard hrun⟩

end Assembly

end IjvmAsm
