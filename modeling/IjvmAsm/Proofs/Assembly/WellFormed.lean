import IjvmAsm.Proofs.Assembly.Definition
import IjvmAsm.Proofs.Image.RoundTrip
import IjvmAsm.Proofs.Program.Linkage

/-!
# Well-formed programs

Whatever is wrong with a source, the program that a run gives is well-formed, unless the run ended
early: blocks that are rejected, lines that are refused and a placing that stops leave nothing half
done. Each table is numbered as it stands, no name is taken twice where names matter, and offsets,
sizes and wide instructions are what the instructions before them say.
-/

namespace IjvmAsm

theorem Laid.wide_of_first {start stop : Nat} {wide after : Bool} {is : List Instruction}
    (h : Laid start wide is stop after) {i : Instruction} (hi : is[0]? = some i) :
    i.wide = wide := by
  cases h with
  | nil => cases hi
  | cons =>
    cases hi
    rfl

theorem Laid.wide_of_next {start stop : Nat} {wide after : Bool} {is : List Instruction}
    (h : Laid start wide is stop after) {k : Nat} {before i : Instruction}
    (hbefore : is[k]? = some before) (hi : is[k + 1]? = some i) :
    i.wide = before.operation.widens := by
  induction h generalizing k with
  | nil => cases hbefore
  | cons hrest ih =>
    cases k with
    | zero =>
      cases hbefore
      exact hrest.wide_of_first hi
    | succ k => exact ih hbefore hi

namespace Method

structure WellFormed (m : Method) : Prop where
  slots : ∀ (k : Nat) v, m.slots[k]? = some v → v.slot = k
  link : ∃ v, m.slots[0]? = some v ∧ v.name = linkPointer
  parameters : m.parameterCount ≤ m.slots.size
  labels : (m.labels.toList.map Label.name).Nodup
  labelNames : ∀ l ∈ m.labels, Source.isIdentifier l.name = true
  offsets : ∀ (k : Nat) i, m.instructions[k]? = some i →
    i.offset = ((m.instructions.toList.take k).map Instruction.size).sum
  size : m.size = (m.instructions.toList.map Instruction.size).sum
  places : ∀ l ∈ m.labels, (∃ i ∈ m.instructions, l.offset = i.offset) ∨ l.offset = m.size
  wide : ∀ (k : Nat) i, m.instructions[k]? = some i → (i.wide = true ↔
    ∃ j before, k = j + 1 ∧ m.instructions[j]? = some before ∧ before.operation.widens = true)

/-- The tables of a method, which the instructions have no part in. -/
structure Tidy (m : Method) : Prop where
  slots : ∀ (k : Nat) v, m.slots[k]? = some v → v.slot = k
  link : m.slots[0]? = some ⟨linkPointer, 0⟩
  parameters : m.parameterCount ≤ m.slots.size
  labels : (m.labels.toList.map Label.name).Nodup

variable {m m' : Method}

theorem Tidy.addVariable (h : m.Tidy) (name : String) : (m.addVariable name).Tidy := by
  have hpush : ∀ k : Nat, (m.addVariable name).slots[k]? =
      if k = m.slots.size then some ⟨name, m.slots.size⟩ else m.slots[k]? := fun k =>
    Array.getElem?_push
  refine ⟨fun k v hv => ?_, ?_, ?_, h.labels⟩
  · rw [hpush] at hv
    split_ifs at hv with hk
    · cases hv
      exact hk.symm
    · exact h.slots k v hv
  · have hlt := (Array.getElem?_eq_some_iff.1 h.link).1
    rw [hpush, if_neg (Nat.ne_of_lt hlt), h.link]
  · rw [Method.addVariable, Array.size_push]
    exact Nat.le_succ_of_le h.parameters

theorem Tidy.addLabel (h : m.Tidy) {name : String} {line : Nat}
    (hadd : m.addLabel name line = .ok m') : m'.Tidy := by
  unfold Method.addLabel at hadd
  cases hfind : m.findLabel? name with
  | some taken =>
    rw [hfind] at hadd
    cases hadd
  | none =>
    rw [hfind] at hadd
    cases hadd
    refine ⟨h.slots, h.link, h.parameters, ?_⟩
    rw [Array.toList_push, List.map_append]
    refine List.nodup_append'.2 ⟨h.labels, List.nodup_singleton _, ?_⟩
    rw [List.map_singleton, List.disjoint_singleton]
    intro hmem
    obtain ⟨l, hl, hname⟩ := List.mem_map.1 hmem
    rw [findLabel?, Array.find?_eq_none] at hfind
    exact hfind l (Array.mem_toList_iff.1 hl) (beq_iff_eq.2 hname)

theorem Tidy.pushAll (h : m.Tidy) {is : List Instruction} : (m.pushAll is).Tidy := by
  induction is generalizing m with
  | nil => exact h
  | cons i rest ih => exact ih ⟨h.slots, h.link, h.parameters, h.labels⟩

theorem Tidy.sealed (h : m.Tidy) : m.sealed.Tidy := by
  obtain ⟨f, hlabels⟩ := m.exists_labels_sealed
  refine ⟨h.slots, h.link, h.parameters, ?_⟩
  rw [hlabels, Array.toList_map, List.map_map]
  exact h.labels

theorem tidy_build (name : String) (parameters : List String) (line : Nat) (isEntry : Bool) :
    (build name parameters line isEntry).Tidy := by
  have hfold : ∀ (names : List String) (m : Method), m.Tidy →
      (names.foldl Method.addVariable m).Tidy := by
    intro names
    induction names with
    | nil => exact fun m h => h
    | cons first rest ih => exact fun m h => ih _ (h.addVariable first)
  have hbare : (Method.addVariable ⟨name, 0, #[], #[], #[], 0, 0, isEntry, line, false⟩
      linkPointer).Tidy := by
    refine ⟨fun k v hv => ?_, rfl, Nat.zero_le _, List.nodup_nil⟩
    cases k with
    | zero =>
      cases hv
      rfl
    | succ k => cases hv
  have hall := hfold parameters _ hbare
  exact ⟨hall.slots, hall.link, Nat.le_refl _, hall.labels⟩

theorem LaidOut.wide_iff (h : m.LaidOut) {k : Nat} {i : Instruction}
    (hi : m.instructions[k]? = some i) : i.wide = true ↔
      ∃ j before, k = j + 1 ∧ m.instructions[j]? = some before ∧
        before.operation.widens = true := by
  rw [← Array.getElem?_toList] at hi
  cases k with
  | zero =>
    rw [h.laid.wide_of_first hi]
    refine iff_of_false (by decide) ?_
    rintro ⟨j, before, hj, _⟩
    cases hj
  | succ j =>
    obtain ⟨before, hbefore⟩ : ∃ before, m.instructions.toList[j]? = some before :=
      ⟨_, List.getElem?_eq_getElem (Nat.lt_of_succ_lt (List.getElem?_eq_some_iff.1 hi).1)⟩
    rw [h.laid.wide_of_next hbefore hi]
    constructor
    · intro hwidens
      exact ⟨j, before, rfl, Array.getElem?_toList ▸ hbefore, hwidens⟩
    · rintro ⟨j', before', hj, hbefore', hwidens⟩
      cases hj
      rw [← Array.getElem?_toList, hbefore] at hbefore'
      cases hbefore'
      exact hwidens

/-- A label stands before an instruction or at the end. -/
theorem Anchored.offset_eq (h : m.Anchored) (hlaid : m.LaidOut) {l : Label} (hl : l ∈ m.labels) :
    (∃ i ∈ m.instructions, l.offset = i.offset) ∨ l.offset = m.size := by
  obtain ⟨hle, hoffset⟩ := h l hl
  rcases Nat.lt_or_eq_of_le hle with hlt | hend
  · have hat := Array.getElem?_eq_getElem hlt
    exact .inl ⟨_, Array.getElem_mem hlt, hoffset.trans (hlaid.offset_eq hat).symm⟩
  · right
    rw [hoffset, hend, hlaid.sizeBefore_size]

/-- What is known of a method as its lines left it holds when it has been linked. -/
theorem Alike.wellFormed (h : m.Alike m') (htidy : m.Tidy) (hlaid : m.LaidOut)
    (hanchored : m.Anchored) (hnames : ∀ l ∈ m.labels, Source.isIdentifier l.name = true) :
    m'.WellFormed := by
  have hlaid' := hlaid.alike h
  have hanchored' : m'.Anchored := by
    intro l hl
    rw [h.labels] at hl
    obtain ⟨hle, hoffset⟩ := hanchored l hl
    rw [h.sizeBefore_eq, hoffset, ← Array.length_toList, ← h.instructions.length_eq,
      Array.length_toList]
    exact ⟨hle, rfl⟩
  refine ⟨?_, ?_, ?_, ?_, ?_, fun k i => hlaid'.offset_eq, hlaid'.size_eq,
    fun l => hanchored'.offset_eq hlaid', fun k i => hlaid'.wide_iff⟩
  · rw [h.slots]
    exact htidy.slots
  · rw [h.slots]
    exact ⟨_, htidy.link, rfl⟩
  · rw [h.slots, h.parameterCount]
    exact htidy.parameters
  · rw [h.labels]
    exact htidy.labels
  · rw [h.labels]
    exact hnames

end Method

namespace Program

/-- A program whose methods and constants are in order. -/
structure WellFormed (p : Program) : Prop where
  entry : ∀ (k : Nat) m, p.methods[k]? = some m → (m.isEntry = true ↔ k = 0)
  lines : (p.methods.toList.map Method.line).Pairwise (· < ·)
  pool : ∃ declared callable : List Constant, p.constants.toList = declared ++ callable ∧
    (∀ c ∈ declared, c.origin = .declared ∧ Source.isIdentifier c.name = true) ∧
    (declared.map Constant.name).Nodup ∧ ∀ c ∈ callable, c.origin = .method
  methods : ∀ m ∈ p.methods, m.WellFormed

/-- Placing methods appends constants of methods to the pool. -/
theorem exists_pool_place (file : String) (index cursor : Nat) (pool : Array Constant)
    (ms : List Method) : ∃ callable : List Constant,
      (place file index cursor pool ms).pool.toList = pool.toList ++ callable ∧
        ∀ c ∈ callable, c.origin = .method := by
  induction ms generalizing index cursor pool with
  | nil => exact ⟨[], (List.append_nil _).symm, nofun⟩
  | cons m rest ih =>
    rw [place]
    cases pool.find? fun c => c.name == m.name with
    | some taken => exact ⟨[], (List.append_nil _).symm, nofun⟩
    | none =>
      obtain ⟨callable, hpool, horigin⟩ := ih (index + 1) (cursor + m.size + Image.headerSize)
        (pool.push ⟨m.name, Int32.ofNat cursor, m.line, .method⟩)
      refine ⟨⟨m.name, Int32.ofNat cursor, m.line, .method⟩ :: callable, ?_,
        List.forall_mem_cons.2 ⟨rfl, horigin⟩⟩
      dsimp only
      rw [hpool, Array.toList_push, List.append_assoc, List.singleton_append]

/-- Linking keeps the constants that are declared in front, whatever it reports. -/
theorem exists_pool_link (file : String) (p : Program)
    (hdeclared : ∀ c ∈ p.constants, c.origin = .declared) : ∃ callable : List Constant,
      (p.link file).1.constants.toList = p.constants.toList ++ callable ∧
        ∀ c ∈ callable, c.origin = .method := by
  cases hentry? : p.entry? with
  | none =>
    rw [errors_link_of_no_entry hentry?]
    exact ⟨[], (List.append_nil _).symm, nofun⟩
  | some entry =>
    obtain ⟨rest, h, hentry⟩ := exists_rest_of_entry? hentry?
    have hfilter : p.constants.filter (fun c => c.origin != .method) = p.constants := by
      rw [Array.filter_eq_self]
      intro c hc
      rw [hdeclared c hc]
      rfl
    obtain ⟨callable, hpool, horigin⟩ :=
      exists_pool_place file 0 entry.size p.constants rest
    refine ⟨callable, ?_, horigin⟩
    rw [link_of_entry h hentry, layout_eq h, hfilter]
    exact hpool

end Program

namespace Assembly

variable {s : Setup} {source : Bytes} {p : Program} {a a' : Progress} {lines : List Source.Line}

theorem kept_tidy (s : Setup) : Kept s fun _ m => m.Tidy where
  build := fun _ => Method.tidy_build
  change := by
    intro p m m' hchange _ hkept
    cases hchange with
    | slot name => exact hkept.addVariable name
    | label _ hadded => exact hkept.addLabel hadded
    | code => exact hkept.pushAll
  sealed := fun _ hkept => hkept.sealed
  constant := id

def Distinct (constants : Array Constant) : Prop :=
  (∀ c ∈ constants, Source.isIdentifier c.name = true) ∧
    (constants.toList.map Constant.name).Nodup

theorem Distinct.push {constants : Array Constant} (h : Distinct constants) {p : Program}
    (hp : p.constants = constants) {c : Constant} (hc : Declarable p c) :
    Distinct (constants.push c) := by
  obtain ⟨hnames, hdistinct⟩ := h
  refine ⟨fun c' hc' => ?_, ?_⟩
  · rcases Array.mem_push.1 hc' with hc' | rfl
    · exact hnames c' hc'
    · exact hc.named
  · have hfresh := hc.fresh
    rw [Program.findConstant?, hp, Array.find?_eq_none] at hfresh
    rw [Array.toList_push, List.map_append]
    refine List.nodup_append'.2 ⟨hdistinct, List.nodup_singleton _, ?_⟩
    rw [List.map_singleton, List.disjoint_singleton]
    intro hmem
    obtain ⟨c', hc', hname⟩ := List.mem_map.1 hmem
    exact hfresh c' (Array.mem_toList_iff.1 hc') (beq_iff_eq.2 hname)

theorem distinct_of_readLines (hread : readLines s {} lines = .ok a) :
    Distinct a.program.constants := by
  have hstart : Distinct #[] := ⟨fun c hc => absurd hc (Array.not_mem_empty c), List.nodup_nil⟩
  refine Progress.readLines_induction (P := fun a => Distinct a.program.constants) hstart
    (fun line _ b b' hb hstep => ?_) hread
  rcases (Progress.advance_of_step hstep).1.constants with hsame | ⟨c, hdeclarable, hpush⟩
  · rwa [hsame]
  · rw [hpush]
    exact hb.push rfl hdeclarable

theorem line_pushAll {m : Method} {is : List Instruction} : (m.pushAll is).line = m.line := by
  induction is generalizing m with
  | nil => rfl
  | cons i rest ih => exact ih

theorem Change.line_eq {m m' : Method} (h : Change s p m m') : m'.line = m.line := by
  cases h with
  | slot name => rfl
  | label _ hadded =>
    unfold Method.addLabel at hadded
    split at hadded
    · cases hadded
    · cases hadded
      rfl
  | code => exact line_pushAll

theorem Changes.line_eq {m m' : Method} (h : Changes s p m m') : m'.line = m.line := by
  induction h with
  | refl => rfl
  | tail _ hchange ih => rw [hchange.line_eq, ih]

theorem Turn.line_eq {line : Source.Line} {m m' : Method} (h : Turn s line a m m')
    (hsolid : Text.StartsSolid line.text.toList) : m'.line = m.line := by
  cases h with
  | statement => exact Changes.line_eq (changes_statement line.number hsolid)
  | slots _ names => exact Changes.line_eq (changes_declareAll s a.program line.number m names)
  | closing => rfl

/-- A line opens at most one method, which then stands behind the others. -/
theorem Course.map_line {line : Source.Line} {ms : List Method} (h : Course s line a ms)
    (hsolid : Text.StartsSolid line.text.toList) :
    ms.map Method.line = a.methods.map Method.line ∨
      ms.map Method.line = a.methods.map Method.line ++ [line.number] := by
  cases h with
  | same => exact .inl rfl
  | opened name parameters isEntry =>
    right
    rw [List.map_append, Method.build, foldl_addVariable]
    rfl
  | turned turn =>
    left
    rw [turn.methods_eq, List.map_append, List.map_append, List.map_singleton, List.map_singleton,
      turn.line_eq hsolid]

/-- Numbers to which a line appends nothing but its own: they are numbers of lines, and stand in
the order of the lines. -/
theorem ordered_of_readLines {R : Nat → Nat → Prop} (hR : ∀ {n n' : Nat}, n < n' → R n n')
    (numbers : Progress → List Nat) (hstart : numbers {} = [])
    (hstep : ∀ {a a' line}, Text.StartsSolid line.text.toList → a.step s line = .ok a' →
      ∃ more, numbers a' = numbers a ++ more ∧ (∀ n ∈ more, n = line.number) ∧ more.Pairwise R)
    (hnumbers : lines.Pairwise (·.number < ·.number))
    (hsolid : ∀ line ∈ lines, Text.StartsSolid line.text.toList)
    (hread : readLines s {} lines = .ok a) :
    (∀ n ∈ numbers a, ∃ line ∈ lines, line.number = n) ∧ (numbers a).Pairwise R := by
  induction lines using List.reverseRecOn generalizing a with
  | nil =>
    cases hread
    rw [hstart]
    exact ⟨nofun, .nil⟩
  | append_singleton before line ih =>
    obtain ⟨b, hbefore, hlast⟩ := Progress.readLines_snoc_eq_ok.1 hread
    obtain ⟨hordered, _, hbehind⟩ := List.pairwise_append.1 hnumbers
    obtain ⟨hmem, hpairwise⟩ := ih hordered
      (fun line hline => hsolid line (List.mem_append_left _ hline)) hbefore
    have hline : line ∈ before ++ [line] := List.mem_append_right _ List.mem_cons_self
    obtain ⟨more, hnumbers', hmore, hmorePairwise⟩ := hstep (hsolid line hline) hlast
    rw [hnumbers']
    refine ⟨List.forall_mem_append.2 ⟨fun n hn => ?_, fun n hn => ⟨line, hline, (hmore n hn).symm⟩⟩,
      List.pairwise_append.2 ⟨hpairwise, hmorePairwise, fun n hn n' hn' => ?_⟩⟩
    · obtain ⟨line', hline', hnumber⟩ := hmem n hn
      exact ⟨line', List.mem_append_left _ hline', hnumber⟩
    · rw [hmore n' hn']
      obtain ⟨line', hline', rfl⟩ := hmem n hn
      exact hR (hbehind line' hline' line List.mem_cons_self)

/-- Methods stand in the order of the lines that open them. -/
theorem lines_of_readLines (hnumbers : lines.Pairwise (·.number < ·.number))
    (hsolid : ∀ line ∈ lines, Text.StartsSolid line.text.toList)
    (hread : readLines s {} lines = .ok a) :
    (∀ n ∈ a.methods.map Method.line, ∃ line ∈ lines, line.number = n) ∧
      (a.methods.map Method.line).Pairwise (· < ·) := by
  refine ordered_of_readLines id (fun a => a.methods.map Method.line) rfl ?_ hnumbers hsolid hread
  intro a a' line hline hstep
  rcases (Progress.advance_of_step hstep).1.course.map_line hline with hsame | hopened
  · exact ⟨[], hsame.trans (List.append_nil _).symm, nofun, .nil⟩
  · exact ⟨[line.number], hopened, List.forall_mem_singleton.2 rfl, List.pairwise_singleton _ _⟩

theorem pairwise_numbered (last : Nat) (texts : List String) :
    (∀ line ∈ Source.numbered last texts, last < line.number) ∧
      (Source.numbered last texts).Pairwise (·.number < ·.number) := by
  induction texts generalizing last with
  | nil => exact ⟨nofun, .nil⟩
  | cons text rest ih =>
    obtain ⟨hbehind, hpairwise⟩ := ih (last + 1)
    refine ⟨List.forall_mem_cons.2 ⟨Nat.lt_succ_self last, fun line hline => ?_⟩,
      .cons hbehind hpairwise⟩
    exact Nat.lt_of_succ_lt (hbehind line hline)

theorem Led.isEntry_iff {seen : Bool} {ms : List Method} (h : Led seen ms) {k : Nat} {m : Method}
    (hm : ms[k]? = some m) : m.isEntry = true ↔ k = 0 := by
  cases h with
  | nil => cases hm
  | cons hentry hothers =>
    cases k with
    | zero =>
      cases hm
      exact iff_of_true hentry rfl
    | succ k =>
      rw [hothers m (List.mem_of_getElem? hm)]
      exact iff_of_false (by decide) (Nat.succ_ne_zero k)

/-- A run that does not end early gives a well-formed program, whatever it reports. -/
theorem wellFormed_of_run (hrun : (run s source).result = .ok p) : p.WellFormed := by
  obtain ⟨a, hread, hblock, rfl, _⟩ := exists_read_of_run hrun
  have hsolid : ∀ line ∈ (Source.Lines.ofBytes source).lines, Text.StartsSolid line.text.toList :=
    fun _ => startsSolid_of_mem_lines
  have hmethods := Progress.methods_of_outside hblock
  have halike := Program.forall₂_alike_link s.file a.program
  have hsound := (Progress.sound_start s).readLines hsolid hread
  obtain ⟨seen, hled⟩ := (assembled_of_run hrun).led
  refine ⟨fun k m hm => ?_, ?_, ?_, fun m' hm' => ?_⟩
  · rw [← Array.getElem?_toList] at hm
    exact hled.isEntry_iff hm
  · have hlines := (lines_of_readLines (pairwise_numbered 0 _).2 hsolid hread).2
    rw [hmethods] at hlines
    rwa [← map_eq_map_of_forall₂ (fun _ _ h => h.line.symm) halike]
  · have hdeclared := Progress.declared_of_readLines hread
    obtain ⟨hnames, hdistinct⟩ := distinct_of_readLines hread
    obtain ⟨callable, hpool, horigin⟩ := Program.exists_pool_link s.file a.program hdeclared
    refine ⟨_, callable, hpool, fun c hc => ?_, hdistinct, horigin⟩
    rw [Array.mem_toList_iff] at hc
    exact ⟨hdeclared c hc, hnames c hc⟩
  · obtain ⟨m, hm, hlinked⟩ := exists_of_mem_right halike (Array.mem_toList_iff.2 hm')
    rw [← hmethods] at hm
    have hgrown := hsound.grown m hm
    exact hlinked.wellFormed ((kept_tidy s).readLines hsolid hread m hm) hgrown.laidOut
      ((kept_anchored s).readLines hsolid hread m hm) hgrown.labelNames

/-- A constant, a label and a parameter of a name that is taken, an unknown instruction behind a
`WIDE`, a misplaced block of variables and a method that cannot be placed. -/
def faulty : Bytes := Text.unlines
  [".constant", "A 1", "A 2", ".end-constant", ".main", "x: WIDE", "x: NOPE", "HALT", ".end-main",
    ".method A(a, a)", "WIDE", "ILOAD a", ".var", "b", ".end-var", "end:", ".end-method"]

def faultyProgram : Program :=
  { constants := #[⟨"A", 1, 2, .declared⟩]
    methods := #[
      { Method.entry 5 with
        instructions := #[
          { operation := ⟨Operation.wideName, 0xC4, []⟩, arguments := [], line := 6 },
          { operation := ⟨"HALT", 0xFF, []⟩, arguments := [], line := 8, wide := true
            offset := 1 }]
        labels := #[⟨"x", 6, 0, 0⟩]
        size := 2 },
      { Method.named "A" ["a", "a"] 10 with
        instructions := #[
          { operation := ⟨Operation.wideName, 0xC4, []⟩, arguments := [], line := 11 },
          { operation := ⟨"ILOAD", 0x15, [.var]⟩, arguments := [.resolved 1], line := 12
            wide := true, offset := 1 }]
        labels := #[⟨"end", 16, 4, 2⟩]
        size := 4 }] }

theorem wellFormed_faulty : (run sampleSetup faulty).errors = 5 ∧
    (run sampleSetup faulty).result = .ok faultyProgram ∧ faultyProgram.WellFormed := by
  obtain ⟨herrors, hrun⟩ : (run sampleSetup faulty).errors = 5 ∧
      (run sampleSetup faulty).result = .ok faultyProgram := by decide +kernel
  exact ⟨herrors, hrun, wellFormed_of_run hrun⟩

end Assembly

end IjvmAsm
