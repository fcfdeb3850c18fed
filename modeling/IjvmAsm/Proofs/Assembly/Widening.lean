import IjvmAsm.Proofs.Assembly.Probe
import IjvmAsm.Proofs.Assembly.SpelledOut

/-!
# Sources with widening spelled out

A source without errors gives the same program, and so the same image, when the operations that a
run inserts are written out in it. The source that asks for an operation with the variable in slot
256 is one in which there is something to write out. It is also one with which this goes wrong, if
the mnemonic ends in a colon: what is left behind the label is then taken for a label itself.
-/

namespace IjvmAsm.Assembly

variable {s : Setup} {p : Program} {m : Method} {a b : Progress} {lines more : List Source.Line}

section Kept

theorem spellOut_of_find?_eq_none {text : String} (hsplit : splitLabel text = none)
    (hnone : ∀ name ∈ (Source.tokensOf text).head?, s.set.find? name = none) :
    spellOut s p m text = [text] := by
  have hasks : asksWide s p m text = false := by
    rw [asksWide]
    cases htokens : Source.tokensOf text with
    | nil => exact Bool.and_false _
    | cons name tokens =>
      have hfind : s.set.find? name = none := hnone name (by rw [htokens]; rfl)
      simp only [readInstruction, hfind, Bool.and_false]
  simp [spellOut, hsplit, hasks]

/-- Lines before which nothing is inserted in any method are kept. -/
theorem spelledOut_eq_self (h : ∀ line ∈ lines, ∀ p m, spellOut s p m line.text = [line.text])
    (a : Progress) : spelledOut s a lines = lines := by
  induction lines generalizing a with
  | nil => rfl
  | cons line rest ih =>
    obtain ⟨hline, hrest⟩ := List.forall_mem_cons.1 h
    have hkept : spelledLine s a line = [line] := by
      rw [spelledLine]
      cases a.block with
      | body m started =>
        simp only [hline]
        rfl
      | _ => rfl
    rw [spelledOut, hkept]
    cases a.step s line with
    | error abort => rfl
    | ok next =>
      simp only [ih hrest]
      rfl

theorem spelledOut_append (h : readLines s a lines = .ok b) :
    spelledOut s a (lines ++ more) = spelledOut s a lines ++ spelledOut s b more := by
  induction lines generalizing a with
  | nil =>
    cases h
    rfl
  | cons line rest ih =>
    rw [readLines] at h
    cases hstep : a.step s line with
    | error abort =>
      rw [hstep] at h
      cases h
    | ok next =>
      rw [hstep] at h
      simp only [List.cons_append, spelledOut, hstep, ih h, List.append_assoc]

/-- Nothing goes wrong where no line has a second label behind its label. -/
theorem clear_of_splitLabel (h : ∀ line ∈ lines, ∀ parts, splitLabel line.text = some parts →
      splitLabel parts.2 = none) (a : Progress) : clear s a lines = true := by
  induction lines generalizing a with
  | nil => rfl
  | cons line rest ih =>
    obtain ⟨hline, hrest⟩ := List.forall_mem_cons.1 h
    have hclear : clearLine s a line = true := by
      rw [clearLine]
      cases a.block with
      | body m started =>
        cases hsplit : splitLabel line.text with
        | none => rfl
        | some parts => simp [hline parts hsplit]
      | _ => rfl
    rw [clear, hclear, Bool.true_and]
    cases a.step s line with
    | error abort => rfl
    | ok next => exact ih hrest next

end Kept

section Asking

variable {op widener : Operation}

/-- What is found in an accepted set can stand in a line, unless it looks like something else. -/
theorem nameable_of_accepted {c : Char} {body : List Char} (hset : s.set.Accepted)
    (hfind : s.set.find? op.name = some op) (hname : op.name.toList = c :: body)
    (hmark : c ≠ '#' ∧ c ≠ '\'') : op.Nameable := by
  have hsolid := (hset.spelled hfind).solid
  rw [hname] at hsolid
  rw [Operation.Nameable, hname]
  exact ⟨fun h => hmark.1 (Option.some.inj h), .bare hmark.2 hsolid⟩

def firstTokens : List String :=
  [constantsOpening, "x", Closing.constants.text, mainOpening, declarationsOpening, "y",
    Closing.declarations.text, Closing.main.text]

/-- The source that asks for the operation has the one inserted that widens. -/
structure Asks (s : Setup) (op widener : Operation) : Prop where
  auto : s.autoWide = true
  accepted : s.set.Accepted
  nameable : op.Nameable
  found : s.set.find? op.name = some op
  operands : op.operands = [.var]
  wide : s.set.find? Operation.wideName = some widener
  /-- None of the other lines begins with a mnemonic. -/
  unknown : ∀ name ∈ firstTokens, s.set.find? name = none

def spelled (op : Operation) : List String :=
  declaring ++ ["x: WIDE", String.ofList (asking op), Closing.main.text]

theorem map_text_declaring : (Source.numbered 0 declaring).map Source.Line.text = declaring := by
  have hnumbered := numbered_declaring []
  rw [List.append_nil] at hnumbered
  rw [hnumbered]
  rfl

theorem splitLabel_of_mem_declaring :
    ∀ text ∈ Closing.main.text :: declaring, splitLabel text = none := by
  have hvariables : splitLabel variablesLine = none := by
    have hcolon : ':' ∉ variablesLine.toList := by
      rw [variablesLine, String.toList_ofList]
      exact notMem_variablesText (by decide)
    rw [splitLabel, Text.cutAt_of_notMem hcolon]
  intro text htext
  simp only [declaring, List.mem_cons, List.not_mem_nil, or_false] at htext
  rcases htext with rfl | rfl | rfl | rfl | rfl | rfl | rfl | rfl
  · decide
  · decide
  · decide
  · decide
  · decide
  · decide
  · exact hvariables
  · decide

theorem mem_firstTokens : ∀ text ∈ Closing.main.text :: declaring,
    ∀ name ∈ (Source.tokensOf text).head?, name ∈ firstTokens := by
  have hvariables : (Source.tokensOf variablesLine).head? = some "y" := by
    have hsucc : variablesText 255 = ['y'] ++ ' ' :: variablesText 254 := rfl
    have hword : Source.IsWord ['y'] :=
      .bare (by decide) (List.forall_mem_singleton.2 (by decide))
    rw [Source.tokensOf, variablesLine, String.toList_ofList, hsucc,
      Source.tokens_append_cons hword (by decide)]
    rfl
  intro text htext
  simp only [declaring, List.mem_cons, List.not_mem_nil, or_false] at htext
  rcases htext with rfl | rfl | rfl | rfl | rfl | rfl | rfl | rfl
  · decide
  · decide
  · decide
  · decide
  · decide
  · decide
  · rw [hvariables]
    decide
  · decide

namespace Asks

theorem var_mem (h : Asks s op widener) : .var ∈ op.operands := by
  rw [h.operands]
  exact List.mem_singleton_self _

theorem solid (h : Asks s op widener) : ∀ c ∈ op.name.toList, Text.isBlank c = false :=
  (h.accepted.spelled h.found).solid

theorem commentless (h : Asks s op widener) : Text.Commentless op.name.toList :=
  (h.accepted.spelled h.found).commentless

theorem ofBytes_widening (h : Asks s op widener) :
    Source.Lines.ofBytes (Text.unlines (widening op)) =
      ⟨Source.numbered 0 declaring ++ [⟨8, askingLine op⟩, ⟨9, Closing.main.text⟩], true⟩ := by
  rw [Source.Lines.ofBytes, Text.ofBytes_unlines (unbroken_of_mem_widening h.solid),
    numbered_widening h.commentless h.var_mem]

theorem ofBytes_spelled (h : Asks s op widener) :
    Source.Lines.ofBytes (Text.unlines (spelled op)) =
      ⟨Source.numbered 0 declaring ++
        [⟨8, "x: WIDE"⟩, ⟨9, String.ofList (asking op)⟩, ⟨10, Closing.main.text⟩], true⟩ := by
  have hunbroken : ∀ text ∈ spelled op, '\n' ∉ text.toList ∧ '\r' ∉ text.toList := by
    intro text htext
    rcases List.mem_append.1 htext with htext | htext
    · exact unbroken_of_plain (plain_of_mem_declaring text htext)
    · simp only [List.mem_cons, List.not_mem_nil, or_false] at htext
      rcases htext with rfl | rfl | rfl
      · exact unbroken_of_plain (by decide)
      · exact unbroken_of_plain (by rw [String.toList_ofList]; exact plain_asking h.solid)
      · exact unbroken_of_plain (by decide)
  have hlines : Source.numbered 0 (spelled op) = Source.numbered 0 declaring ++
      [⟨8, Source.Line.clean "x: WIDE"⟩, ⟨9, Source.Line.clean (String.ofList (asking op))⟩,
        ⟨10, Source.Line.clean Closing.main.text⟩] := rfl
  have hclean : Source.Line.clean "x: WIDE" = "x: WIDE" ∧
      Source.Line.clean Closing.main.text = Closing.main.text := by decide
  rw [Source.Lines.ofBytes, Text.ofBytes_unlines hunbroken, hlines, hclean.1, hclean.2,
    clean_asking h.nameable h.commentless h.var_mem]

theorem map_text_spelled (h : Asks s op widener) :
    (Source.Lines.ofBytes (Text.unlines (spelled op))).lines.map Source.Line.text = spelled op := by
  rw [h.ofBytes_spelled, List.map_append, map_text_declaring]
  rfl

/-- The slot is a value, so that linking has nothing to resolve. -/
theorem pending_notMem (h : Asks s op widener) (hroomy : Roomy m) (hempty : m.instructions = #[])
    {i : Instruction} (hi : i ∈ (widened s op m).sealed.instructions) (reference : Reference) :
    .pending reference ∉ i.arguments := by
  obtain ⟨arguments, harguments, hmethod, _⟩ := statement_askingLine
    (p := ⟨#[⟨"x", 0, 2, .declared⟩], #[]⟩) h.auto h.nameable h.found h.var_mem h.wide
    constantIndex?_declared hroomy
  have hgrown : Grown s (widened s op m) := (grows_widened s op m).grown (hroomy.grown s)
  have hslot : arguments = [.resolved 256] := by
    have hx : String.ofList [token .var] = "x" := rfl
    have hread := readArguments_var (p := ⟨#[⟨"x", 0, 2, .declared⟩], #[]⟩) (m := labelled m)
      hroomy.slot hroomy.narrow h.auto
    rw [h.operands, List.map_singleton, hx, List.zip_cons_cons, List.zip_nil_left, hread] at harguments
    cases harguments
    rfl
  rw [hgrown.laidOut.instructions_sealed, widened, hmethod, hslot] at hi
  rcases Array.mem_push.1 hi with hi | rfl
  · rcases Array.mem_push.1 hi with hi | rfl
    · have hnone : i ∈ m.instructions := hi
      rw [hempty] at hnone
      exact absurd hnone (Array.not_mem_empty i)
    · exact List.not_mem_nil
  · intro hmem
    cases List.mem_singleton.1 hmem

/-- The source has no errors. -/
theorem exists_run (h : Asks s op widener) : ∃ p,
    (run s (Text.unlines (widening op))).result = .ok p ∧
      (run s (Text.unlines (widening op))).errors = 0 := by
  obtain ⟨reported, hquiet, hreads⟩ := exists_reads_widening (s := s) h.commentless h.var_mem
  obtain ⟨events, hevents, hread⟩ := hreads.readLines #[]
  obtain ⟨_, _, _, hstatement⟩ := statement_askingLine (p := ⟨#[⟨"x", 0, 2, .declared⟩], #[]⟩)
    h.auto h.nameable h.found h.var_mem h.wide constantIndex?_declared roomy_populated
  rw [numbered_widening h.commentless h.var_mem] at hread
  have hlines := h.ofBytes_widening
  obtain ⟨hresult, herrors⟩ := run_of_readLines (by rw [hlines]; exact hread) (by rw [hlines]) rfl
  refine ⟨_, hresult, ?_⟩
  rw [herrors, Nat.add_eq_zero_iff]
  constructor
  · rw [Journal.errors_eq_zero_iff, Array.toList_appendList, List.nil_append, quiet_iff_severities,
      hevents]
    exact hquiet hstatement
  · have hentry : (widened s op populated).isEntry = true := by
      rw [(grows_widened s op populated).isEntry, roomy_populated.isEntry]
    exact (Program.errors_link_eq_zero_iff _ _).2 (linkable_of_entry hentry fun i hi =>
      h.pending_notMem roomy_populated instructions_populated hi)

/-- The other source is what this one is spelled out. -/
theorem map_text_spelledOut (h : Asks s op widener) :
    (spelledOut s {} (Source.Lines.ofBytes (Text.unlines (widening op))).lines).map
      Source.Line.text = spelled op := by
  obtain ⟨reported, _, hreads⟩ := reads_declaring s
  obtain ⟨events, _, hread⟩ := hreads.readLines #[]
  have hplain : ∀ text ∈ Closing.main.text :: declaring, ∀ p m, spellOut s p m text = [text] := by
    intro text htext p m
    exact spellOut_of_find?_eq_none (splitLabel_of_mem_declaring text htext)
      fun name hname => h.unknown name (mem_firstTokens text htext name hname)
  have hfront : spelledOut s {} (Source.numbered 0 declaring) = Source.numbered 0 declaring := by
    refine spelledOut_eq_self (fun line hline p m => ?_) _
    have hmem := List.mem_map_of_mem (f := Source.Line.text) hline
    rw [map_text_declaring] at hmem
    exact hplain _ (List.mem_cons_of_mem _ hmem) p m
  have hend : ∀ a, spelledOut s a [⟨9, Closing.main.text⟩] = [⟨9, Closing.main.text⟩] := by
    refine spelledOut_eq_self (fun line hline p m => ?_)
    rw [List.mem_singleton.1 hline]
    exact hplain _ List.mem_cons_self p m
  have hasks : asksWide s ⟨#[⟨"x", 0, 2, .declared⟩], #[]⟩ populated (String.ofList (asking op)) =
      true := by
    obtain ⟨arguments, _, hread⟩ := readInstruction_asking
      (p := ⟨#[⟨"x", 0, 2, .declared⟩], #[]⟩) h.auto h.found h.var_mem h.wide constantIndex?_declared
      roomy_populated.slot roomy_populated.narrow (String.ofList (asking op))
    rw [asksWide, Bool.and_eq_true, bne_iff_ne]
    refine ⟨(head?_asking h.nameable).2, ?_⟩
    simp only [tokensOf_asking h.nameable h.var_mem, hread]
    rfl
  have hspelled : spellOut s ⟨#[⟨"x", 0, 2, .declared⟩], #[]⟩ populated (askingLine op) =
      ["x: WIDE", String.ofList (asking op)] := by
    simp only [spellOut, splitLabel_askingLine h.nameable h.var_mem, hasks, ↓reduceIte]
    rfl
  rw [h.ofBytes_widening, spelledOut_append hread, hfront, List.map_append,
    map_text_declaring, spelled]
  refine congrArg _ ?_
  rw [spelledOut, spelledLine]
  simp only [hspelled]
  cases Progress.step s _ _ with
  | error abort => rfl
  | ok next =>
    simp only [hend]
    rfl

theorem clear_widening (h : Asks s op widener)
    (hsplit : splitLabel (String.ofList (asking op)) = none) :
    clear s {} (Source.Lines.ofBytes (Text.unlines (widening op))).lines = true := by
  rw [h.ofBytes_widening]
  have hnone : ∀ text ∈ Closing.main.text :: declaring, ∀ parts, splitLabel text = some parts →
      splitLabel parts.2 = none := by
    intro text htext parts hparts
    rw [splitLabel_of_mem_declaring text htext] at hparts
    cases hparts
  refine clear_of_splitLabel (fun line hline parts hparts => ?_) _
  rcases List.mem_append.1 hline with hline | hline
  · have hmem := List.mem_map_of_mem (f := Source.Line.text) hline
    rw [map_text_declaring] at hmem
    exact hnone _ (List.mem_cons_of_mem _ hmem) parts hparts
  · simp only [List.mem_cons, List.not_mem_nil, or_false] at hline
    rcases hline with rfl | rfl
    · rw [splitLabel_askingLine h.nameable h.var_mem] at hparts
      cases hparts
      exact hsplit
    · exact hnone _ List.mem_cons_self parts hparts

/-- What is left behind the label is taken for a label and an instruction that is unknown. -/
theorem errors_run_spelled (h : Asks s op widener) {name : String}
    (hsplit : splitLabel (String.ofList (asking op)) = some (name, "x")) :
    (run s.narrow (Text.unlines (spelled op))).errors ≠ 0 := by
  obtain ⟨reported, _, hdeclares⟩ := reads_declaring s.narrow
  have hlabel : splitLabel "x: WIDE" = some ("x", "WIDE") := by decide
  obtain ⟨m, hm⟩ : ∃ m, (statement s.narrow ⟨#[⟨"x", 0, 2, .declared⟩], #[]⟩ populated
    "x: WIDE" 8).1 = m := ⟨_, rfl⟩
  obtain ⟨m', hm'⟩ : ∃ m', (statement s.narrow ⟨#[⟨"x", 0, 2, .declared⟩], #[]⟩ m
    (String.ofList (asking op)) 9).1 = m' := ⟨_, rfl⟩
  have hfirst := @passes_statement s.narrow ⟨#[⟨"x", 0, 2, .declared⟩], #[]⟩ true true true populated 8
    "x: WIDE" (isStatement_of_splitLabel hlabel)
  have hsecond := @passes_statement s.narrow ⟨#[⟨"x", 0, 2, .declared⟩], #[]⟩ true true true m 9
    (String.ofList (asking op)) (isStatement_of_splitLabel hsplit)
  rw [hm] at hfirst
  rw [hm'] at hsecond
  have hend := @passes_bodyClosing s.narrow ⟨#[⟨"x", 0, 2, .declared⟩], #[]⟩ true true true m' 10
  have hclosing : (Block.bodyClosing m').text = Closing.main.text := by
    have hgrows : Grows s.narrow populated m := by
      rw [← hm]
      refine grows_statement 8 fun c hc => ?_
      cases hc
      decide
    have hgrows' : Grows s.narrow m m' := by
      rw [← hm']
      exact grows_statement 9 (by rw [String.toList_ofList]; exact startsSolid_asking h.nameable)
    rw [Block.bodyClosing, hgrows'.isEntry, hgrows.isEntry, if_pos roomy_populated.isEntry]
  rw [hclosing] at hend
  have hreads := hdeclares.append (.cons hfirst (.cons hsecond (.cons hend (.nil _))))
  obtain ⟨events, hevents, hread⟩ := hreads.readLines #[]
  have hlines := h.ofBytes_spelled
  obtain ⟨_, herrors⟩ := run_of_readLines (by rw [hlines]; exact hread) (by rw [hlines]) rfl
  have hunknown : Severity.error ∈ severities (statement s.narrow ⟨#[⟨"x", 0, 2, .declared⟩], #[]⟩ m
      (String.ofList (asking op)) 9).2 := by
    have hfind : s.narrow.set.find? "x" = none := h.unknown "x" (by decide)
    have htokens : Source.tokensOf "x" = ["x"] := by decide
    have hinstruction : ∀ m', (action s.narrow ⟨#[⟨"x", 0, 2, .declared⟩], #[]⟩ m' "x" 9).2 =
        [s.narrow.problem 9 (.unknownInstruction "x")] := by
      intro m'
      have hplain : ¬("x".isEmpty = true) ∧ "x".toList.head? ≠ some '#' := by decide
      rw [action, if_neg hplain.1, if_neg hplain.2]
      simp only [instruction, htokens, readInstruction, hfind]
    simp only [statement, hsplit, hinstruction, severities_append]
    exact List.mem_append_right _ List.mem_cons_self
  intro hzero
  rw [herrors, Nat.add_eq_zero_iff, Journal.errors_eq_zero_iff, Array.toList_appendList,
    List.nil_append, quiet_iff_severities, hevents] at hzero
  refine hzero.1 (List.mem_append_right _ (List.mem_append_right _ (List.mem_append_left _ hunknown)))

end Asks

end Asking

/-- A source without errors gives the same program, line numbers aside, as any source that is laid
out in lines with all inserted operations written out, and so the same image or the same failure. -/
theorem run_spelledOut {source source' : Bytes}
    (hwide : ∀ op, s.set.find? Operation.wideName = some op → op.operands = [])
    (hrun : (run s source).result = .ok p) (herrors : (run s source).errors = 0)
    (hclear : clear s {} (Source.Lines.ofBytes source).lines = true)
    (hlines : (Source.Lines.ofBytes source').lines.map Source.Line.text =
      (spelledOut s {} (Source.Lines.ofBytes source).lines).map Source.Line.text)
    (hintact : (Source.Lines.ofBytes source').intact = true) :
    ∃ p', (run s.narrow source').result = .ok p' ∧ (run s.narrow source').errors = 0 ∧
      p'.unlined = p.unlined ∧ ∀ withSymbols,
        (p'.render false withSymbols).result.mapError EmissionError.unlined =
          (p.render false withSymbols).result.mapError EmissionError.unlined := by
  obtain ⟨a, hread, hblock, rfl, hcount⟩ := exists_read_of_run hrun
  rw [hcount, Nat.add_eq_zero_iff] at herrors
  obtain ⟨b, hspelled, hbefore⟩ := exists_abreast_spelledOut hwide hclear hread herrors.1
  obtain ⟨c, hread', hafter⟩ := exists_abreast_of_readLines (b := {}) rfl hlines.symm hspelled
  have habreast := hbefore.trans hafter
  obtain ⟨hresult, hcount'⟩ := run_of_readLines hread' hintact (habreast.outside hblock)
  have hprogram := habreast.program_unlined
  obtain ⟨hlink, hevents⟩ := Program.link_unlined s.file a.program
  obtain ⟨hlink', hevents'⟩ := Program.link_unlined s.file c.program
  rw [hprogram] at hlink hevents
  have hsame : (c.program.link s.file).1.unlined = (a.program.link s.file).1.unlined :=
    hlink'.symm.trans hlink
  refine ⟨(c.program.link s.file).1, hresult, ?_, hsame, fun withSymbols => ?_⟩
  · have hquiet : (c.program.link s.file).2.errors = 0 := by
      rw [Journal.errors_eq_zero_iff, ← quiet_iff_of_severities_eq (hevents.symm.trans hevents'),
        ← Journal.errors_eq_zero_iff]
      exact herrors.2
    rw [hcount', habreast.errors_eq.1 herrors.1, Nat.zero_add]
    exact hquiet
  · rw [← Program.result_render_unlined, hsame, Program.result_render_unlined]

def load : Operation := ⟨"ILOAD", 0x15, [.var]⟩

def wide : Operation := ⟨Operation.wideName, 0xC4, []⟩

def loading : Setup := { file := "t.jas", autoWide := true }

theorem found_loading : loading.set.find? load.name = some load ∧
    loading.set.find? Operation.wideName = some wide ∧
      ∀ name ∈ firstTokens, loading.set.find? name = none := by decide +kernel

theorem asks_loading : Asks loading load wide where
  auto := rfl
  accepted := .inl rfl
  nameable := nameable_of_accepted (.inl rfl) found_loading.1 rfl (by decide)
  found := found_loading.1
  operands := rfl
  wide := found_loading.2.1
  unknown := found_loading.2.2

/-- In the source that loads the variable in slot 256 an operation is inserted. -/
theorem run_spelledOut_loading :
    ∃ p, (∀ op, loading.set.find? Operation.wideName = some op → op.operands = []) ∧
      (run loading (Text.unlines (widening load))).result = .ok p ∧
      (run loading (Text.unlines (widening load))).errors = 0 ∧
      clear loading {} (Source.Lines.ofBytes (Text.unlines (widening load))).lines = true ∧
      (Source.Lines.ofBytes (Text.unlines (spelled load))).lines.map Source.Line.text =
        (spelledOut loading {} (Source.Lines.ofBytes (Text.unlines (widening load))).lines).map
          Source.Line.text ∧
      (Source.Lines.ofBytes (Text.unlines (spelled load))).intact = true ∧
      ∃ p', (run loading.narrow (Text.unlines (spelled load))).result = .ok p' ∧
        (run loading.narrow (Text.unlines (spelled load))).errors = 0 ∧ p'.unlined = p.unlined ∧
        ∀ withSymbols, (p'.render false withSymbols).result.mapError EmissionError.unlined =
          (p.render false withSymbols).result.mapError EmissionError.unlined := by
  have hwide : ∀ op, loading.set.find? Operation.wideName = some op → op.operands = [] := by
    intro op hop
    cases hop.symm.trans asks_loading.wide
    rfl
  obtain ⟨p, hrun, herrors⟩ := asks_loading.exists_run
  have hclear := asks_loading.clear_widening (by decide)
  have hlines := asks_loading.map_text_spelled.trans asks_loading.map_text_spelledOut.symm
  have hintact := congrArg Source.Lines.intact asks_loading.ofBytes_spelled
  exact ⟨p, hwide, hrun, herrors, hclear, hlines, hintact,
    run_spelledOut hwide hrun herrors hclear hlines hintact⟩

/-- A definition with a mnemonic that ends in a colon. -/
def colon : Bytes := Utf8.encode "0x10 B: var\n0xC4 WIDE\n"

def colonLoad : Operation := ⟨"B:", 0x10, [.var]⟩

def colonSet : InstructionSet :=
  ⟨"colon.isa", [colonLoad, wide], [colonLoad, wide]⟩

def colonLoading : Setup := { file := "t.jas", set := colonSet, autoWide := true }

theorem ofDefinition_colon : (InstructionSet.ofDefinition "colon.isa" colon).2 = .ok colonSet := by
  decide +kernel

theorem found_colonLoading : colonLoading.set.find? colonLoad.name = some colonLoad ∧
    colonLoading.set.find? Operation.wideName = some wide ∧
      ∀ name ∈ firstTokens, colonLoading.set.find? name = none := by decide +kernel

theorem asks_colonLoading : Asks colonLoading colonLoad wide where
  auto := rfl
  accepted := .inr ⟨_, _, ofDefinition_colon⟩
  nameable :=
    nameable_of_accepted (.inr ⟨_, _, ofDefinition_colon⟩) found_colonLoading.1 rfl (by decide)
  found := found_colonLoading.1
  operands := rfl
  wide := found_colonLoading.2.1
  unknown := found_colonLoading.2.2

/-- With such a mnemonic the source that is spelled out has an error, though the other has none. -/
theorem errors_spelled_colon :
    (InstructionSet.ofDefinition "colon.isa" colon).2 = .ok colonSet ∧
      (∀ op, colonSet.find? Operation.wideName = some op → op.operands = []) ∧
      (∃ p, (run colonLoading (Text.unlines (widening colonLoad))).result = .ok p ∧
        (run colonLoading (Text.unlines (widening colonLoad))).errors = 0) ∧
      (Source.Lines.ofBytes (Text.unlines (spelled colonLoad))).lines.map Source.Line.text =
        (spelledOut colonLoading {}
          (Source.Lines.ofBytes (Text.unlines (widening colonLoad))).lines).map Source.Line.text ∧
      (run colonLoading.narrow (Text.unlines (spelled colonLoad))).errors ≠ 0 := by
  have hwide : ∀ op, colonSet.find? Operation.wideName = some op → op.operands = [] := by
    intro op hop
    cases hop.symm.trans asks_colonLoading.wide
    rfl
  have hsplit : splitLabel (String.ofList (asking colonLoad)) = some ("B", "x") := by decide
  exact ⟨ofDefinition_colon, hwide, asks_colonLoading.exists_run,
    asks_colonLoading.map_text_spelled.trans asks_colonLoading.map_text_spelledOut.symm,
    asks_colonLoading.errors_run_spelled hsplit⟩

end IjvmAsm.Assembly
