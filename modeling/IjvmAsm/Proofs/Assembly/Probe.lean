import IjvmAsm.Proofs.Assembly.Assembled
import IjvmAsm.Proofs.Assembly.Passing

/-!
# Probes

Two sources that show what a run does with the operations of an instruction set: one prints a
character, the other asks for an operation with a variable that is too far away for a byte.
-/

namespace IjvmAsm.Assembly

variable {s : Setup} {p : Program} {closed seen : Bool} {journal : Journal} {m : Method}

/-- Instructions of methods that have been read are instructions of a program that a run gives,
references aside. -/
theorem exists_run_of_readLines {texts : List String}
    (hplain : ∀ text ∈ texts, '\n' ∉ text.toList ∧ '\r' ∉ text.toList)
    (hread : readLines s {} (Source.numbered 0 texts) = .ok ⟨p, closed, seen, .outside, journal⟩) :
    ∃ q, (run s (Text.unlines texts)).result = .ok q ∧
      ∀ m ∈ p.methods, ∀ i ∈ m.instructions, ∃ m' ∈ q.methods, ∃ i' ∈ m'.instructions, i.Alike i' := by
  refine ⟨(p.link s.file).1, ?_, fun m hm i hi => ?_⟩
  · rw [run, Source.Lines.ofBytes, Text.ofBytes_unlines hplain]
    simp only [hread, ↓reduceIte]
    rfl
  · obtain ⟨m', hm', hmethod⟩ :=
      exists_of_mem_left (Program.forall₂_alike_link s.file p) (Array.mem_toList_iff.2 hm)
    obtain ⟨i', hi', halike⟩ :=
      exists_of_mem_left hmethod.instructions (Array.mem_toList_iff.2 hi)
    exact ⟨m', Array.mem_toList_iff.1 hm', i', Array.mem_toList_iff.1 hi', halike⟩

/-- An entry method without references can be linked. -/
theorem linkable_of_entry {constants : Array Constant} (hentry : m.isEntry = true)
    (hresolved : ∀ i ∈ m.sealed.instructions, ∀ reference, .pending reference ∉ i.arguments) :
    Program.Linkable ⟨constants, #[m.sealed]⟩ where
  entry := ⟨m.sealed, rfl, hentry⟩
  distinct := List.nodup_nil
  fresh := nofun
  labels := by
    intro m' hm i hi name hmem
    rw [Array.mem_singleton.1 hm] at hi
    exact absurd hmem (hresolved i hi _)
  calls := by
    intro m' hm i hi name hmem
    rw [Array.mem_singleton.1 hm] at hi
    exact absurd hmem (hresolved i hi _)

def printing : List String := [mainOpening, "#print \"a\"", Closing.main.text]

theorem readLines_printing {push out : Operation}
    (hpush : s.set.find? InstructionSet.pushName = some push)
    (hout : s.set.find? InstructionSet.outName = some out) : ∃ journal,
    readLines s {} (Source.numbered 0 printing) =
      .ok ⟨⟨#[], #[(pushBytes push out 2 (.entry 1) [0x61]).sealed]⟩, false, true, .outside, journal⟩ := by
  have hlines : Source.numbered 0 printing =
      [⟨1, mainOpening⟩, ⟨2, "#print \"a\""⟩, ⟨3, Closing.main.text⟩] := by decide
  have hsplit : splitLabel "#print \"a\"" = none := by decide
  have hdirective : splitDirective "#print \"a\"" = (printName, "\"a\"") := by decide
  have hdecode : Source.Quoted.decode "\"a\"" = .ok [0x61] := by rfl
  have hstatement : (statement s {} (.entry 1) "#print \"a\"" 2).1 =
      pushBytes push out 2 (.entry 1) [0x61] := by
    have haction : "#print \"a\"".toList.head? = some '#' := by decide
    have hempty : "#print \"a\"".isEmpty = false := by decide
    have hsome : "\"a\"".isEmpty = false := by decide
    simp only [statement, hsplit, action, hempty, Bool.false_eq_true, ↓reduceIte, haction, directive,
      hdirective, print, hsome, hdecode, hpush, hout, List.isEmpty_cons]
  have hisStatement : IsStatement "#print \"a\"" := by
    refine ⟨by decide, fun closing => ?_, by decide⟩
    cases closing <;> decide
  have hline := @passes_statement s {} false true false (.entry 1) 2 _ hisStatement
  rw [hstatement] at hline
  have hend := @passes_bodyClosing s {} false true true (pushBytes push out 2 (.entry 1) [0x61]) 3
  have hclosing : (Block.bodyClosing (pushBytes push out 2 (.entry 1) [0x61])).text =
      Closing.main.text := rfl
  rw [hclosing] at hend
  have hreads := Reads.cons (@passes_mainOpening s {} false 1)
    (.cons hline (.cons hend (.nil _)))
  obtain ⟨events, _, hread⟩ := hreads.readLines #[]
  rw [hlines]
  exact ⟨_, hread⟩

/-- A token for each kind of operand; `x` names a constant, a label and a variable. -/
def token : OperandKind → Char
  | .byte => '0'
  | .label | .var | .method | .constant => 'x'

def tokenText (kinds : List OperandKind) : List Char := kinds.flatMap fun kind => [' ', token kind]

/-- What asks for the operation. A label stands before it, so that a colon in the mnemonic ends
none. -/
def asking (op : Operation) : List Char := op.name.toList ++ tokenText op.operands

def askingLine (op : Operation) : String := String.ofList ('x' :: ':' :: ' ' :: asking op)

def variablesText (count : Nat) : List Char := (List.replicate count ['y', ' ']).flatten ++ ['x']

def variablesLine : String := String.ofList (variablesText 255)

def declaring : List String :=
  [constantsOpening, "x 0", Closing.constants.text, mainOpening, declarationsOpening, variablesLine,
    Closing.declarations.text]

/-- Asks for the operation with the variable in slot 256. -/
def widening (op : Operation) : List String :=
  [constantsOpening, "x 0", Closing.constants.text, mainOpening, declarationsOpening, variablesLine,
    Closing.declarations.text, askingLine op, Closing.main.text]

/-- An entry method without instructions and labels, with `x` in slot 256. -/
structure Roomy (m : Method) : Prop where
  slot : m.findVariable? "x" = some ⟨"x", 256⟩
  narrow : m.widensNext = false
  labels : m.labels = #[]
  isEntry : m.isEntry = true
  grown : ∀ s, Grown s m

theorem words_variablesText (count : Nat) :
    Text.words (variablesText count) = List.replicate count ['y'] ++ [['x']] := by
  induction count with
  | zero => decide
  | succ count ih =>
    have hsucc : variablesText (count + 1) = ['y'] ++ ' ' :: variablesText count := by
      rw [variablesText, List.replicate_succ, List.flatten_cons, List.append_assoc]
      rfl
    have hsolid : ∀ c ∈ ['y'], Text.isBlank c = false := List.forall_mem_singleton.2 (by decide)
    rw [hsucc, Text.words_append_cons (List.cons_ne_nil _ _) hsolid (by decide), ih,
      List.replicate_succ, List.cons_append]

theorem mem_variablesText {count : Nat} {c : Char} (h : c ∈ variablesText count) :
    c = 'y' ∨ c = ' ' ∨ c = 'x' := by
  rw [variablesText, List.mem_append, List.mem_flatten] at h
  rcases h with ⟨piece, hpiece, hmem⟩ | hmem
  · rw [(List.mem_replicate.1 hpiece).2] at hmem
    rcases List.mem_cons.1 hmem with rfl | hmem
    · exact .inl rfl
    · exact .inr (.inl (List.mem_singleton.1 hmem))
  · exact .inr (.inr (List.mem_singleton.1 hmem))

theorem notMem_variablesText {count : Nat} {c : Char} (hc : c ≠ 'y' ∧ c ≠ ' ' ∧ c ≠ 'x') :
    c ∉ variablesText count := by
  intro hmem
  rcases mem_variablesText hmem with h | h | h
  · exact hc.1 h
  · exact hc.2.1 h
  · exact hc.2.2 h

theorem clean_variablesLine : Source.Line.clean variablesLine = variablesLine := by
  have hslash : '/' ∉ variablesText 255 := notMem_variablesText (by decide)
  have hfirst : Text.StartsSolid (variablesText 255) := by
    intro c hc
    cases hc
    decide
  have hlast : Text.StartsSolid (variablesText 255).reverse := by
    intro c hc
    rw [variablesText, List.reverse_append] at hc
    cases hc
    decide
  rw [Source.Line.clean, variablesLine, String.toList_ofList,
    Text.beforeComment_eq_self (Text.commentless_of_notMem hslash),
    Text.trimBlanks_eq_self hfirst hlast]

theorem findVariable?_replicate (count : Nat) (hnone : m.findVariable? "x" = none) :
    ((List.replicate count "y").foldl Method.addVariable m).findVariable? "x" = none ∧
      ((List.replicate count "y").foldl Method.addVariable m).slots.size = m.slots.size + count := by
  induction count generalizing m with
  | zero => exact ⟨hnone, rfl⟩
  | succ count ih =>
    have hnext : (m.addVariable "y").findVariable? "x" = none := by
      rw [Method.findVariable?] at hnone ⊢
      rw [Method.addVariable, Array.find?_push, hnone]
      rfl
    obtain ⟨hfind, hsize⟩ := ih hnext
    rw [List.replicate_succ, List.foldl_cons]
    refine ⟨hfind, ?_⟩
    rw [hsize, Method.addVariable, Array.size_push]
    omega

def populated : Method := (List.replicate 255 "y" ++ ["x"]).foldl Method.addVariable (.entry 4)

theorem roomy_populated : Roomy populated := by
  obtain ⟨hfind, hsize⟩ := findVariable?_replicate 255 (m := .entry 4) (by decide)
  have hslot : populated.findVariable? "x" = some ⟨"x", 256⟩ := by
    rw [Method.findVariable?] at hfind ⊢
    rw [populated, List.foldl_append, List.foldl_cons, List.foldl_nil, Method.addVariable,
      Array.find?_push, hfind, hsize]
    rfl
  refine ⟨hslot, ?_, ?_, ?_, fun s => ?_⟩ <;> rw [populated, foldl_addVariable]
  · rfl
  · rfl
  · rfl
  · exact ⟨⟨.nil 0 false, fun _ h => absurd h (Array.not_mem_empty _)⟩,
      fun _ h => absurd h (Array.not_mem_empty _), fun _ h => absurd h (Array.not_mem_empty _)⟩

theorem instructions_populated : populated.instructions = #[] := by
  rw [populated, foldl_addVariable]
  rfl

theorem isBlank_token (kind : OperandKind) : Text.isBlank (token kind) = false := by
  cases kind <;> decide

theorem tokens_blank (cs : List Char) : Source.tokens (' ' :: cs) = Source.tokens cs :=
  ((Source.parted_tokens cs).cons_blank (by decide)).tokens_eq

theorem tokens_tokenText (kinds : List OperandKind) :
    Source.tokens (tokenText kinds) = kinds.map fun kind => [token kind] := by
  induction kinds with
  | nil => rfl
  | cons kind kinds ih =>
    have hcons : tokenText (kind :: kinds) = ' ' :: ([token kind] ++ tokenText kinds) := rfl
    have hquote : token kind ≠ '\'' := by cases kind <;> decide
    rw [hcons, tokens_blank, List.map_cons, ← ih]
    cases kinds with
    | nil => cases kind <;> decide
    | cons next more =>
      have hnext : tokenText (next :: more) = ' ' :: (token next :: tokenText more) := rfl
      have hword : Source.IsWord [token kind] :=
        .bare hquote (List.forall_mem_singleton.2 (isBlank_token kind))
      rw [hnext, Source.tokens_append_cons hword (by decide), tokens_blank]

/-- Names are declared even where they are taken. -/
theorem declareAll_of_isIdentifier {line : Nat} {names : List String}
    (hnames : ∀ name ∈ names, Source.isIdentifier name = true) :
    (Progress.declareAll s line m names).1 = names.foldl Method.addVariable m ∧
      Quiet (Progress.declareAll s line m names).2 := by
  induction names generalizing m with
  | nil => exact ⟨rfl, quiet_nil⟩
  | cons name rest ih =>
    obtain ⟨hname, hrest⟩ := List.forall_mem_cons.1 hnames
    have hdeclare : (Progress.declare s line m name).1 = m.addVariable name ∧
        Quiet (Progress.declare s line m name).2 := by
      simp only [Progress.declare, hname, Bool.not_true, Bool.false_eq_true, ↓reduceIte]
      cases m.findVariable? name with
      | none => exact ⟨trivial, quiet_cons.2 ⟨rfl, quiet_nil⟩⟩
      | some first => exact ⟨trivial, quiet_cons.2 ⟨rfl, quiet_cons.2 ⟨rfl, quiet_nil⟩⟩⟩
    obtain ⟨hmethod, hquiet⟩ := ih hrest
    rw [List.foldl_cons, ← hdeclare.1]
    exact ⟨hmethod, quiet_append.2 ⟨hdeclare.2, hquiet⟩⟩

theorem readArguments_tokens (hindex : p.constantIndex? "x" = some 0)
    (hslot : m.findVariable? "x" = some ⟨"x", 256⟩) (hnarrow : m.widensNext = false)
    (hauto : s.autoWide = true) (kinds : List OperandKind) : ∃ arguments,
    readArguments s p m (kinds.zip (kinds.map fun kind => String.ofList [token kind])) =
      .ok (arguments, kinds.contains .var) := by
  induction kinds with
  | nil => exact ⟨[], rfl⟩
  | cons kind kinds ih =>
    obtain ⟨arguments, hrest⟩ := ih
    have hfirst : ∃ argument, readArgument s p m kind (String.ofList [token kind]) =
        .ok (argument, kind == .var) := by
      have hx : String.ofList ['x'] = "x" := rfl
      cases kind with
      | byte => exact ⟨.resolved 0, rfl⟩
      | label => exact ⟨_, rfl⟩
      | method => exact ⟨_, rfl⟩
      | constant =>
        simp only [token, hx, readArgument, hindex]
        exact ⟨_, rfl⟩
      | var =>
        simp [token, hx, readArgument, slotArgument, hslot, hnarrow, hauto, maxWideSlot,
          maxNarrowSlot]
    obtain ⟨argument, hfirst⟩ := hfirst
    refine ⟨argument :: arguments, ?_⟩
    have hsymm : (OperandKind.var == kind) = (kind == OperandKind.var) := BEq.comm
    rw [List.map_cons, List.zip_cons_cons, readArguments, hfirst, hrest, List.contains_cons, hsymm]
    rfl

/-- The instruction asks for the slot itself. -/
theorem readArguments_var (hslot : m.findVariable? "x" = some ⟨"x", 256⟩)
    (hnarrow : m.widensNext = false) (hauto : s.autoWide = true) :
    readArguments s p m [(.var, "x")] = .ok ([.resolved 256], true) := by
  have hread : readArgument s p m .var "x" = .ok (.resolved 256, true) := by
    simp [readArgument, slotArgument, hslot, hnarrow, hauto, maxWideSlot, maxNarrowSlot]
  rw [readArguments, hread]
  rfl

section Widening

variable {op widener : Operation}

theorem startsSolid_asking (hname : op.Nameable) : Text.StartsSolid (asking op) := by
  obtain ⟨c, rest, hc, hsolid⟩ := hname.2.exists_head
  intro d hd
  rw [asking, hc] at hd
  cases hd
  exact hsolid

theorem startsSolid_reverse_asking (hvar : .var ∈ op.operands) (front : List Char) :
    Text.StartsSolid (front ++ asking op).reverse := by
  rcases List.eq_nil_or_concat' op.operands with hnil | ⟨kinds, kind, hkinds⟩
  · rw [hnil] at hvar
    cases hvar
  · intro d hd
    rw [asking, hkinds, tokenText, List.flatMap_append, List.flatMap_singleton, List.reverse_append,
      List.reverse_append, List.reverse_append, List.append_assoc, List.append_assoc] at hd
    cases hd
    exact isBlank_token kind

theorem tokenText_of_mem (hvar : .var ∈ op.operands) :
    ∃ rest, tokenText op.operands = ' ' :: rest ∧ Text.Commentless rest := by
  have hslash : '/' ∉ tokenText op.operands := by
    rw [tokenText, List.mem_flatMap]
    rintro ⟨kind, _, hmem⟩
    cases kind <;> revert hmem <;> decide
  cases hkinds : op.operands with
  | nil =>
    rw [hkinds] at hvar
    cases hvar
  | cons kind kinds =>
    rw [hkinds] at hslash
    refine ⟨token kind :: tokenText kinds, rfl, Text.commentless_of_notMem fun hmem => ?_⟩
    exact hslash (List.mem_cons_of_mem _ hmem)

theorem commentless_asking (hplain : Text.Commentless op.name.toList) (hvar : .var ∈ op.operands) :
    Text.Commentless (asking op) := by
  obtain ⟨rest, hrest, hcommentless⟩ := tokenText_of_mem hvar
  rw [asking, hrest]
  exact hplain.append_cons hcommentless (by decide)

theorem clean_asking (hname : op.Nameable) (hplain : Text.Commentless op.name.toList)
    (hvar : .var ∈ op.operands) :
    Source.Line.clean (String.ofList (asking op)) = String.ofList (asking op) := by
  rw [Source.Line.clean, String.toList_ofList,
    Text.beforeComment_eq_self (commentless_asking hplain hvar),
    Text.trimBlanks_eq_self (startsSolid_asking hname) (startsSolid_reverse_asking hvar [])]

theorem clean_askingLine (hplain : Text.Commentless op.name.toList) (hvar : .var ∈ op.operands) :
    Source.Line.clean (askingLine op) = askingLine op := by
  have hlabel : Text.Commentless ['x', ':'] := Text.commentless_of_notMem (by decide)
  have hline : Text.Commentless ('x' :: ':' :: ' ' :: asking op) :=
    hlabel.append_cons (commentless_asking hplain hvar) (by decide)
  have hlast := startsSolid_reverse_asking hvar ['x', ':', ' ']
  have hfirst : Text.StartsSolid ('x' :: ':' :: ' ' :: asking op) := by
    intro c hc
    cases hc
    decide
  rw [Source.Line.clean, askingLine, String.toList_ofList, Text.beforeComment_eq_self hline,
    Text.trimBlanks_eq_self hfirst hlast]

theorem tokensOf_asking (hname : op.Nameable) (hvar : .var ∈ op.operands) :
    Source.tokensOf (String.ofList (asking op)) =
      op.name :: op.operands.map fun kind => String.ofList [token kind] := by
  obtain ⟨rest, hrest, _⟩ := tokenText_of_mem hvar
  have htokens := tokens_tokenText op.operands
  rw [hrest, tokens_blank] at htokens
  rw [Source.tokensOf, String.toList_ofList, asking, hrest,
    Source.tokens_append_cons hname.2 (by decide), htokens, List.map_cons, String.ofList_toList,
    List.map_map]
  rfl

theorem splitLabel_askingLine (hname : op.Nameable) (hvar : .var ∈ op.operands) :
    splitLabel (askingLine op) = some ("x", String.ofList (asking op)) := by
  have hcut : Text.cutAt (· == ':') ('x' :: ':' :: ' ' :: asking op) =
      some (['x'], ' ' :: asking op) := rfl
  have htrim : Text.trimBlanks (' ' :: asking op) = asking op := by
    rw [Text.trimBlanks, List.dropWhile_cons_of_pos (by decide), ← Text.trimBlanks]
    exact Text.trimBlanks_eq_self (startsSolid_asking hname) (startsSolid_reverse_asking hvar [])
  rw [splitLabel, askingLine, String.toList_ofList, hcut]
  simp only [htrim]
  rfl

def labelled (m : Method) : Method :=
  { m with labels := #[⟨"x", 8, m.size, m.instructions.size⟩] }

/-- The instruction asks for the operation that widens. -/
theorem constantIndex?_declared :
    (⟨#[⟨"x", 0, 2, .declared⟩], #[]⟩ : Program).constantIndex? "x" = some 0 := by decide +kernel

theorem readInstruction_asking (hauto : s.autoWide = true)
    (hfind : s.set.find? op.name = some op) (hvar : .var ∈ op.operands)
    (hwide : s.set.find? Operation.wideName = some widener)
    (hindex : p.constantIndex? "x" = some 0) (hslot : m.findVariable? "x" = some ⟨"x", 256⟩)
    (hnarrow : m.widensNext = false) (text : String) :
    ∃ arguments,
      readArguments s p m
        (op.operands.zip (op.operands.map fun kind => String.ofList [token kind])) =
          .ok (arguments, true) ∧
      readInstruction s p m text op.name
        (op.operands.map fun kind => String.ofList [token kind]) =
          .ok ⟨op, arguments, some widener⟩ := by
  obtain ⟨arguments, harguments⟩ := readArguments_tokens hindex hslot hnarrow hauto op.operands
  rw [List.contains_iff_mem.2 hvar] at harguments
  refine ⟨arguments, harguments, ?_⟩
  simp only [readInstruction, hfind, List.length_map, ne_eq, not_true_eq_false, ↓reduceIte,
    harguments, hwide]

theorem head?_asking (hname : op.Nameable) :
    (String.ofList (asking op)).isEmpty = false ∧
      (String.ofList (asking op)).toList.head? ≠ some '#' := by
  obtain ⟨c, rest, hc, _⟩ := hname.2.exists_head
  have hasking : asking op = c :: (rest ++ tokenText op.operands) := by rw [asking, hc]; rfl
  constructor
  · rw [hasking]
    simp
  · rw [String.toList_ofList, hasking, List.head?_cons, ← List.head?_cons (l := rest), ← hc]
    exact hname.1

/-- Behind the label of the line an operation is inserted that widens. -/
theorem statement_askingLine (hauto : s.autoWide = true) (hname : op.Nameable)
    (hfind : s.set.find? op.name = some op) (hvar : .var ∈ op.operands)
    (hwide : s.set.find? Operation.wideName = some widener)
    (hindex : p.constantIndex? "x" = some 0) (hroomy : Roomy m) :
    ∃ arguments,
      readArguments s p (labelled m)
        (op.operands.zip (op.operands.map fun kind => String.ofList [token kind])) =
          .ok (arguments, true) ∧
      (statement s p m (askingLine op) 8).1 =
        ((labelled m).push { operation := widener, arguments := [], line := 8 }).push
          { operation := op, arguments, line := 8 } ∧
      Quiet (statement s p m (askingLine op) 8).2 := by
  have hlabel : ∃ text, defineLabel s m "x" 8 = (labelled m, [.remark .debug text]) := by
    have hidentifier : Source.isIdentifier "x" = true := by decide
    have hfree : m.addLabel "x" 8 = .ok (labelled m) := by
      simp only [Method.addLabel, Method.findLabel?, hroomy.labels]
      rfl
    simp only [defineLabel, hidentifier, Bool.not_true, Bool.false_eq_true, ↓reduceIte, hfree]
    exact ⟨_, rfl⟩
  obtain ⟨text, hlabel⟩ := hlabel
  obtain ⟨hempty, hdirective⟩ := head?_asking hname
  obtain ⟨arguments, harguments, hread⟩ := readInstruction_asking (p := p) (m := labelled m) hauto
    hfind hvar hwide hindex hroomy.slot hroomy.narrow (String.ofList (asking op))
  refine ⟨arguments, harguments, ?_⟩
  simp only [statement, splitLabel_askingLine hname hvar, hlabel, action, hempty,
    Bool.false_eq_true, ↓reduceIte, hdirective, instruction, tokensOf_asking hname hvar, hread,
    Reading.perform]
  exact ⟨trivial, by simp [Event.isError]⟩

theorem numbered_declaring (more : List String) : Source.numbered 0 (declaring ++ more) =
    [⟨1, constantsOpening⟩, ⟨2, "x 0"⟩, ⟨3, Closing.constants.text⟩, ⟨4, mainOpening⟩,
      ⟨5, declarationsOpening⟩, ⟨6, variablesLine⟩, ⟨7, Closing.declarations.text⟩] ++
        Source.numbered 7 more := by
  have hopenings : Source.Line.clean constantsOpening = constantsOpening ∧
      Source.Line.clean mainOpening = mainOpening ∧
      Source.Line.clean declarationsOpening = declarationsOpening := by decide
  have hclosings : ∀ closing : Closing, Source.Line.clean closing.text = closing.text := by
    intro closing
    cases closing <;> decide
  have hlines : Source.Line.clean "x 0" = "x 0" ∧
      Source.Line.clean variablesLine = variablesLine := ⟨by decide, clean_variablesLine⟩
  simp only [declaring, List.cons_append, List.nil_append, Source.numbered, hopenings, hclosings,
    hlines, Nat.zero_add, Nat.reduceAdd]

theorem numbered_widening (hplain : Text.Commentless op.name.toList) (hvar : .var ∈ op.operands) :
    Source.numbered 0 (widening op) =
      Source.numbered 0 declaring ++ [⟨8, askingLine op⟩, ⟨9, Closing.main.text⟩] := by
  have hmain : Source.Line.clean Closing.main.text = Closing.main.text := by decide
  have hrest : Source.numbered 7 [askingLine op, Closing.main.text] =
      [⟨8, askingLine op⟩, ⟨9, Closing.main.text⟩] := by
    simp only [Source.numbered, clean_askingLine hplain hvar, hmain, Nat.reduceAdd]
  rw [← hrest]
  rfl

/-- These lines declare what they are to declare, whatever the operations are. -/
theorem reads_declaring (s : Setup) : ∃ reported, Severity.error ∉ reported ∧
    Reads s {} (Source.numbered 0 declaring)
      ⟨⟨#[⟨"x", 0, 2, .declared⟩], #[]⟩, true, true, .body populated true, #[]⟩ reported := by
  have hvariables : variablesLine ≠ Closing.declarations.text := by
    intro h
    have hhead := congrArg (fun text => text.toList.head?) h
    rw [variablesLine, String.toList_ofList] at hhead
    cases hhead
  have hwords : (Text.words variablesLine.toList).map String.ofList =
      List.replicate 255 "y" ++ ["x"] := by
    rw [variablesLine, String.toList_ofList, words_variablesText, List.map_append, List.map_replicate]
    rfl
  have hnames : ∀ name ∈ List.replicate 255 "y" ++ ["x"], Source.isIdentifier name = true := by
    intro name hname
    rcases List.mem_append.1 hname with hname | hname
    · rw [(List.mem_replicate.1 hname).2]
      decide
    · rw [List.mem_singleton.1 hname]
      decide
  obtain ⟨hmethod, hquiet⟩ := @declareAll_of_isIdentifier s (.entry 4) 6 _ hnames
  have hdeclares := @passes_declarations s ⟨#[⟨"x", 0, 2, .declared⟩], #[]⟩ true true (.entry 4) 6 _
    hvariables
  simp only [hwords, hmethod] at hdeclares
  have hconstant := @passes_constant s {} false false 2 "x 0" "x" "0" ⟨"x", 0, 2, .declared⟩
    (by decide) rfl
  have hlines := numbered_declaring []
  rw [List.append_nil] at hlines
  rw [hlines]
  refine ⟨_, ?_, .cons passes_constantsOpening (.cons hconstant (.cons passes_constantsClosing
    (.cons passes_mainOpening (.cons passes_declarationsOpening (.cons hdeclares
      (.cons passes_declarationsClosing (.nil _)))))))⟩
  simpa only [List.nil_append, List.append_nil] using quiet_iff_severities.1 hquiet

def widened (s : Setup) (op : Operation) (m : Method) : Method :=
  (statement s ⟨#[⟨"x", 0, 2, .declared⟩], #[]⟩ m (askingLine op) 8).1

theorem grows_widened (s : Setup) (op : Operation) (m : Method) : Grows s m (widened s op m) := by
  refine grows_statement 8 fun c hc => ?_
  rw [askingLine, String.toList_ofList] at hc
  cases hc
  decide

-- From here on only what has been said of its variables matters; there are too many to unfold.
attribute [irreducible] populated

/-- The source is read to its end, and an error can only be one of the statement. -/
theorem exists_reads_widening (hplain : Text.Commentless op.name.toList)
    (hvar : .var ∈ op.operands) : ∃ reported,
      (Quiet (statement s ⟨#[⟨"x", 0, 2, .declared⟩], #[]⟩ populated (askingLine op) 8).2 →
        Severity.error ∉ reported) ∧
      Reads s {} (Source.numbered 0 (widening op))
        ⟨⟨#[⟨"x", 0, 2, .declared⟩], #[(widened s op populated).sealed]⟩, true, true, .outside, #[]⟩
        reported := by
  have hfirst : (askingLine op).toList.head? = some 'x' := by
    rw [askingLine, String.toList_ofList, List.head?_cons]
  have hstatement : ∀ text : String, text.toList.head? ≠ some 'x' → askingLine op ≠ text := by
    rintro text htext rfl
    exact htext hfirst
  have hempty : (askingLine op).isEmpty = false := by
    rw [askingLine]
    simp
  have hasking := @passes_statement s ⟨#[⟨"x", 0, 2, .declared⟩], #[]⟩ true true true populated 8
    (askingLine op) ⟨hempty, fun closing => hstatement _ (by cases closing <;> decide),
      hstatement _ (by decide)⟩
  have hend := @passes_bodyClosing s ⟨#[⟨"x", 0, 2, .declared⟩], #[]⟩ true true true
    (widened s op populated) 9
  have hclosing : (Block.bodyClosing (widened s op populated)).text = Closing.main.text := by
    rw [Block.bodyClosing, (grows_widened s op populated).isEntry, if_pos roomy_populated.isEntry]
  rw [hclosing] at hend
  obtain ⟨reported, hquiet, hreads⟩ := reads_declaring s
  rw [numbered_widening hplain hvar]
  refine ⟨_, fun hstatement => ?_, hreads.append (.cons hasking (.cons hend (.nil _)))⟩
  have hending : Severity.error ∉
      if (widened s op populated).widensNext then [Severity.warning] else [] := by
    split_ifs <;> decide
  rw [quiet_iff_severities] at hstatement
  simp only [List.mem_append, List.not_mem_nil, or_false, not_or]
  exact ⟨hquiet, hstatement, hending⟩

def isPlain (c : Char) : Bool := c == ' ' || !Text.isBlank c

theorem plain_tokenText (kinds : List OperandKind) : (tokenText kinds).all isPlain = true := by
  induction kinds with
  | nil => rfl
  | cons kind kinds ih =>
    have hcons : tokenText (kind :: kinds) = ' ' :: token kind :: tokenText kinds := rfl
    rw [hcons, List.all_cons, List.all_cons, ih]
    cases kind <;> decide

theorem plain_variablesText (count : Nat) : (variablesText count).all isPlain = true := by
  rw [List.all_eq_true]
  intro c hc
  rcases mem_variablesText hc with rfl | rfl | rfl
  · decide
  · decide
  · decide

theorem plain_asking (hsolid : ∀ c ∈ op.name.toList, Text.isBlank c = false) :
    (asking op).all isPlain = true := by
  have hname : op.name.toList.all isPlain = true := by
    rw [List.all_eq_true]
    intro c hc
    rw [isPlain, hsolid c hc]
    exact Bool.or_true _
  rw [asking, List.all_append, hname, plain_tokenText]
  rfl

theorem plain_of_mem_declaring : ∀ text ∈ declaring, text.toList.all isPlain = true := by
  intro text htext
  simp only [declaring, List.mem_cons, List.not_mem_nil, or_false] at htext
  rcases htext with rfl | rfl | rfl | rfl | rfl | rfl | rfl
  · decide
  · decide
  · decide
  · decide
  · decide
  · rw [variablesLine, String.toList_ofList]
    exact plain_variablesText 255
  · decide

theorem unbroken_of_plain {text : String} (h : text.toList.all isPlain = true) :
    '\n' ∉ text.toList ∧ '\r' ∉ text.toList := by
  rw [List.all_eq_true] at h
  constructor
  · intro hmem
    exact absurd (h _ hmem) (by decide)
  · intro hmem
    exact absurd (h _ hmem) (by decide)

theorem unbroken_of_mem_widening (hsolid : ∀ c ∈ op.name.toList, Text.isBlank c = false) :
    ∀ text ∈ widening op, '\n' ∉ text.toList ∧ '\r' ∉ text.toList := by
  have hwidening : widening op = declaring ++ [askingLine op, Closing.main.text] := rfl
  have hline : (askingLine op).toList.all isPlain = true := by
    rw [askingLine, String.toList_ofList, List.all_cons, List.all_cons, List.all_cons,
      plain_asking hsolid]
    decide
  rw [hwidening]
  intro text htext
  rcases List.mem_append.1 htext with htext | htext
  · exact unbroken_of_plain (plain_of_mem_declaring text htext)
  · simp only [List.mem_cons, List.not_mem_nil, or_false] at htext
    rcases htext with rfl | rfl
    · exact unbroken_of_plain hline
    · exact unbroken_of_plain (by decide)

end Widening

end IjvmAsm.Assembly
