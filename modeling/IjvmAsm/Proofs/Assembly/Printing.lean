import IjvmAsm.Proofs.Assembly.Atomic
import IjvmAsm.Proofs.Program.Linkage
import IjvmAsm.Proofs.Source.Quotation
import IjvmAsm.Proofs.Source.Rows

/-!
# What printing emits

A row is freed of its comment, its label is split off at the first colon and its directive at the
first blank before the string in it is read. None of this takes a part of the string for something
else, so a row that prints a string appends two instructions for every byte that the string spells,
and nothing that comes later comes between the bytes that are written for these.
-/

namespace IjvmAsm

open Text Source

namespace Source

variable {blanks cs row : List Char}

theorem Blanks.commentless_append (h : Blanks blanks) (hcs : Commentless cs) :
    Commentless (blanks ++ cs) := by
  have hself := commentless_beforeComment (blanks ++ cs)
  rwa [beforeComment_append_of_blanks h, beforeComment_eq_self hcs] at hself

theorem said_eq_self (hcomment : Commentless row) (hfirst : StartsSolid row)
    (hlast : StartsSolid row.reverse) : said row = row := by
  rw [said, beforeComment_eq_self hcomment, trimBlanks_eq_self hfirst hlast]

theorem said_between {indent trail : List Char} (hindent : Blanks indent) (htrail : Blanks trail)
    (row : List Char) : said (indent ++ row ++ trail) = said row := by
  rw [said_append htrail.silent htrail.head?, said_append_left hindent]

theorem clean_ofList (row : List Char) : Line.clean (String.ofList row) = String.ofList (said row) := by
  rw [Line.clean, String.toList_ofList, said]

end Source

namespace Assembly

def printText (gap body : List Char) : List Char := printName.toList ++ gap ++ '"' :: (body ++ ['"'])

/-- A row that prints the string, behind a label or without one, with blanks around its parts. -/
inductive PrintRow (body : List Char) : Option String → List Char → Prop
  | bare {indent gap trail : List Char} (indented : Blanks indent) (spaced : Blanks gap)
      (apart : gap ≠ []) (trailing : Blanks trail) :
      PrintRow body none (indent ++ printText gap body ++ trail)
  | labelled {name : String} {indent before after gap trail : List Char}
      (identifier : isIdentifier name = true) (indented : Blanks indent) (led : Blanks before)
      (followed : Blanks after) (spaced : Blanks gap) (apart : gap ≠ []) (trailing : Blanks trail) :
      PrintRow body (some name)
        (indent ++ (name.toList ++ before ++ ':' :: (after ++ printText gap body)) ++ trail)

variable {s : Setup} {p : Program} {m : Method} {text : String} {gap body : List Char}

/-! ### What a row says -/

theorem commentless_printText (hgap : Blanks gap) (hbody : Commentless body) :
    Commentless (printText gap body) := by
  have hfront : '/' ∉ printName.toList ++ gap := by
    rw [List.mem_append, not_or]
    exact ⟨by decide, fun hmem => ne_slash_of_isBlank (hgap _ hmem) rfl⟩
  exact (commentless_of_notMem hfront).append_cons (hbody.append_cons .nil (by decide)) (by decide)

theorem startsSolid_printText (gap body : List Char) : StartsSolid (printText gap body) := by
  rintro c ⟨⟩
  decide

theorem endsSolid_printText (front gap body : List Char) :
    StartsSolid (front ++ printText gap body).reverse := by
  rw [printText, ← List.cons_append, ← List.append_assoc, ← List.append_assoc,
    List.reverse_concat]
  rintro c ⟨⟩
  decide

theorem said_printText (hgap : Blanks gap) (hbody : Commentless body) :
    said (printText gap body) = printText gap body :=
  said_eq_self (commentless_printText hgap hbody) (startsSolid_printText gap body)
    (endsSolid_printText [] gap body)

theorem said_label_printText {name : String} {before after : List Char}
    (hname : isIdentifier name = true) (hbefore : Blanks before) (hafter : Blanks after)
    (hgap : Blanks gap) (hbody : Commentless body) :
    said (name.toList ++ before ++ ':' :: (after ++ printText gap body)) =
      name.toList ++ before ++ ':' :: (after ++ printText gap body) := by
  have hfront : '/' ∉ name.toList ++ before := by
    rw [List.mem_append, not_or]
    exact ⟨notMem_of_isIdentifier hname (by decide),
      fun hmem => ne_slash_of_isBlank (hbefore _ hmem) rfl⟩
  refine said_eq_self ?_ ?_ ?_
  · exact (commentless_of_notMem hfront).append_cons
      (hafter.commentless_append (commentless_printText hgap hbody)) (by decide)
  · obtain ⟨c, rest, hcons, -⟩ := exists_head_of_isIdentifier hname
    intro d hd
    rw [hcons] at hd
    cases hd
    exact isBlank_of_isNameChar (isNameChar_of_mem hname (by rw [hcons]; exact List.mem_cons_self))
  · have hend := endsSolid_printText (name.toList ++ before ++ ':' :: after) gap body
    rwa [List.append_assoc, List.cons_append] at hend

/-! ### How it is taken apart -/

/-- No label stands before a directive, whatever colons there are in it. -/
theorem splitLabel_eq_none_of_mark (h : text.toList.head? = some '#') : splitLabel text = none := by
  rw [splitLabel]
  cases hcut : cutAt (· == ':') text.toList with
  | none => rfl
  | some parts =>
    obtain ⟨head, rest⟩ := parts
    obtain ⟨⟨colon, hcolon, hsplit⟩, -⟩ := cutAt_eq_some hcut
    rw [hsplit] at h
    have hlooks : looksLikeLabel (trimBlanks head) = false := by
      cases head with
      | nil =>
        cases h
        cases hcolon
      | cons c head =>
        cases h
        rw [looksLikeLabel, head?_trimBlanks (by decide)]
        simp
    simp only [hlooks, Bool.false_eq_true, ↓reduceIte]

theorem isStatement_of_mark (h : text.toList.head? = some '#') : IsStatement text := by
  refine ⟨?_, fun closing => ?_, ?_⟩
  · rw [← Bool.not_eq_true, String.isEmpty_iff]
    rintro rfl
    cases h
  · rintro rfl
    cases closing <;> cases h
  · rintro rfl
    cases h

theorem head?_printText (gap body : List Char) :
    (String.ofList (printText gap body)).toList.head? = some '#' := by
  rw [String.toList_ofList]
  rfl

theorem splitDirective_printText (hgap : Blanks gap) (hapart : gap ≠ []) (body : List Char) :
    splitDirective (String.ofList (printText gap body)) =
      (printName, String.ofList ('"' :: (body ++ ['"']))) := by
  obtain ⟨c, gap, rfl⟩ := List.exists_cons_of_ne_nil hapart
  obtain ⟨hc, hgap⟩ := List.forall_mem_cons.1 hgap
  have hname : ∀ c ∈ printName.toList, isBlank c = false := by
    have hall : printName.toList.all (fun c => !isBlank c) = true := by decide
    simpa using hall
  have htrim : trimBlanks ('"' :: (body ++ ['"'])) = '"' :: (body ++ ['"']) := by
    refine trimBlanks_eq_self ?_ ?_
    · rintro c ⟨⟩
      decide
    · rw [← List.cons_append, List.reverse_concat]
      rintro c ⟨⟩
      decide
  rw [splitDirective, String.toList_ofList, printText, List.append_assoc, List.cons_append,
    cutAt_append_cons hname hc]
  simp only [trimBlanks_append_left hgap, htrim, String.ofList_toList]

theorem prints_printText (hset : s.set = .standard) (hgap : Blanks gap) (hapart : gap ≠ [])
    {bytes : List UInt8} (hspells : Quoted.Spells Quoted.Item body bytes) :
    Prints s (String.ofList (printText gap body)) ⟨InstructionSet.pushName, 0x10, [.byte]⟩
      ⟨InstructionSet.outName, 0xFD, []⟩ bytes where
  mark := head?_printText gap body
  named := by
    refine ⟨_, splitDirective_printText hgap hapart body, Quoted.decode_eq_ok_iff.2 ?_⟩
    rw [String.toList_ofList]
    exact .quoted (hspells.mono .inl)
  push := by rw [hset, InstructionSet.find?_pushName_standard]
  out := by rw [hset, InstructionSet.find?_outName_standard]

/-! ### What it appends -/

theorem action_of_prints {push out : Operation} {bytes : List UInt8}
    (h : Prints s text push out bytes) (hsome : bytes ≠ []) (p : Program) (m : Method) (line : Nat) :
    ∃ remark, action s p m text line =
      (m.pushAll (expansion push out line bytes), [.remark .debug remark]) := by
  obtain ⟨argument, hsplit, hdecode⟩ := h.named
  have htext : text.isEmpty = false := (isStatement_of_mark h.mark).nonempty
  have hargument : argument.isEmpty = false := by
    rw [← Bool.not_eq_true, String.isEmpty_iff]
    rintro rfl
    cases hdecode
  have hbytes : bytes.isEmpty = false := List.isEmpty_eq_false_iff.2 hsome
  simp only [action, htext, h.mark, directive, hsplit, print, hargument, hdecode, h.push, h.out,
    hbytes, Bool.false_eq_true, ↓reduceIte, pushBytes_eq]
  exact ⟨_, rfl⟩

end Assembly

def Method.labelled (m : Method) (line : Nat) : Option String → Method
  | none => m
  | some name => { m with labels := m.labels.push ⟨name, line, m.size, m.instructions.size⟩ }

@[simp] theorem Method.instructions_labelled (m : Method) (line : Nat) (label? : Option String) :
    (m.labelled line label?).instructions = m.instructions := by
  cases label? <;> rfl

namespace Assembly

theorem defineLabel_eq {name : String} (line : Nat) (hname : isIdentifier name = true)
    (hnew : m.findLabel? name = none) :
    ∃ remark, defineLabel s m name line = (m.labelled line (some name), [.remark .debug remark]) := by
  simp only [defineLabel, hname, Method.addLabel, hnew, Bool.not_true, Bool.false_eq_true, ↓reduceIte]
  exact ⟨_, rfl⟩

/-- What the row says is a statement, which appends what prints the bytes. -/
theorem statement_printRow (p : Program) (line : Nat) (hset : s.set = .standard)
    {label? : Option String} {row : List Char} {bytes : List UInt8} (hrow : PrintRow body label? row)
    (hspells : Quoted.Spells Quoted.Item body bytes) (hsome : bytes ≠ [])
    (hcomment : Commentless body) (hnew : ∀ name ∈ label?, m.findLabel? name = none) :
    IsStatement (String.ofList (said row)) ∧
      ∃ events, events.filterMap Event.diagnostic? = [] ∧
        statement s p m (String.ofList (said row)) line =
          ((m.labelled line label?).pushAll (expansion ⟨InstructionSet.pushName, 0x10, [.byte]⟩
            ⟨InstructionSet.outName, 0xFD, []⟩ line bytes), events) := by
  cases hrow with
  | @bare indent gap trail indented spaced apart trailing =>
    obtain ⟨remark, haction⟩ :=
      action_of_prints (prints_printText hset spaced apart hspells) hsome p m line
    rw [said_between indented trailing, said_printText spaced hcomment, statement,
      splitLabel_eq_none_of_mark (head?_printText gap body)]
    exact ⟨isStatement_of_mark (head?_printText gap body), _, rfl, haction⟩
  | @labelled name indent before after gap trail identifier indented led followed spaced apart
      trailing =>
    obtain ⟨remark, hdefine⟩ := defineLabel_eq (s := s) line identifier (hnew name rfl)
    obtain ⟨remark', haction⟩ := action_of_prints (prints_printText hset spaced apart hspells) hsome p
      (m.labelled line (some name)) line
    have hsplit : splitLabel (String.ofList (name.toList ++ before ++ ':' ::
        (after ++ printText gap body))) = some (name, String.ofList (printText gap body)) := by
      rw [splitLabel_ofList identifier led, trimBlanks_append_left followed,
        trimBlanks_eq_self (startsSolid_printText gap body) (endsSolid_printText [] gap body)]
    rw [said_between indented trailing,
      said_label_printText identifier led followed spaced hcomment]
    refine ⟨isStatement_of_splitLabel hsplit, [.remark .debug remark, .remark .debug remark'], rfl, ?_⟩
    simp only [statement, hsplit, hdefine, haction]
    rfl

end Assembly

/-! ### What is written for it -/

namespace Instruction

/-- The instruction can be written without leniency, and linking has nothing to settle in it. -/
structure Definite (i : Instruction) : Prop where
  settled : ∀ a ∈ i.arguments, a.isPending = false
  writable : i.Writable false

variable {i i' : Instruction}

theorem Alike.encoding_eq (h : i.Alike i') (hsettled : ∀ a ∈ i.arguments, a.isPending = false) :
    i'.encoding = i.encoding := by
  have harguments : i'.arguments = i.arguments := by
    refine (List.forall₂_eq_eq_eq ▸ List.forall₂_iff_zip.2 ⟨h.arguments.length_eq, ?_⟩ :).symm
    intro a a' hmem
    cases a with
    | resolved value => exact (List.forall₂_zip h.arguments hmem value rfl).symm
    | pending reference => cases hsettled _ (List.of_mem_zip hmem).1
  rw [encoding, encoding, h.operation, h.wide, harguments]

end Instruction

theorem Bytes.ofInt_toInt8 (b : UInt8) : ofInt 1 b.toInt8.toInt = [b] := by
  rw [← toInt_single]
  exact ofInt_toInt [b]

namespace Assembly

variable {s : Setup} {m : Method}

theorem definite_push {i : Instruction} {b : UInt8} {line : Nat}
    (h : i.unplaced = { operation := ⟨InstructionSet.pushName, 0x10, [.byte]⟩
                        arguments := [.resolved b.toInt8.toInt], line }) :
    i.Definite ∧ i.encoding = [0x10, b] := by
  obtain ⟨operation, arguments, line', wide, offset⟩ := i
  cases h
  refine ⟨⟨List.forall_mem_singleton.2 rfl, List.forall_mem_singleton.2 ⟨.inl rfl, ?_⟩⟩, ?_⟩
  · exact fits_byte_toInt8 b
  · exact congrArg (0x10 :: ·) (Bytes.ofInt_toInt8 b)

theorem definite_out {i : Instruction} {line : Nat}
    (h : i.unplaced = { operation := ⟨InstructionSet.outName, 0xFD, []⟩, arguments := [], line }) :
    i.Definite ∧ i.encoding = [0xFD] := by
  obtain ⟨operation, arguments, line', wide, offset⟩ := i
  cases h
  exact ⟨⟨nofun, nofun⟩, rfl⟩

/-- Instructions that print bytes are written as three bytes for each of them, wherever they
stand. -/
theorem definite_expansion {placed : List Instruction} {line : Nat} {bytes : List UInt8}
    (h : placed.map Instruction.unplaced = expansion ⟨InstructionSet.pushName, 0x10, [.byte]⟩
      ⟨InstructionSet.outName, 0xFD, []⟩ line bytes) :
    (∀ i ∈ placed, i.Definite) ∧
      placed.flatMap Instruction.encoding = bytes.flatMap fun b => [0x10, b, 0xFD] := by
  induction bytes generalizing placed with
  | nil =>
    cases List.map_eq_nil_iff.1 h
    exact ⟨nofun, rfl⟩
  | cons b rest ih =>
    obtain ⟨i, more, rfl, hi, hmore⟩ := List.map_eq_cons_iff.1 h
    obtain ⟨j, more, rfl, hj, hmore⟩ := List.map_eq_cons_iff.1 hmore
    obtain ⟨hpush, hpushed⟩ := definite_push hi
    obtain ⟨hout, hwritten⟩ := definite_out hj
    obtain ⟨hall, hbytes⟩ := ih hmore
    refine ⟨List.forall_mem_cons.2 ⟨hpush, List.forall_mem_cons.2 ⟨hout, hall⟩⟩, ?_⟩
    rw [List.flatMap_cons, List.flatMap_cons, List.flatMap_cons, hpushed, hwritten, hbytes]
    rfl

theorem flatMap_encoding_of_alike {is is' : List Instruction}
    (h : List.Forall₂ (fun i i' => i.atStart.Alike i'.atStart) is is')
    (hdefinite : ∀ i ∈ is, i.Definite) :
    is'.flatMap Instruction.encoding = is.flatMap Instruction.encoding := by
  induction h with
  | nil => rfl
  | cons halike _ ih =>
    obtain ⟨hi, hrest⟩ := List.forall_mem_cons.1 hdefinite
    rw [List.flatMap_cons, List.flatMap_cons, ih hrest]
    exact congrArg (· ++ _) (halike.encoding_eq hi.settled)

/-- What has been appended to a method keeps its place in it when more lines are read and when the
method is linked. -/
theorem exists_append_of_prolongs {m' m'' linked : Method} {placed : List Instruction}
    (happended : m'.instructions = m.instructions ++ placed) (hprolongs : m'.Prolongs m'')
    (halike : m''.Alike linked) :
    ∃ before is after, linked.instructions.toList = before ++ (is ++ after) ∧
      before.length = m.instructions.size ∧
      List.Forall₂ (fun i i' => i.atStart.Alike i'.atStart) placed is := by
  obtain ⟨rest, hrest⟩ := hprolongs.instructions
  rw [happended, Array.toList_appendList, List.map_append, List.append_assoc] at hrest
  obtain ⟨us, tail, hus, hfirst, htail⟩ := List.map_eq_append_iff.1 hrest.symm
  obtain ⟨vs, ws, rfl, hsecond, -⟩ := List.map_eq_append_iff.1 htail
  have hinstructions := halike.instructions
  rw [hus] at hinstructions
  obtain ⟨before, tail, hbefore, hus', htail⟩ := exists_append_of_forall₂ hinstructions
  obtain ⟨is, after, rfl, hvs, -⟩ := exists_append_of_forall₂ htail
  refine ⟨before, is, after, hbefore, ?_, ?_⟩
  · have hlength := congrArg List.length hfirst
    rw [List.length_map, List.length_map] at hlength
    exact hus'.length_eq.symm.trans (hlength.trans Array.length_toList)
  · refine forall₂_trans (fun {i j i'} hij halike => ?_) (forall₂_iff_map_eq_map.2 hsecond.symm) hvs
    rw [hij]
    exact ⟨halike.operation, halike.line, halike.wide, rfl, halike.arguments⟩

/-- What a row that prints bytes leaves behind. Nothing is reported, the label stands where the
method had come to, and from there on every byte is pushed, as a signed number, and put out, for
which a rendering without leniency writes three bytes. -/
structure Printed (a a' : Progress) (m : Method) (line : Nat) (label? : Option String)
    (bytes : List UInt8) : Prop where
  program : a'.program = a.program
  diagnostics : a'.journal.diagnostics = a.journal.diagnostics
  body : ∃ m' placed, a'.block = .body m' true ∧ (m.labelled line label?).Appended m' placed ∧
    placed.map Instruction.unplaced = expansion ⟨InstructionSet.pushName, 0x10, [.byte]⟩
      ⟨InstructionSet.outName, 0xFD, []⟩ line bytes ∧
    ∀ name, (Emission.run (placed.flatMap (Instruction.emission false name))).result =
      .ok (bytes.flatMap fun b => [0x10, b, 0xFD])

/-- Where the line is the next one of a source that is assembled and rendered, the image holds what
is written for these bytes, where the `k`-th method had come to `n` instructions. -/
def Shown (s : Setup) (a : Progress) (line : Source.Line) (k n : Nat) (bytes : List UInt8) : Prop :=
  ∀ source before after p lenient withSymbols image,
    (Source.Lines.ofBytes source).lines = before ++ line :: after →
    readLines s {} before = .ok a → (run s source).result = .ok p →
    (p.render lenient withSymbols).result = .ok image →
      ∃ front back, image = front ++ ((bytes.flatMap fun b => [0x10, b, 0xFD]) ++ back) ∧
        front.length = p.head.length + p.position k n

theorem step_printRow {a : Progress} {started : Bool} {label? : Option String}
    {body row : List Char} {bytes : List UInt8} (n : Nat) (hset : s.set = .standard)
    (hblock : a.block = .body m started) (hrow : PrintRow body label? row)
    (hspells : Quoted.Spells Quoted.Item body bytes) (hsome : bytes ≠ [])
    (hcomment : Commentless body) (hnew : ∀ name ∈ label?, m.findLabel? name = none) :
    ∃ a', a.step s ⟨n, Line.clean (String.ofList row)⟩ = .ok a' ∧ Printed a a' m n label? bytes := by
  obtain ⟨hstatement, events, hevents, heq⟩ :=
    statement_printRow a.program n hset hrow hspells hsome hcomment hnew
  obtain ⟨placed, hplaced, happended⟩ := (m.labelled n label?).exists_appended_pushAll
    fun i hi => unplaced_of_mem_expansion hi
  have hstep := Progress.step_of_isStatement s n hblock hstatement
  rw [heq, ← clean_ofList] at hstep
  refine ⟨_, hstep, rfl, ?_, _, placed, rfl, happended, hplaced, fun name => ?_⟩
  · exact Journal.diagnostics_appendList hevents
  · obtain ⟨hdefinite, hbytes⟩ := definite_expansion hplaced
    exact (Emission.writes_flatMap fun i _ => Instruction.writes_emission).2
      ⟨fun i hi => (hdefinite i hi).writable, hbytes.symm⟩

theorem shown_of_step {a a' : Progress} {line : Source.Line} {label? : Option String}
    {bytes : List UInt8} (hset : s.set = .standard) (hstep : a.step s line = .ok a')
    (hprinted : Printed a a' m line.number label? bytes) :
    Shown s a line a.program.methods.size m.instructions.size bytes := by
  intro source before after p lenient withSymbols image hlines hread hrun hrender
  obtain ⟨b, hall, hblock, rfl, -⟩ := exists_read_of_run hrun
  have hsolid : ∀ line' ∈ after, StartsSolid line'.text.toList := fun line' hline' =>
    startsSolid_of_mem_lines (hlines ▸ List.mem_append_right _ (List.mem_cons_of_mem _ hline'))
  -- The lines behind this one only add to its method.
  rw [hlines] at hall
  obtain ⟨_, hbefore, hrest⟩ := Progress.readLines_append_eq_ok.1 hall
  cases hread.symm.trans hbefore
  obtain ⟨_, hline, hafter⟩ := Progress.readLines_cons_eq_ok.1 hrest
  cases hstep.symm.trans hline
  obtain ⟨m', placed, hbody, happended, hplaced, -⟩ := hprinted.body
  have hopen : a'.methods[a.program.methods.size]? = some m' := by
    rw [← hprinted.program]
    exact Progress.getElem?_methods_of_open (congrArg Block.method? hbody)
  obtain ⟨m'', hm'', hprolongs⟩ := Progress.exists_prolongs_of_readLines hsolid hopen hafter
  rw [Progress.methods_of_outside hblock] at hm''
  obtain ⟨linked, hlinked, halike⟩ :=
    exists_getElem?_of_forall₂ (Program.forall₂_alike_link s.file b.program) hm''
  rw [Array.getElem?_toList] at hlinked
  have hinstructions := happended.instructions
  rw [Method.instructions_labelled] at hinstructions
  obtain ⟨front, is, back, hsplit, hlength, his⟩ :=
    exists_append_of_prolongs hinstructions hprolongs halike
  -- So they stand together in the text.
  have hassembled := assembled_of_run hrun
  have harity := hassembled.hasArity (Setup.regular_of_plain (hset ▸ InstructionSet.plain_standard))
  obtain ⟨ahead, behind, htext, hahead⟩ := Program.exists_text_eq_instructions
    hassembled.text_eq_flatMap (hassembled.length_encoding harity) hlinked
    (harity linked (Array.mem_of_getElem? hlinked)) hsplit
  obtain ⟨hdefinite, hbytes⟩ := definite_expansion hplaced
  rw [flatMap_encoding_of_alike his hdefinite, hbytes] at htext
  refine ⟨(b.program.link s.file).1.head ++ ahead,
    behind ++ (b.program.link s.file).1.trailer withSymbols, ?_, ?_⟩
  · rw [(Program.render_eq_ok_iff.1 hrender).2, htext]
    simp only [List.append_assoc]
  · rw [List.length_append, hahead, hlength]

/-- A row that prints a string of items in the body of a method is carried out without a report,
whatever stands in the string but two slashes side by side: its label is put where the method has
come to, and every byte that the string spells is pushed and put out, in this order, by
instructions that stand together in the image. -/
theorem printed_and_shown {a : Progress} {started : Bool} {label? : Option String}
    {body row : List Char} {bytes : List UInt8} (n : Nat) (hset : s.set = .standard)
    (hblock : a.block = .body m started) (hrow : PrintRow body label? row)
    (hspells : Quoted.Spells Quoted.Item body bytes) (hsome : bytes ≠ [])
    (hcomment : Commentless body) (hnew : ∀ name ∈ label?, m.findLabel? name = none) :
    ∃ a', a.step s ⟨n, Line.clean (String.ofList row)⟩ = .ok a' ∧ Printed a a' m n label? bytes ∧
      Shown s a ⟨n, Line.clean (String.ofList row)⟩ a.program.methods.size m.instructions.size
        bytes := by
  obtain ⟨a', hstep, hprinted⟩ :=
    step_printRow n hset hblock hrow hspells hsome hcomment hnew
  exact ⟨a', hstep, hprinted, shown_of_step hset hstep hprinted⟩

/-- A string with a colon, a blank, a number sign, slashes, a quote and a byte above all characters. -/
def greetingBody : List Char := "a: #\\x2F/\\\"\\xfF".toList

def greetingBytes : List UInt8 := [0x61, 0x3A, 0x20, 0x23, 0x2F, 0x2F, 0x22, 0xFF]

def greetingRow : List Char := "  go :\t#print  \"a: #\\x2F/\\\"\\xfF\" ".toList

def greetingLine : Source.Line := ⟨2, Line.clean (String.ofList greetingRow)⟩

def greeting : Bytes := unlines [".main", String.ofList greetingRow, "GOTO go", ".end-main"]

def greetingStart : Progress :=
  { mainSeen := true
    block := .body (.entry 1) false
    journal := #[.remark .trace "t.jas:1 > .main", .remark .info "[.main] Entering method"] }

def greetingProgram : Program :=
  { methods := #[
      { Method.entry 1 with
        instructions := (greetingBytes.mapIdx fun k b =>
          [{ operation := ⟨"BIPUSH", 0x10, [.byte]⟩, arguments := [.resolved b.toInt8.toInt]
             line := 2, offset := 3 * k },
            { operation := ⟨"OUT", 0xFD, []⟩, arguments := [], line := 2
              offset := 3 * k + 2 }]).flatten.toArray.push
          { operation := ⟨"GOTO", 0xA7, [.label]⟩, arguments := [.resolved (-24)], line := 3
            offset := 24 }
        labels := #[⟨"go", 2, 0, 0⟩]
        size := 27 }] }

theorem printRow_greeting : PrintRow greetingBody (some "go") greetingRow := by
  have hrow : greetingRow = [' ', ' '] ++ ("go".toList ++ [' '] ++ ':' ::
      (['\t'] ++ printText [' ', ' '] greetingBody)) ++ [' '] := by decide
  have hone : Blanks [' '] := List.forall_mem_singleton.2 rfl
  have htwo : Blanks [' ', ' '] := List.forall_mem_cons.2 ⟨rfl, hone⟩
  have htab : Blanks ['\t'] := List.forall_mem_singleton.2 rfl
  rw [hrow]
  exact .labelled (by decide) htwo hone htab htwo (by decide) hone

theorem spells_greeting : Quoted.Spells Quoted.Item greetingBody greetingBytes := by
  have htwo : Literal.IsDigit '2' 2 := .inl (by decide)
  have hlower : Literal.IsDigit 'f' 15 := .inl (by decide)
  have hupper : Literal.IsDigit 'F' 15 := .inr (by decide)
  refine .cons (Quoted.Item.plain (c := 'a') (by decide) (by decide) (by decide)) ?_
  refine .cons (Quoted.Item.plain (c := ':') (by decide) (by decide) (by decide)) ?_
  refine .cons (Quoted.Item.plain (c := ' ') (by decide) (by decide) (by decide)) ?_
  refine .cons (Quoted.Item.plain (c := '#') (by decide) (by decide) (by decide)) ?_
  refine .cons (Quoted.Item.numeric htwo hupper) ?_
  refine .cons (Quoted.Item.plain (c := '/') (by decide) (by decide) (by decide)) ?_
  refine .cons (Quoted.Item.escape (c := '"') (by decide)) ?_
  exact .cons (Quoted.Item.numeric hlower hupper) .nil

/-- The row is read as it stands, and the image of the program holds eight times three bytes
for it, right behind its head. -/
theorem printed_and_shown_greeting :
    greetingStart.block = .body (.entry 1) false ∧
    PrintRow greetingBody (some "go") greetingRow ∧
    Quoted.Spells Quoted.Item greetingBody greetingBytes ∧ greetingBytes ≠ [] ∧
    Commentless greetingBody ∧ (Method.entry 1).findLabel? "go" = none ∧
    (∃ a', greetingStart.step { file := "t.jas" } greetingLine = .ok a' ∧
      Printed greetingStart a' (.entry 1) 2 (some "go") greetingBytes) ∧
    (Source.Lines.ofBytes greeting).lines =
      [⟨1, ".main"⟩] ++ greetingLine :: [⟨3, "GOTO go"⟩, ⟨4, ".end-main"⟩] ∧
    readLines { file := "t.jas" } {} [⟨1, ".main"⟩] = .ok greetingStart ∧
    (run { file := "t.jas" } greeting).result = .ok greetingProgram ∧
    ∃ image front back, (greetingProgram.render false false).result = .ok image ∧
      image = front ++ ((greetingBytes.flatMap fun b => [0x10, b, 0xFD]) ++ back) ∧
      front.length = greetingProgram.head.length + greetingProgram.position 0 0 := by
  have hcomment : Commentless greetingBody := by
    unfold Commentless
    decide
  have hnew : (Method.entry 1).findLabel? "go" = none := rfl
  have hlines : (Source.Lines.ofBytes greeting).lines =
      [⟨1, ".main"⟩] ++ greetingLine :: [⟨3, "GOTO go"⟩, ⟨4, ".end-main"⟩] := by decide +kernel
  have hread : readLines { file := "t.jas" } {} [⟨1, ".main"⟩] = .ok greetingStart := rfl
  have hrun : (run { file := "t.jas" } greeting).result = .ok greetingProgram := by decide +kernel
  obtain ⟨image, hrender⟩ : ∃ image, (greetingProgram.render false false).result = .ok image :=
    ⟨greetingProgram.head ++ (greetingBytes.flatMap (fun b => [0x10, b, 0xFD]) ++ [0xA7, 0xFF, 0xE8]),
      by decide +kernel⟩
  obtain ⟨a', hstep, hprinted, hshown⟩ := printed_and_shown (s := { file := "t.jas" })
    (a := greetingStart) 2 rfl rfl printRow_greeting spells_greeting (by decide) hcomment
    fun name hname => by cases hname; exact hnew
  obtain ⟨front, back, himage, hfront⟩ :=
    hshown greeting _ _ greetingProgram false false image hlines hread hrun hrender
  exact ⟨rfl, printRow_greeting, spells_greeting, by decide, hcomment, hnew, ⟨a', hstep, hprinted⟩,
    hlines, hread, hrun, image, front, back, hrender, himage, hfront⟩

end Assembly

end IjvmAsm
