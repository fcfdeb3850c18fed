import IjvmAsm.Proofs.Assembly.Pruned
import IjvmAsm.Proofs.Assembly.Shadow

/-!
# What rejected blocks do

A rejected block is reported once and leaves everything else as it is. So a source without its
rejected blocks comes to the same program, and the same is reported but for these blocks.
-/

namespace IjvmAsm.Assembly

inductive Spared (file : String) : List Problem → List Diagnostic → List Diagnostic → Prop
  | nil : Spared file [] [] []
  | kept (d : Diagnostic) {problems : List Problem} {ds ds' : List Diagnostic}
      (rest : Spared file problems ds ds') : Spared file problems (d :: ds) (d :: ds')
  | dropped (problem : Problem) {problems : List Problem} {ds ds' : List Diagnostic}
      (rest : Spared file problems ds ds') :
    Spared file (problem :: problems) ((problem.diagnostic file 0).unlined :: ds) ds'

namespace Spared

variable {file : String} {problems more : List Problem} {ds ds' es es' : List Diagnostic}

theorem refl (file : String) (ds : List Diagnostic) : Spared file [] ds ds := by
  induction ds with
  | nil => exact .nil
  | cons d rest ih => exact .kept d ih

theorem append (h : Spared file problems ds ds') (h' : Spared file more es es') :
    Spared file (problems ++ more) (ds ++ es) (ds' ++ es') := by
  induction h with
  | nil => exact h'
  | kept d _ ih => exact .kept d ih
  | dropped problem _ ih => exact .dropped problem ih

end Spared

def Progress.muted (a : Progress) : Progress := { a with journal := #[] }

/-- From `a` to `a'` the same has happened as from `b` to `b'` and the same lies ahead, line numbers
aside, but the problems have been reported besides. -/
structure Sparing (file : String) (problems : List Problem) (a a' b b' : Progress) : Prop where
  abreast : Abreast a.muted a'.muted b.muted b'.muted
  reports : ∃ es es' : List Event, a'.journal.toList = a.journal.toList ++ es ∧
    b'.journal.toList = b.journal.toList ++ es' ∧ Spared file problems (reports es) (reports es')

namespace Sparing

variable {file : String} {problems more : List Problem} {a a' a'' b b' b'' : Progress}

theorem ahead (h : Sparing file problems a a' b b') : a'.shadow #[] = b'.shadow #[] :=
  h.abreast.ahead

theorem of_abreast (file : String) (h : Abreast a a' b b') : Sparing file [] a a' b b' := by
  obtain ⟨es, es', hes, hes', hreports⟩ := h.reports
  exact ⟨⟨h.ahead, h.methods, [], [], rfl, rfl, rfl⟩, es, es', hes, hes', hreports ▸ .refl file _⟩

theorem append (h : Sparing file problems a a' b b') (h' : Sparing file more a' a'' b' b'') :
    Sparing file (problems ++ more) a a'' b b'' := by
  obtain ⟨habreast, es, es', hes, hes', hspared⟩ := h
  obtain ⟨habreast', es₁, es₁', hes₁, hes₁', hspared'⟩ := h'
  refine ⟨habreast.append habreast', es ++ es₁, es' ++ es₁', ?_, ?_, ?_⟩
  · rw [hes₁, hes, List.append_assoc]
  · rw [hes₁', hes', List.append_assoc]
  · rw [reports_append, reports_append]
    exact hspared.append hspared'

/-- The problem is reported and nothing else happens. -/
theorem of_note {problem : Problem} (h : a.shadow #[] = b.shadow #[]) {events : List Event}
    (hevents : IjvmAsm.reports events = [(problem.diagnostic file 0).unlined]) :
    Sparing file [problem] a (a.note events) b b :=
  ⟨.start h, events, [], Array.toList_appendList, (List.append_nil _).symm,
    hevents ▸ .dropped problem .nil⟩

end Sparing

namespace Progress

variable {s : Setup} {a a' b : Progress} {line : Source.Line} {lines : List Source.Line}

theorem note_note (a : Progress) (es es' : List Event) :
    (a.note es).note es' = a.note (es ++ es') := by
  have hjournal : a.journal ++ es ++ es' = a.journal ++ (es ++ es') := by
    rw [← Array.toList_inj, Array.toList_appendList, Array.toList_appendList,
      Array.toList_appendList, List.append_assoc]
  simp only [note, hjournal]

/-- What stands in a rejected block is only looked at for the line that closes it. -/
theorem step_rejected {closing : Closing} {within : Option Method}
    (hblock : a.block = .rejected closing within) (s : Setup) (line : Source.Line) :
    ∃ events, reports events = [] ∧ a.step s line = .ok (Progress.note { a with
      block := if line.text = closing.text then .resumed within else .rejected closing within }
      events) := by
  simp only [step, hblock, rejectedLine]
  split_ifs
  · exact ⟨[_], rfl, rfl⟩
  · exact ⟨[_], rfl, rfl⟩

/-- A rejected block is skipped up to the line that closes it. -/
theorem readLines_rejected {closing : Closing} {within : Option Method} {inside : List String}
    (hblock : a.block = .rejected closing within) (hinside : closing.text ∉ inside)
    (htexts : lines.map Source.Line.text = inside ++ [closing.text]) :
    ∃ events, readLines s a lines = .ok ({ a with block := .resumed within }.note events) ∧
      reports events = [] := by
  induction inside generalizing a lines with
  | nil =>
    obtain ⟨line, rfl, htext⟩ := List.map_eq_singleton_iff.1 htexts
    obtain ⟨events, hevents, hstep⟩ := step_rejected hblock s line
    rw [if_pos htext] at hstep
    refine ⟨events, ?_, hevents⟩
    rw [readLines, hstep]
    rfl
  | cons text rest ih =>
    obtain ⟨line, more, rfl, htext, hmore⟩ := List.map_eq_cons_iff.1 htexts
    rw [List.mem_cons, not_or] at hinside
    obtain ⟨events, hevents, hstep⟩ := step_rejected hblock s line
    rw [if_neg (htext ▸ Ne.symm hinside.1)] at hstep
    obtain ⟨events', hread, hevents'⟩ :=
      ih (a := { a with block := .rejected closing within }.note events) rfl hinside.2 hmore
    refine ⟨events ++ events', ?_, by rw [reports_append, hevents, hevents']; rfl⟩
    rw [readLines, hstep]
    dsimp only
    rw [hread]
    exact congrArg Except.ok (note_note { a with block := .resumed within } events events')

def Rejects (s : Setup) (a : Progress) (line : Source.Line) (problem : Problem)
    (closing : Closing) : Prop :=
  ∃ within events, Block.resumed within = a.block ∧
    reports events = [(problem.diagnostic s.file 0).unlined] ∧
    a.step s line = .ok (Progress.note { a with block := .rejected closing within } events)

/-- A block that is rejected leaves a run as it was but for the problem. -/
theorem Rejects.exists_note {problem : Problem} {closing : Closing}
    (h : Rejects s a line problem closing) {inside : List String} (hinside : closing.text ∉ inside)
    (htexts : lines.map Source.Line.text = inside ++ [closing.text]) :
    ∃ events, readLines s a (line :: lines) = .ok (a.note events) ∧
      reports events = [(problem.diagnostic s.file 0).unlined] := by
  obtain ⟨within, opened, hresumed, hopened, hstep⟩ := h
  obtain ⟨events, hread, hevents⟩ := readLines_rejected (s := s)
    (a := { a with block := .rejected closing within }.note opened) rfl hinside htexts
  refine ⟨opened ++ events, ?_, by rw [reports_append, hevents, List.append_nil, hopened]⟩
  rw [readLines, hstep]
  dsimp only
  rw [hread, hresumed]
  exact congrArg Except.ok (note_note a opened events)

theorem reports_problem (s : Setup) (line : Nat) (problem : Problem) :
    reports [s.problem line problem] = [(problem.diagnostic s.file 0).unlined] :=
  reports_event rfl s.file line 0

variable {closed seen : Bool}

theorem rejects_of_outsideLine (hblock : a.block = .outside) {problem : Problem} {closing : Closing}
    (h : a.outsideLine s line =
      .ok ((a.note [lineNote s line]).reject s line.number problem closing)) :
    Rejects s a line problem closing := by
  refine ⟨none, [lineNote s line] ++ [s.problem line.number problem], hblock.symm,
    reports_problem s line.number problem, ?_⟩
  -- A step sets out from the run without its block, which makes no difference here.
  have hself : ({ a with block := .outside } : Progress) = a := by rw [← hblock]
  unfold step
  dsimp only
  rw [hblock, hself, h]
  exact congrArg Except.ok (note_note { a with block := .rejected closing none } _ _)

theorem rejects_secondConstants (h : a.standing = ⟨true, seen, .outside⟩)
    (htext : line.text = constantsOpening) : Rejects s a line .secondConstants .constants := by
  obtain ⟨hclosed, -, hplace⟩ := block_of_standing h
  refine rejects_of_outsideLine (outside_of_place hplace) ?_
  unfold outsideLine openConstants lineNote
  rw [htext]
  exact congrArg Except.ok (if_pos hclosed)

theorem rejects_lateConstants (h : a.standing = ⟨false, true, .outside⟩)
    (htext : line.text = constantsOpening) : Rejects s a line .lateConstants .constants := by
  obtain ⟨hclosed, hseen, hplace⟩ := block_of_standing h
  have hopen : ¬ a.constantsClosed = true := Bool.eq_false_iff.1 hclosed
  refine rejects_of_outsideLine (outside_of_place hplace) ?_
  unfold outsideLine openConstants lineNote
  rw [htext]
  exact congrArg Except.ok ((if_neg hopen).trans (if_pos hseen))

theorem rejects_secondMain (h : a.standing = ⟨closed, true, .outside⟩)
    (htext : line.text = mainOpening) : Rejects s a line .secondMain .main := by
  obtain ⟨-, hseen, hplace⟩ := block_of_standing h
  refine rejects_of_outsideLine (outside_of_place hplace) ?_
  unfold outsideLine openMain lineNote
  rw [htext]
  exact congrArg Except.ok (if_pos hseen)

theorem rejects_methodBeforeMain (h : a.standing = ⟨closed, false, .outside⟩)
    {declaration : String} (hopens : Source.methodLine? line.text = some declaration) :
    Rejects s a line .methodBeforeMain .method := by
  obtain ⟨-, hseen, hplace⟩ := block_of_standing h
  have hne : ∀ text, Source.methodLine? text = none → line.text ≠ text := by
    rintro text hnone htext
    rw [htext, hnone] at hopens
    cases hopens
  have hempty : ¬ line.text.isEmpty = true := fun h => hne "" rfl (String.isEmpty_iff.1 h)
  have hunseen : (!(a.note [lineNote s line]).mainSeen) = true := by
    change (!a.mainSeen) = true
    rw [hseen]
    rfl
  refine rejects_of_outsideLine (outside_of_place hplace) ?_
  unfold outsideLine
  dsimp only
  rw [if_neg hempty, if_neg (hne constantsOpening rfl), if_neg (hne mainOpening rfl), hopens]
  exact if_pos hunseen

theorem rejects_lateVariables {within : Closing}
    (h : a.standing = ⟨closed, seen, .body within true⟩) (htext : line.text = declarationsOpening) :
    Rejects s a line .lateVariables .declarations := by
  obtain ⟨m, hblock⟩ : ∃ m, a.block = .body m true := by
    obtain ⟨-, -, hplace⟩ := block_of_standing h
    cases hblock : a.block with
    | body m started =>
      rw [hblock] at hplace
      cases hplace
      exact ⟨m, rfl⟩
    | _ =>
      rw [hblock] at hplace
      cases hplace
  -- The line that closes the body is looked for first.
  have hclosing : declarationsOpening ≠ (Block.bodyClosing m).text := by
    unfold Block.bodyClosing
    split_ifs
    · decide
    · decide
  refine ⟨some m, [s.problem line.number .lateVariables], hblock.symm,
    reports_problem s line.number _, ?_⟩
  simp only [step, hblock, bodyLine, htext, hclosing, ↓reduceIte]
  rfl

end Progress

open Progress

/-- Where a run stands at `x`, it does over the first lines what it does over the second, but that
the problems are reported. -/
def Omits (s : Setup) (problems : List Problem) (x : Standing) (texts texts' : List String) :
    Prop :=
  ∀ (a a' b : Progress) (lines lines' : List Source.Line),
    (∀ line ∈ lines, Text.StartsSolid line.text.toList) → lines.map Source.Line.text = texts →
    lines'.map Source.Line.text = texts' → a.standing = x → a.shadow #[] = b.shadow #[] →
    readLines s a lines = .ok a' →
    ∃ b', readLines s b lines' = .ok b' ∧ Sparing s.file problems a a' b b'

namespace Omits

open Standing

variable {s : Setup} {problems more : List Problem} {x y : Standing} {closed seen started : Bool}
  {closing : Closing} {front front' back back' inside texts texts' : List String}

theorem refl : Omits s [] x texts texts := by
  intro a a' b lines lines' _ htexts htexts' _ hshadow hread
  obtain ⟨b', hread', habreast⟩ :=
    exists_abreast_of_readLines hshadow (htexts.trans htexts'.symm) hread
  exact ⟨b', hread', .of_abreast s.file habreast⟩

theorem append (h : Omits s problems x front front') (hreached : front.foldl Standing.next x = y)
    (h' : Omits s more y back back') :
    Omits s (problems ++ more) x (front ++ back) (front' ++ back') := by
  intro a a' b lines lines' hsolid htexts htexts' hstanding hshadow hread
  obtain ⟨left, right, rfl, hleft, hright⟩ := List.map_eq_append_iff.1 htexts
  obtain ⟨left', right', rfl, hleft', hright'⟩ := List.map_eq_append_iff.1 htexts'
  rw [List.forall_mem_append] at hsolid
  obtain ⟨c, hread₁, hread₂⟩ := readLines_append_eq_ok.1 hread
  obtain ⟨c', hread₁', hsparing⟩ :=
    h a c b left left' hsolid.1 hleft hleft' hstanding hshadow hread₁
  have hmiddle : c.standing = y := by
    rw [standing_readLines hsolid.1 hread₁, hleft, hstanding, hreached]
  obtain ⟨b', hread₂', hsparing'⟩ :=
    h' c a' c' right right' hsolid.2 hright hright' hmiddle hsparing.ahead hread₂
  exact ⟨b', readLines_append_eq_ok.2 ⟨c', hread₁', hread₂'⟩, hsparing.append hsparing'⟩

theorem cons {text : String} (hnext : x.next text = y) (h : Omits s problems y texts texts') :
    Omits s problems x (text :: texts) (text :: texts') := by
  have hfirst : Omits s [] x [text] [text] := refl
  exact hfirst.append hnext h

theorem block {opening : String} {problem : Problem} (hinside : closing.text ∉ inside)
    (hopening : ∀ (a : Progress) (line : Source.Line), a.standing = x → line.text = opening →
      Rejects s a line problem closing) :
    Omits s [problem] x (enclosed opening inside closing) [] := by
  intro a a' b lines lines' _ htexts htexts' hstanding hshadow hread
  obtain ⟨line, rest, rfl, htext, hrest⟩ := List.map_eq_cons_iff.1 htexts
  obtain rfl := List.map_eq_nil_iff.1 htexts'
  obtain ⟨events, hread', hevents⟩ := (hopening a line hstanding htext).exists_note hinside hrest
  rw [hread'] at hread
  cases hread
  exact ⟨b, rfl, .of_note hshadow hevents⟩

theorem of_prunedBody (h : PrunedBody closing started texts texts' problems) :
    Omits s problems ⟨closed, seen, .body closing started⟩ texts texts' := by
  induction h with
  | nil started => exact refl
  | blank _ ih => exact ih.cons next_blank
  | statement hne hclosing hopening _ ih => exact ih.cons (next_statement hne hclosing hopening)
  | declarations hinside _ ih => exact refl.append (encloses_declarations.foldl hinside) ih
  | lateVariables hinside _ ih =>
    exact (block hinside fun _ _ => rejects_lateVariables).append
      (encloses_lateVariables.foldl hinside) ih

/-- A body that is not rejected, with its opening line and the one that closes it. -/
theorem enclosedBody {opening : String} {body body' : List String}
    (hopening : x.next opening = ⟨closed, seen, .body closing false⟩)
    (hbody : PrunedBody closing false body body' problems)
    (h : Omits s more ⟨closed, seen, .outside⟩ texts texts') :
    Omits s (problems ++ more) x (enclosed opening body closing ++ texts)
      (enclosed opening body' closing ++ texts') := by
  have hclosed : Omits s (problems ++ []) ⟨closed, seen, .body closing false⟩
      (body ++ [closing.text]) (body' ++ [closing.text]) := (of_prunedBody hbody).append rfl refl
  rw [List.append_nil] at hclosed
  exact cons hopening (hclosed.append (foldl_next_body hbody) h)

/-- Rejected blocks do nothing but being reported. -/
theorem of_pruned (h : Pruned closed seen texts texts' problems) :
    Omits s problems ⟨closed, seen, .outside⟩ texts texts' := by
  induction h with
  | nil closed seen => exact refl
  | stray hconstants hmain hmethod _ ih => exact ih.cons (next_stray hconstants hmain hmethod)
  | constants hinside _ ih => exact refl.append (encloses_constants.foldl hinside) ih
  | secondConstants hinside _ ih =>
    exact (block hinside fun _ _ => rejects_secondConstants).append
      (encloses_secondConstants.foldl hinside) ih
  | lateConstants hinside _ ih =>
    exact (block hinside fun _ _ => rejects_lateConstants).append
      (encloses_lateConstants.foldl hinside) ih
  | main hbody _ ih => exact enclosedBody rfl hbody ih
  | secondMain hinside _ ih =>
    exact (block hinside fun _ _ => rejects_secondMain).append
      (encloses_secondMain.foldl hinside) ih
  | method hopens hbody _ ih => exact enclosedBody (next_header hopens) hbody ih
  | methodBeforeMain hopens hinside _ ih =>
    refine (block hinside fun a line hstanding htext => ?_).append
      ((encloses_methodBeforeMain hopens).foldl hinside) ih
    exact rejects_methodBeforeMain hstanding (htext ▸ hopens)

end Omits

theorem intact_of_run {s : Setup} {source : Bytes} {p : Program}
    (h : (run s source).result = .ok p) : (Source.Lines.ofBytes source).intact = true := by
  obtain ⟨a, hread, -⟩ := exists_read_of_run h
  unfold run at h
  simp only [hread] at h
  split_ifs at h with hintact
  exact hintact

/-- A source that gives a program can do without its rejected blocks: they are errors, and without
them it gives the same program and reports the same but for them. -/
theorem run_without (s : Setup) {source : Bytes} {p : Program} (h : (run s source).result = .ok p) :
    (∃ source' problems, Without source source' problems) ∧
      ∀ source' problems, Without source source' problems →
        (∀ problem ∈ problems, problem.severity = .error) ∧
          ∃ p', (run s source').result = .ok p' ∧ p'.unlined = p.unlined ∧
            Spared s.file problems (reports (run s source).journal.toList)
              (reports (run s source').journal.toList) := by
  have hintact := intact_of_run h
  obtain ⟨a, hread, hblock, rfl, -⟩ := exists_read_of_run h
  have hsolid : ∀ line ∈ (Source.Lines.ofBytes source).lines,
      Text.StartsSolid line.text.toList := fun _ => startsSolid_of_mem_lines
  refine ⟨exists_without ?_, fun source' problems hwithout => ⟨hwithout.pruned.severity, ?_⟩⟩
  · have hend : a.standing.place = .outside := by rw [standing, hblock, Block.place]
    rw [standing_readLines hsolid hread] at hend
    exact hend
  · obtain ⟨b, hread', hsparing⟩ := Omits.of_pruned (s := s) hwithout.pruned {} a {} _ _ hsolid rfl
      rfl rfl rfl hread
    have hintact' : (Source.Lines.ofBytes source').intact = true := hwithout.intact
    have hblock' : b.block = .outside := hsparing.abreast.outside hblock
    have hprogram : a.program.unlined = b.program.unlined := hsparing.abreast.program_unlined
    obtain ⟨hsame, hlinked⟩ := Program.link_eq_of_unlined_eq hprogram s.file
    obtain ⟨es, es', hes, hes', hspared⟩ := hsparing.reports
    refine ⟨_, (run_of_readLines hread' hintact' hblock').1, hsame.symm, ?_⟩
    -- Linking sees no lines, so it reports the same behind both.
    have happend := hspared.append
      (.refl s.file (reports (a.program.link s.file).2.toList))
    rw [List.append_nil] at happend
    rw [reports_of_readLines hread hintact hblock, reports_of_readLines hread' hintact' hblock',
      hes, hes', ← hlinked]
    exact happend

def cluttered : Bytes := Text.unlines
  [".method f()", ".end-method", ".main", "HALT", ".var", "w", ".end-var", ".end-main", ".constant",
    "c 1", ".end-constant", ".main", ".end-main"]

def cleared : Bytes := Text.unlines [".main", "HALT", ".end-main"]

def clutter : List Problem := [.methodBeforeMain, .lateVariables, .lateConstants, .secondMain]

def clutteredSetup : Setup := { file := "t.jas" }

def clutteredProgram : Program :=
  { constants := #[]
    methods := #[
      { Method.entry 3 with
        instructions := #[{ operation := ⟨"HALT", 0xFF, []⟩, arguments := [], line := 4 }]
        size := 1 }] }

theorem without_cluttered : Without cluttered cleared clutter := by
  have hkept : (Text.Lines.ofBytes cleared).readable = [".main", "HALT", ".end-main"] := by
    decide
  refine ⟨by decide, ?_, ?_⟩
  · decide
  · have hall : (Source.Lines.ofBytes cluttered).lines.map Source.Line.text =
        enclosed ".method f()" [] .method ++ (enclosed mainOpening
          ("HALT" :: (enclosed declarationsOpening ["w"] .declarations ++ [])) .main ++
            (enclosed constantsOpening ["c 1"] .constants ++
              (enclosed mainOpening [] .main ++ []))) := by
      decide
    have hcleared : (Source.Lines.ofBytes cleared).lines.map Source.Line.text =
        enclosed mainOpening ["HALT"] .main ++ [] := by decide
    rw [hall, hcleared]
    have hbody : PrunedBody .main false
        ("HALT" :: (enclosed declarationsOpening ["w"] .declarations ++ [])) ["HALT"]
        [.lateVariables] :=
      .statement (by decide) (by decide) (by decide) (.lateVariables (by decide) (.nil true))
    have hheader : Source.methodLine? ".method f()" = some "f()" := by decide
    exact .methodBeforeMain hheader List.not_mem_nil
      (.main hbody (.lateConstants (by decide) (.secondMain List.not_mem_nil (.nil false true))))

theorem run_without_cluttered :
    (run clutteredSetup cluttered).result = .ok clutteredProgram ∧
      Without cluttered cleared clutter ∧
      ∃ p, (run clutteredSetup cleared).result = .ok p ∧ p.unlined = clutteredProgram.unlined ∧
        Spared "t.jas" clutter (reports (run clutteredSetup cluttered).journal.toList)
          (reports (run clutteredSetup cleared).journal.toList) := by
  have hrun : (run clutteredSetup cluttered).result = .ok clutteredProgram := by decide +kernel
  exact ⟨hrun, without_cluttered,
    ((run_without clutteredSetup hrun).2 cleared clutter without_cluttered).2⟩

end IjvmAsm.Assembly
