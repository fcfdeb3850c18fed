import IjvmAsm.Proofs.Assembly.Shadow
import IjvmAsm.Proofs.Assembly.WellFormed

/-!
# Bodies of methods

In a source without errors a body reaches from the line that opens a method to the first line that
closes one of its kind. In between, no block is skipped, nothing outside of the method changes, and
no line begins another block.
-/

namespace IjvmAsm

namespace Text

/-- What is no blank is part of a word. -/
theorem exists_word_of_mem {cs : List Char} {c : Char} (hc : c ∈ cs) (hsolid : isBlank c = false) :
    ∃ word ∈ words cs, c ∈ word := by
  have hpiece : ∃ piece ∈ splitAt isBlank cs, c ∈ piece := by
    induction cs with
    | nil => cases hc
    | cons first rest ih =>
      obtain ⟨piece, pieces, hsplit⟩ := List.exists_cons_of_ne_nil (splitAt_ne_nil isBlank rest)
      rw [splitAt, hsplit]
      rw [hsplit] at ih
      rcases List.mem_cons.1 hc with rfl | hc
      · rw [if_neg (by simp [hsolid])]
        exact ⟨_, List.mem_cons_self, List.mem_cons_self⟩
      · obtain ⟨word, hword, hmem⟩ := ih hc
        split_ifs
        · exact ⟨word, List.mem_cons_of_mem _ hword, hmem⟩
        · rcases List.mem_cons.1 hword with rfl | hword
          · exact ⟨_, List.mem_cons_self, List.mem_cons_of_mem _ hmem⟩
          · exact ⟨word, List.mem_cons_of_mem _ hword, hmem⟩
  obtain ⟨piece, hpiece, hmem⟩ := hpiece
  refine ⟨piece, List.mem_filter.2 ⟨hpiece, ?_⟩, hmem⟩
  cases piece with
  | nil => cases hmem
  | cons => rfl

end Text

namespace Assembly

variable {s : Setup} {p : Program} {m : Method} {a a' : Progress} {line : Source.Line}

def Dotted (text : String) : Prop := text.toList.head? = some '.'

instance (text : String) : Decidable (Dotted text) :=
  inferInstanceAs (Decidable (text.toList.head? = some '.'))

theorem not_isIdentifier_of_dotted {name : String} (h : Dotted name) :
    Source.isIdentifier name = false := by
  unfold Dotted at h
  unfold Source.isIdentifier
  cases hname : name.toList with
  | nil => rfl
  | cons c rest =>
    rw [hname] at h
    cases h
    rfl

theorem not_quiet_problem {n : Nat} {problem : Problem} {events : List Event}
    (h : problem.severity = .error) : ¬ Quiet (s.problem n problem :: events) := by
  intro hquiet
  have herror := (quiet_cons.1 hquiet).1
  rw [Setup.problem, Problem.isError_event, h] at herror
  cases herror

/-- Declaring what is no identifier is an error. -/
theorem isIdentifier_of_quiet_declareAll {n : Nat} {names : List String}
    (h : Quiet (Progress.declareAll s n m names).2) :
    ∀ name ∈ names, Source.isIdentifier name = true := by
  induction names generalizing m with
  | nil => exact nofun
  | cons name rest ih =>
    rw [Progress.declareAll] at h
    obtain ⟨hfirst, hrest⟩ := quiet_append.1 h
    refine List.forall_mem_cons.2 ⟨?_, ih hrest⟩
    by_contra hname
    rw [Progress.declare, if_pos (by simpa using hname)] at hfirst
    exact not_quiet_problem rfl hfirst

def Undotted (set : InstructionSet) : Prop :=
  ∀ name, Dotted name → set.find? name = none

theorem undotted_standard : Undotted .standard := by
  have hmnemonics : ∀ op ∈ InstructionSet.standard.named, op.name.toList.head? ≠ some '.' := by
    decide
  intro name hname
  by_contra hfind
  obtain ⟨op, hop⟩ := Option.ne_none_iff_exists'.1 hfind
  obtain ⟨hmem, hupper⟩ := InstructionSet.find?_eq_some hop
  refine hmnemonics op hmem ?_
  rw [hupper, String.toUpper, String.toList_map, List.head?_map, hname]
  rfl

theorem dotted_of_tokensOf {text name : String} {tokens : List String} (h : Dotted text)
    (htokens : Source.tokensOf text = name :: tokens) : Dotted name := by
  obtain ⟨rest, hrest⟩ := List.head?_eq_some_iff.1 h
  rw [Source.tokensOf, hrest] at htokens
  obtain ⟨word, words, hwords, rfl, rfl⟩ := List.map_eq_cons_iff.1 htokens
  rw [Dotted, String.toList_ofList]
  exact Source.head?_of_tokens (by decide) hwords

theorem dotted_of_splitLabel {text name rest : String} (h : Dotted text)
    (hsplit : splitLabel text = some (name, rest)) : Dotted name := by
  obtain ⟨cs, hcs⟩ := List.head?_eq_some_iff.1 h
  rw [splitLabel, hcs, Text.cutAt, if_neg (by decide)] at hsplit
  cases hcut : Text.cutAt (· == ':') cs with
  | none =>
    rw [hcut] at hsplit
    cases hsplit
  | some parts =>
    obtain ⟨before, after⟩ := parts
    simp only [hcut, Option.map_some] at hsplit
    split_ifs at hsplit
    cases hsplit
    rw [Dotted, String.toList_ofList]
    exact Text.head?_trimBlanks (by decide)

/-- Such a line is no statement. -/
theorem not_quiet_statement (hset : Undotted s.set) {text : String} (h : Dotted text) (n : Nat) :
    ¬ Quiet (statement s p m text n).2 := by
  intro hquiet
  unfold statement at hquiet
  cases hsplit : splitLabel text with
  | some parts =>
    obtain ⟨name, rest⟩ := parts
    simp only [hsplit] at hquiet
    have hname := (quiet_append.1 hquiet).1
    rw [defineLabel, if_pos (by rw [not_isIdentifier_of_dotted (dotted_of_splitLabel h hsplit)]; rfl)]
      at hname
    exact not_quiet_problem rfl hname
  | none =>
    obtain ⟨cs, hcs⟩ := List.head?_eq_some_iff.1 h
    have hempty : text.isEmpty = false := by
      by_contra hempty
      rw [Bool.not_eq_false, String.isEmpty_iff] at hempty
      rw [hempty] at h
      cases h
    have hplain : text.toList.head? ≠ some '#' := by
      rw [h]
      decide
    simp only [hsplit, action, hempty, Bool.false_eq_true, ↓reduceIte, hplain, instruction] at hquiet
    cases htokens : Source.tokensOf text with
    | nil =>
      rw [Source.tokensOf, List.map_eq_nil_iff, hcs] at htokens
      exact absurd htokens (Source.tokens_ne_nil (by decide) _)
    | cons name tokens =>
      have hfind := hset name (dotted_of_tokensOf h htokens)
      simp only [htokens, readInstruction, hfind] at hquiet
      exact not_quiet_problem rfl hquiet

/-- It declares no variables either. -/
theorem not_quiet_declareAll {text : String} (h : Dotted text) (n : Nat) :
    ¬ Quiet (Progress.declareAll s n m ((Text.words text.toList).map String.ofList)).2 := by
  intro hquiet
  obtain ⟨word, hword, hmem⟩ := Text.exists_word_of_mem (List.mem_of_head? h) (by decide)
  have hname := isIdentifier_of_quiet_declareAll hquiet _ (List.mem_map_of_mem hword)
  have hdot := Source.isNameChar_of_mem hname (c := '.') (by rwa [String.toList_ofList])
  cases hdot

/-- Nor a constant. -/
theorem not_quiet_constantLine (h : Dotted line.text) :
    (a.constantLine s line).journal.errors ≠ 0 := by
  have hnoted : ∀ problem : Problem, problem.severity = .error →
      (a.note [s.problem line.number problem]).journal.errors ≠ 0 := by
    intro problem hproblem herrors
    exact not_quiet_problem hproblem (Journal.quiet_of_errors_appendList herrors)
  unfold Progress.constantLine
  split
  next name literal more htokens =>
    have hname := not_isIdentifier_of_dotted (dotted_of_tokensOf h htokens)
    have hread : Progress.readConstant a.program name literal line.number =
        .error (.constantName name) := by
      rw [Progress.readConstant, hname]
      rfl
    rw [hread]
    exact hnoted _ rfl
  next => exact hnoted _ rfl

namespace Progress

theorem errors_enter_ne_zero {block : Block} {n : Nat} {problem : Problem} {events : List Event}
    (h : problem.severity = .error) :
    (a.enter block (s.problem n problem :: events)).journal.errors ≠ 0 := fun herrors =>
  not_quiet_problem h (Journal.quiet_of_errors_appendList herrors)

/-- A block is not in the place where it may be only if an error is reported. -/
theorem not_rejected_of_outsideLine (hblock : a.block = .outside)
    (hstep : a.outsideLine s line = .ok a') (herrors : a'.journal.errors = 0) :
    ∀ closing within, a'.block ≠ .rejected closing within := by
  intro closing within hrejected
  unfold outsideLine at hstep
  dsimp only at hstep
  split_ifs at hstep
  · cases hstep
    cases hblock.symm.trans hrejected
  · cases hstep
    unfold openConstants at herrors hrejected
    split_ifs at herrors hrejected
    · exact errors_enter_ne_zero rfl herrors
    · exact errors_enter_ne_zero rfl herrors
  · cases hstep
    unfold openMain at herrors hrejected
    split_ifs at herrors hrejected
    exact errors_enter_ne_zero rfl herrors
  · split at hstep
    next declaration _ =>
      unfold openMethod at hstep
      split_ifs at hstep
      · cases hstep
        exact errors_enter_ne_zero rfl herrors
      · split at hstep
        · cases hstep
        · cases hstep
          cases hrejected
    next =>
      cases hstep
      cases hblock.symm.trans hrejected

theorem not_rejected_of_step (hstep : a.step s line = .ok a') (herrors : a'.journal.errors = 0)
    (hblock : ∀ closing within, a.block ≠ .rejected closing within) :
    ∀ closing within, a'.block ≠ .rejected closing within := by
  intro closing within hrejected
  unfold step at hstep
  dsimp only at hstep
  cases hopen : a.block with
  | rejected closing within => exact hblock closing within hopen
  | outside =>
    rw [hopen] at hstep
    exact not_rejected_of_outsideLine rfl hstep herrors closing within hrejected
  | constants =>
    simp only [hopen] at hstep
    split_ifs at hstep
    · cases hstep
      cases hrejected
    · cases hstep
      cases hrejected
    · cases hstep
      unfold constantLine at hrejected
      split at hrejected
      · split at hrejected <;> cases hrejected
      · cases hrejected
  | body m started =>
    simp only [hopen, bodyLine] at hstep
    split_ifs at hstep <;> cases hstep
    · cases hrejected
    · cases hrejected
    · exact errors_enter_ne_zero rfl herrors
    · cases hrejected
    · cases hrejected
  | declarations m =>
    simp only [hopen, declarationsLine] at hstep
    split_ifs at hstep <;> cases hstep <;> cases hrejected

/-- In a run without errors no block is skipped. -/
theorem not_rejected_of_readLines {lines : List Source.Line} (hread : readLines s {} lines = .ok a)
    (herrors : a.journal.errors = 0) : ∀ closing within, a.block ≠ .rejected closing within := by
  refine readLines_induction (P := fun a => a.journal.errors = 0 →
    ∀ closing within, a.block ≠ .rejected closing within) (fun _ _ _ h => by cases h) ?_ hread herrors
  intro line _ b b' hb hstep herrors
  have hle := (advance_of_step hstep).2
  exact not_rejected_of_step hstep herrors (hb (by omega))

/-- What a line in a method keeps that does not end it. -/
structure Stays (a a' : Progress) (m m' : Method) : Prop where
  open' : a'.block.method? = some m'
  program : a'.program = a.program
  closed : a'.constantsClosed = a.constantsClosed
  seen : a'.mainSeen = a.mainSeen
  name : m'.name = m.name
  isEntry : m'.isEntry = m.isEntry
  line : m'.line = m.line

theorem Stays.refl {m : Method} (h : a.block.method? = some m) : Stays a a m m :=
  ⟨h, rfl, rfl, rfl, rfl, rfl, rfl⟩

theorem Stays.trans {a'' : Progress} {m m' m'' : Method} (h : Stays a a' m m')
    (h' : Stays a' a'' m' m'') : Stays a a'' m m'' :=
  ⟨h'.open', h'.program.trans h.program, h'.closed.trans h.closed, h'.seen.trans h.seen,
    h'.name.trans h.name, h'.isEntry.trans h.isEntry, h'.line.trans h.line⟩

/-- A line in a method that does not end it. -/
theorem exists_stays_of_step (hsolid : Text.StartsSolid line.text.toList)
    (hstep : a.step s line = .ok a') {m : Method} (hopen : a.block.method? = some m)
    (hline : line.text ≠ (Block.bodyClosing m).text) : ∃ m', Stays a a' m m' := by
  have hchanged : ∀ {m' : Method} {block : Block} {events : List Event},
      Changes s a.program m m' → block.method? = some m' →
      ∃ m', Stays a (({ a with block := .outside } : Progress).enter block events) m m' :=
    fun hchanges hblock => ⟨_, hblock, rfl, rfl, rfl, hchanges.grows.name, hchanges.grows.isEntry,
      Changes.line_eq hchanges⟩
  unfold step at hstep
  dsimp only at hstep
  cases hblock : a.block with
  | outside =>
    rw [hblock] at hopen
    cases hopen
  | constants =>
    rw [hblock] at hopen
    cases hopen
  | body first started =>
    rw [hblock] at hopen hstep
    cases hopen
    simp only [bodyLine, hline, ↓reduceIte] at hstep
    split_ifs at hstep <;> cases hstep
    · exact ⟨m, rfl, rfl, rfl, rfl, rfl, rfl, rfl⟩
    · exact hchanged .refl rfl
    · exact ⟨m, rfl, rfl, rfl, rfl, rfl, rfl, rfl⟩
    · exact hchanged (changes_statement line.number hsolid) rfl
  | declarations first =>
    rw [hblock] at hopen hstep
    cases hopen
    simp only [declarationsLine] at hstep
    split_ifs at hstep <;> cases hstep
    · exact ⟨m, rfl, rfl, rfl, rfl, rfl, rfl, rfl⟩
    · exact hchanged (changes_declareAll s a.program line.number m _) rfl
  | rejected closing within =>
    rw [hblock] at hopen hstep
    change within = some m at hopen
    subst hopen
    simp only [rejectedLine] at hstep
    split_ifs at hstep <;> cases hstep
    · exact hchanged .refl rfl
    · exact hchanged .refl rfl

/-- So a method stays open over any lines that do not end it. -/
theorem exists_stays_of_readLines {lines : List Source.Line}
    (hsolid : ∀ line ∈ lines, Text.StartsSolid line.text.toList)
    (hread : readLines s a lines = .ok a') {m : Method} (hopen : a.block.method? = some m)
    (hlines : ∀ line ∈ lines, line.text ≠ (Block.bodyClosing m).text) : ∃ m', Stays a a' m m' := by
  refine readLines_induction (P := fun b => ∃ m', Stays a b m m') ⟨m, .refl hopen⟩ ?_ hread
  rintro line hline b b' ⟨m', hstays⟩ hstep
  have hclosing : Block.bodyClosing m' = Block.bodyClosing m := by
    rw [Block.bodyClosing, hstays.isEntry, Block.bodyClosing]
  obtain ⟨m'', hnext⟩ := exists_stays_of_step (hsolid line hline) hstep hstays.open'
    (hclosing ▸ hlines line hline)
  exact ⟨m'', hstays.trans hnext⟩

/-- The line that ends a body, in a run without errors. -/
theorem step_of_bodyClosing (hstep : a.step s line = .ok a') (herrors : a'.journal.errors = 0)
    (hblock : ∀ closing within, a.block ≠ .rejected closing within) {m : Method}
    (hopen : a.block.method? = some m) (hline : line.text = (Block.bodyClosing m).text) :
    a'.block = .outside ∧ a'.constantsClosed = a.constantsClosed ∧ a'.mainSeen = a.mainSeen ∧
      a'.program = { a.program with methods := a.program.methods.push m.sealed } := by
  unfold step at hstep
  dsimp only at hstep
  cases hwithin : a.block with
  | outside =>
    rw [hwithin] at hopen
    cases hopen
  | constants =>
    rw [hwithin] at hopen
    cases hopen
  | rejected closing within => exact absurd hwithin (hblock closing within)
  | body first started =>
    rw [hwithin] at hopen hstep
    cases hopen
    simp only [bodyLine, hline, ↓reduceIte] at hstep
    cases hstep
    exact ⟨rfl, rfl, rfl, rfl⟩
  | declarations first =>
    rw [hwithin] at hopen hstep
    cases hopen
    have hdotted : Dotted line.text ∧ line.text ≠ Closing.declarations.text := by
      rw [hline, Block.bodyClosing]
      split_ifs <;> decide
    simp only [declarationsLine, hdotted.2, ↓reduceIte] at hstep
    cases hstep
    -- Where variables are declared, the line would be taken for one.
    exact absurd (Journal.quiet_of_errors_appendList herrors) (not_quiet_declareAll hdotted.1 _)

end Progress

/-- The line that ends the body of the method that a line opens. -/
def opens? (text : String) : Option Closing :=
  if text = mainOpening then some .main else (Source.methodLine? text).map fun _ => .method

theorem dotted_of_opens {text : String} {closing : Closing} (h : opens? text = some closing) :
    Dotted text := by
  unfold opens? at h
  split_ifs at h with hmain
  · rw [hmain]
    decide
  · unfold Source.methodLine? at h
    dsimp only at h
    split_ifs at h with hkeyword
    · obtain ⟨rest, hrest⟩ := List.isPrefixOf_iff_prefix.1 hkeyword
      have hfirst : Source.methodKeyword.toList.head? = some '.' := by decide
      rw [Dotted, ← hrest, List.head?_append, hfirst, Option.some_or]
    all_goals cases h

theorem ne_of_opens {text other : String} {closing : Closing} (h : opens? text = some closing)
    (hother : opens? other = none) : text ≠ other := by
  rintro rfl
  rw [h] at hother
  cases hother

theorem line_named (name : String) (parameters : List String) (line : Nat) :
    (Method.named name parameters line).line = line ∧
      Block.bodyClosing (.named name parameters line) = .method := by
  rw [Method.named, Method.build, foldl_addVariable]
  exact ⟨rfl, rfl⟩

namespace Progress

/-- The line that opens a method, in a run without errors. -/
theorem exists_body_of_opens (hset : Undotted s.set) {closing : Closing}
    (hopens : opens? line.text = some closing) (hstep : a.step s line = .ok a')
    (herrors : a'.journal.errors = 0)
    (hblock : ∀ closing within, a.block ≠ .rejected closing within) :
    ∃ m, a.block = .outside ∧ a'.block = .body m false ∧ a'.program = a.program ∧
      m.line = line.number ∧ Block.bodyClosing m = closing := by
  have hdotted := dotted_of_opens hopens
  have hempty : line.text.isEmpty = false := by
    rw [← Bool.not_eq_true, String.isEmpty_iff]
    exact ne_of_opens hopens (by decide)
  have hclosing : ∀ closing : Closing, line.text ≠ closing.text := fun closing =>
    ne_of_opens hopens (by cases closing <;> decide)
  have hdeclarations : line.text ≠ declarationsOpening := ne_of_opens hopens (by decide)
  have hconstants : line.text ≠ constantsOpening := ne_of_opens hopens (by decide)
  unfold step at hstep
  dsimp only at hstep
  cases hwithin : a.block with
  | rejected closing within => exact absurd hwithin (hblock closing within)
  | constants =>
    simp only [hwithin, hclosing, ↓reduceIte, hempty, Bool.false_eq_true] at hstep
    cases hstep
    exact absurd herrors (not_quiet_constantLine hdotted)
  | body m started =>
    simp only [hwithin, bodyLine, hclosing, ↓reduceIte, hempty, Bool.false_eq_true,
      hdeclarations] at hstep
    cases hstep
    exact absurd (Journal.quiet_of_errors_appendList herrors) (not_quiet_statement hset hdotted _)
  | declarations m =>
    simp only [hwithin, declarationsLine, hclosing, ↓reduceIte] at hstep
    cases hstep
    exact absurd (Journal.quiet_of_errors_appendList herrors) (not_quiet_declareAll hdotted _)
  | outside =>
    simp only [hwithin, outsideLine, hempty, Bool.false_eq_true, ↓reduceIte, hconstants] at hstep
    unfold opens? at hopens
    split_ifs at hstep hopens with hmain
    · cases hopens
      cases hstep
      unfold openMain at herrors ⊢
      split_ifs at herrors ⊢
      · exact absurd herrors (errors_enter_ne_zero rfl)
      · exact ⟨_, rfl, rfl, rfl, rfl, rfl⟩
    · cases hmethod : Source.methodLine? line.text with
      | none =>
        rw [hmethod] at hopens
        cases hopens
      | some declaration =>
        rw [hmethod] at hopens
        cases hopens
        simp only [hmethod, openMethod] at hstep
        split_ifs at hstep
        · cases hstep
          exact absurd herrors (errors_enter_ne_zero rfl)
        · cases hheader : Source.MethodHeader.parse declaration with
          | error cause =>
            rw [hheader] at hstep
            cases hstep
          | ok header =>
            rw [hheader] at hstep
            cases hstep
            exact ⟨_, rfl, rfl, rfl, line_named _ _ _⟩

end Progress

/-- Texts of lines that differ in nothing but what stands between the `n`-th line, which opens a
method, and the line that ends it. -/
inductive DifferInBody (xs ys : List String) (n : Nat) : Prop
  | intro {before body body' after : List String} {header : String} {closing : Closing}
      (opens : opens? header = some closing)
      (left : xs = before ++ header :: (body ++ closing.text :: after))
      (right : ys = before ++ header :: (body' ++ closing.text :: after))
      (inside : closing.text ∉ body) (inside' : closing.text ∉ body')
      (number : n = before.length + 1)

/-- Programs that differ in the method of that line only, other line numbers aside. -/
inductive DifferInMethod (p q : Program) (n : Nat) : Prop
  | intro {ms ns rest rest' : List Method} {m m' : Method}
      (left : p.methods.toList = ms ++ m :: rest) (right : q.methods.toList = ns ++ m' :: rest')
      (before : ms.map Method.unlined = ns.map Method.unlined)
      (after : rest.map Method.unlined = rest'.map Method.unlined)
      (name : m'.name = m.name) (isEntry : m'.isEntry = m.isEntry)
      (line : m.line = n) (line' : m'.line = n)
      (constants : p.constants.map Constant.unlined = q.constants.map Constant.unlined)

/-- A run over a body: `a` behind the line that opens the method, `b` behind the line that ends it
and leaves the method as `m'`. -/
structure BodyRead (s : Setup) (opening rest : List Source.Line) (n : Nat) (a b last : Progress)
    (m m' : Method) : Prop where
  opened : readLines s {} opening = .ok a
  within : a.block = .body m false
  name : m'.name = m.name
  isEntry : m'.isEntry = m.isEntry
  line : m'.line = n
  outside : b.block = .outside
  closed : b.constantsClosed = a.constantsClosed
  seen : b.mainSeen = a.mainSeen
  program : b.program = { a.program with methods := a.program.methods.push m' }
  behind : readLines s b rest = .ok last

theorem exists_bodyRead (hset : Undotted s.set) {front body rest : List Source.Line}
    {header ending : Source.Line} {closing : Closing} (hopens : opens? header.text = some closing)
    (hending : ending.text = closing.text) (hbody : ∀ line ∈ body, line.text ≠ closing.text)
    (hsolid : ∀ line ∈ body, Text.StartsSolid line.text.toList)
    (hread : readLines s {} (front ++ header :: (body ++ ending :: rest)) = .ok a)
    (herrors : a.journal.errors = 0) :
    ∃ opened closed m m', BodyRead s (front ++ [header]) rest header.number opened closed a m m' := by
  obtain ⟨before, hfront, htail⟩ := Progress.readLines_append_eq_ok.1 hread
  obtain ⟨opened, hheader, htail⟩ := Progress.readLines_cons_eq_ok.1 htail
  obtain ⟨reached, hbody', htail⟩ := Progress.readLines_append_eq_ok.1 htail
  obtain ⟨closed, hclose, hrest⟩ := Progress.readLines_cons_eq_ok.1 htail
  -- No errors at the end means none anywhere before.
  have hclosed : closed.journal.errors = 0 :=
    Nat.le_zero.1 (herrors ▸ Progress.errors_le_of_readLines hrest)
  have hreached : reached.journal.errors = 0 :=
    Nat.le_zero.1 (hclosed ▸ (Progress.advance_of_step hclose).2)
  have hopened : opened.journal.errors = 0 :=
    Nat.le_zero.1 (hreached ▸ Progress.errors_le_of_readLines hbody')
  have hbefore : before.journal.errors = 0 :=
    Nat.le_zero.1 (hopened ▸ (Progress.advance_of_step hheader).2)
  have hopening : readLines s {} (front ++ [header]) = .ok opened :=
    Progress.readLines_snoc_eq_ok.2 ⟨before, hfront, hheader⟩
  obtain ⟨m, _, hwithin, _, hline, hends⟩ := Progress.exists_body_of_opens hset hopens hheader
    hopened (Progress.not_rejected_of_readLines hfront hbefore)
  have hopen : opened.block.method? = some m := by
    rw [hwithin]
    rfl
  obtain ⟨m', hstays⟩ := Progress.exists_stays_of_readLines hsolid hbody' hopen
    (by rwa [hends])
  have hends' : Block.bodyClosing m' = closing := by
    rw [← hends, Block.bodyClosing, hstays.isEntry, Block.bodyClosing]
  have hread' : readLines s {} ((front ++ [header]) ++ body) = .ok reached :=
    Progress.readLines_append_eq_ok.2 ⟨opened, hopening, hbody'⟩
  obtain ⟨hblock, hconstants, hseen, hprogram⟩ := Progress.step_of_bodyClosing hclose hclosed
    (Progress.not_rejected_of_readLines hread' hreached) hstays.open' (by rw [hending, hends'])
  refine ⟨opened, closed, m, m'.sealed, hopening, hwithin, hstays.name, hstays.isEntry,
    hstays.line.trans hline, hblock, hconstants.trans hstays.closed, hseen.trans hstays.seen, ?_,
    hrest⟩
  rw [hprogram, hstays.program]

theorem number_of_numbered {last : Nat} {texts : List String} {front rest : List Source.Line}
    (h : Source.numbered last texts = front ++ line :: rest) :
    line.number = last + front.length + 1 := by
  induction front generalizing last texts with
  | nil =>
    cases texts with
    | nil => cases h
    | cons text texts =>
      cases h
      rfl
  | cons first front ih =>
    cases texts with
    | nil => cases h
    | cons text texts =>
      rw [Source.numbered, List.cons_append, List.cons.injEq] at h
      rw [ih h.2, List.length_cons]
      omega

/-- The lines of a body, the line before them and the lines around. -/
theorem exists_lines_of_texts {lines : List Source.Line} {before body after : List String}
    {header ending : String}
    (h : lines.map Source.Line.text = before ++ header :: (body ++ ending :: after)) :
    ∃ front opening inside closing rest, lines = front ++ opening :: (inside ++ closing :: rest) ∧
      front.map Source.Line.text = before ∧ opening.text = header ∧
      inside.map Source.Line.text = body ∧ closing.text = ending ∧
      rest.map Source.Line.text = after := by
  obtain ⟨front, tail, rfl, hfront, htail⟩ := List.map_eq_append_iff.1 h
  obtain ⟨opening, tail, rfl, hopening, htail⟩ := List.map_eq_cons_iff.1 htail
  obtain ⟨inside, tail, rfl, hinside, htail⟩ := List.map_eq_append_iff.1 htail
  obtain ⟨closing, rest, rfl, hclosing, hrest⟩ := List.map_eq_cons_iff.1 htail
  exact ⟨front, opening, inside, closing, rest, rfl, hfront, hopening, hinside, hclosing, hrest⟩

theorem exists_bodyRead_of_texts (hset : Undotted s.set) {texts : List String}
    {before body after : List String} {header : String} {closing : Closing}
    (hopens : opens? header = some closing) (hinside : closing.text ∉ body)
    (htexts : (Source.numbered 0 texts).map Source.Line.text =
      before ++ header :: (body ++ closing.text :: after))
    (hread : readLines s {} (Source.numbered 0 texts) = .ok a) (herrors : a.journal.errors = 0) :
    ∃ opening rest opened closed m m', BodyRead s opening rest (before.length + 1) opened closed a m m' ∧
      opening.map Source.Line.text = before ++ [header] ∧ rest.map Source.Line.text = after := by
  obtain ⟨front, opening, inside, ending, rest, hlines, hfront, hopening, hbody, hending, hrest⟩ :=
    exists_lines_of_texts htexts
  rw [hlines] at hread
  have hlength : opening.number = before.length + 1 := by
    rw [number_of_numbered hlines, Nat.zero_add, ← hfront, List.length_map]
  obtain ⟨opened, closed, m, m', hbodyRead⟩ := exists_bodyRead hset (hopening ▸ hopens) hending
    (fun line hline htext => hinside (htext ▸ hbody ▸ List.mem_map_of_mem hline))
    (fun line hline => startsSolid_of_mem_numbered (hlines ▸ List.mem_append_right _
      (List.mem_cons_of_mem _ (List.mem_append_left _ hline)))) hread herrors
  refine ⟨_, rest, opened, closed, m, m', hlength ▸ hbodyRead, ?_, hrest⟩
  rw [List.map_append, hfront, List.map_singleton, hopening]

/-- Two runs without errors over lines that differ in one body. -/
theorem differInMethod_of_readLines (hset : Undotted s.set) {texts texts' : List String} {n : Nat}
    (hdiffer : DifferInBody ((Source.numbered 0 texts).map Source.Line.text)
      ((Source.numbered 0 texts').map Source.Line.text) n)
    (hread : readLines s {} (Source.numbered 0 texts) = .ok a)
    (hread' : readLines s {} (Source.numbered 0 texts') = .ok a')
    (herrors : a.journal.errors = 0) (herrors' : a'.journal.errors = 0) :
    DifferInMethod a.program a'.program n := by
  obtain ⟨opens, left, right, inside, inside', rfl⟩ := hdiffer
  obtain ⟨opening, rest, b, c, m, m', hbody, hopening, hrest⟩ :=
    exists_bodyRead_of_texts hset opens inside left hread herrors
  obtain ⟨opening', rest', b', c', n, n', hbody', hopening', hrest'⟩ :=
    exists_bodyRead_of_texts hset opens inside' right hread' herrors'
  -- Up to the line that opens the method the runs go the same way.
  obtain ⟨_, hsame, hopened⟩ := exists_abreast_of_readLines (b := {}) rfl
    (hopening.trans hopening'.symm) hbody.opened
  cases hsame.symm.trans hbody'.opened
  have hblock : b.block.unlined = b'.block.unlined := congrArg Progress.block hopened.ahead
  rw [hbody.within, hbody'.within] at hblock
  have hmethod : m.unlined = n.unlined := (Block.body.inj hblock).1
  -- So they do behind the line that ends it, as no line there can see the method.
  have hahead : c.shadow #[] = c'.shadow #[] := by
    have hclosed := congrArg Progress.constantsClosed hopened.ahead
    have hseen := congrArg Progress.mainSeen hopened.ahead
    have hprogram := congrArg Progress.program hopened.ahead
    simp only [Progress.shadow, Program.shadow] at hclosed hseen hprogram ⊢
    simp only [hbody.outside, hbody'.outside, hbody.closed, hbody'.closed, hbody.seen, hbody'.seen,
      hbody.program, hbody'.program, hclosed, hseen, hprogram]
  obtain ⟨_, hsame, hbehind⟩ := exists_abreast_of_readLines hahead (hrest.trans hrest'.symm)
    hbody.behind
  cases hsame.symm.trans hbody'.behind
  obtain ⟨ms, ns, hms, hns, hbefore⟩ := hopened.methods
  obtain ⟨ms', ns', hms', hns', hafter⟩ := hbehind.methods
  have hconstants := congrArg (fun c : Progress => c.program.constants) hbehind.ahead
  rw [hbody.program, Array.toList_push, hms, List.append_assoc] at hms'
  rw [hbody'.program, Array.toList_push, hns, List.append_assoc] at hns'
  refine .intro hms' hns' hbefore hafter ?_ ?_ hbody.line hbody'.line hconstants
  · rw [hbody'.name, hbody.name]
    exact (congrArg Method.name hmethod).symm
  · rw [hbody'.isEntry, hbody.isEntry]
    exact (congrArg Method.isEntry hmethod).symm

end Assembly

end IjvmAsm
