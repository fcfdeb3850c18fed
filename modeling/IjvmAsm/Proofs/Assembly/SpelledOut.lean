import IjvmAsm.Proofs.Assembly.Definition
import IjvmAsm.Proofs.Assembly.Fit
import IjvmAsm.Proofs.Assembly.Shadow
import IjvmAsm.Proofs.Source.Identifier

/-!
# Widening spelled out

An operation that widens may be inserted where a slot needs one, or be written on a line of its own.
A source without errors in which every inserted operation is written out gives the same program, if
nothing is inserted any more. A label moves to the line of the operation, which it then stands
before in both sources.
-/

namespace IjvmAsm.Assembly

/-- The setup in which no operation is inserted. -/
def Setup.narrow (s : Setup) : Setup := { s with autoWide := false }

/-- Whether an operation that widens is inserted before what the text asks for. -/
def asksWide (s : Setup) (p : Program) (m : Method) (text : String) : Bool :=
  text.toList.head? != some '#' &&
    match Source.tokensOf text with
    | [] => false
    | name :: tokens =>
      match readInstruction s p m text name tokens with
      | .ok r => r.widener.isSome
      | .error _ => false

/-- A statement with the operation that is inserted on a line of its own, and the label there. -/
def spellOut (s : Setup) (p : Program) (m : Method) (text : String) : List String :=
  match splitLabel text with
  | none => if asksWide s p m text then [Operation.wideName, text] else [text]
  | some (label, rest) =>
    if asksWide s p m rest then [label ++ ": " ++ Operation.wideName, rest] else [text]

def spelledLine (s : Setup) (a : Progress) (line : Source.Line) : List Source.Line :=
  match a.block with
  | .body m _ => (spellOut s a.program m line.text).map fun text => ⟨line.number, text⟩
  | _ => [line]

/-- Unless an instruction that is widened has a label and looks like another itself, as one does
that has a colon in its mnemonic. -/
def clearLine (s : Setup) (a : Progress) (line : Source.Line) : Bool :=
  match a.block, splitLabel line.text with
  | .body m _, some (_, rest) => !asksWide s a.program m rest || (splitLabel rest).isNone
  | _, _ => true

def clear (s : Setup) (a : Progress) : List Source.Line → Bool
  | [] => true
  | line :: rest =>
    clearLine s a line &&
      match a.step s line with
      | .error _ => true
      | .ok next => clear s next rest

def spelledOut (s : Setup) (a : Progress) : List Source.Line → List Source.Line
  | [] => []
  | line :: rest =>
    spelledLine s a line ++
      match a.step s line with
      | .error _ => rest
      | .ok next => spelledOut s next rest

variable {s : Setup} {p : Program} {m m' : Method}

/-- A method that reads variables as another does, and has a widening pending if that is needed. -/
structure Ready (m m' : Method) (widen : Bool) : Prop where
  slots : m'.slots = m.slots
  pending : m.widensNext = true → m'.widensNext = true
  widened : widen = true → m'.widensNext = true

theorem readArgument_narrow {kind : OperandKind} {token : String} {a : Argument} {widen : Bool}
    (hready : Ready m m' widen) (h : readArgument s p m kind token = .ok (a, widen)) :
    readArgument s.narrow p m' kind token = .ok (a, false) := by
  cases kind with
  | var =>
    have hfind : m'.findVariable? token = m.findVariable? token := by
      rw [Method.findVariable?, hready.slots, Method.findVariable?]
    simp only [readArgument, slotArgument, hfind] at h ⊢
    cases hv : m.findVariable? token with
    | none => simp [hv] at h
    | some v =>
      simp only [hv] at h ⊢
      split_ifs at h with hmax hnarrow hauto
      · cases h
        rw [if_neg hmax, if_pos (hnarrow.imp_right hready.pending)]
      · cases h
        rw [if_neg hmax, if_pos (.inr (hready.widened rfl))]
  | byte =>
    simp only [readArgument] at h ⊢
    cases hliteral : Literal.characterOrSigned 8 token with
    | ok value =>
      rw [hliteral] at h
      cases h
      rfl
    | error cause =>
      rw [hliteral] at h
      cases h
  | label | method =>
    cases h
    rfl
  | constant =>
    simp only [readArgument] at h ⊢
    cases hindex : p.constantIndex? token with
    | none =>
      rw [hindex] at h
      cases h
    | some index =>
      rw [hindex] at h
      cases h
      rfl

theorem readArguments_narrow {operands : List (OperandKind × String)} {as : List Argument}
    {widen : Bool} (hready : Ready m m' widen)
    (h : readArguments s p m operands = .ok (as, widen)) :
    readArguments s.narrow p m' operands = .ok (as, false) := by
  induction operands generalizing as widen with
  | nil =>
    cases h
    rfl
  | cons operand rest ih =>
    obtain ⟨kind, token⟩ := operand
    rw [readArguments] at h ⊢
    cases hfirst : readArgument s p m kind token with
    | error cause => rw [hfirst] at h; cases h
    | ok first =>
      obtain ⟨a, widenFirst⟩ := first
      rw [hfirst] at h
      cases hrest : readArguments s p m rest with
      | error cause =>
        simp only [hrest] at h
        cases h
      | ok more =>
        obtain ⟨bs, widenRest⟩ := more
        simp only [hrest] at h
        cases h
        have hfirst' := readArgument_narrow ⟨hready.slots, hready.pending, fun hw =>
          hready.widened (by rw [hw]; rfl)⟩ hfirst
        have hrest' := ih ⟨hready.slots, hready.pending, fun hw =>
          hready.widened (by rw [hw]; exact Bool.or_true _)⟩ hrest
        rw [hfirst', hrest']
        rfl

theorem readInstruction_narrow {text name : String} {tokens : List String} {r : Reading}
    (hready : Ready m m' r.widener.isSome) (h : readInstruction s p m text name tokens = .ok r) :
    readInstruction s.narrow p m' text name tokens = .ok ⟨r.operation, r.arguments, none⟩ := by
  have hset : s.narrow.set = s.set := rfl
  unfold readInstruction at h ⊢
  rw [hset]
  cases hfind : s.set.find? name with
  | none => rw [hfind] at h; cases h
  | some op =>
    simp only [hfind] at h ⊢
    split_ifs at h ⊢ with hcount
    cases hread : readArguments s p m (op.operands.zip tokens) with
    | error cause => simp only [hread] at h; cases h
    | ok result =>
      obtain ⟨as, widen⟩ := result
      cases widen with
      | false =>
        simp only [hread] at h
        cases h
        rw [readArguments_narrow hready hread]
      | true =>
        simp only [hread] at h
        cases hwidener : s.set.find? Operation.wideName with
        | none => simp only [hwidener] at h; cases h
        | some widener =>
          simp only [hwidener] at h
          cases h
          rw [readArguments_narrow hready hread]

/-- What is wrong with a line of an instruction is an error. -/
theorem severity_of_readInstruction {text name : String} {tokens : List String} {problem : Problem}
    (h : readInstruction s p m text name tokens = .error problem) : problem.severity = .error := by
  unfold readInstruction at h
  cases hfind : s.set.find? name with
  | none =>
    rw [hfind] at h
    cases h
    rfl
  | some op =>
    simp only [hfind] at h
    split_ifs at h with hcount
    · cases h
      rfl
    · cases hread : readArguments s p m (op.operands.zip tokens) with
      | error cause =>
        simp only [hread] at h
        cases h
        rfl
      | ok result =>
        obtain ⟨as, widen⟩ := result
        cases widen with
        | false => simp only [hread] at h; cases h
        | true =>
          simp only [hread] at h
          cases hwidener : s.set.find? Operation.wideName with
          | none =>
            simp only [hwidener] at h
            cases h
            rfl
          | some widener => simp only [hwidener] at h; cases h

/-- Where nothing is inserted and no error is reported, the setting makes no difference. -/
theorem action_narrow {text : String} {line : Nat} (hquiet : Quiet (action s p m text line).2)
    (hplain : asksWide s p m text = false) :
    action s.narrow p m text line = action s p m text line := by
  unfold action at hquiet ⊢
  split_ifs at hquiet ⊢ with hempty hdirective
  · rfl
  · rfl
  · unfold instruction at hquiet ⊢
    cases htokens : Source.tokensOf text with
    | nil => rfl
    | cons name tokens =>
      simp only [htokens] at hquiet ⊢
      cases hread : readInstruction s p m text name tokens with
      | error problem =>
        simp only [hread] at hquiet
        have herror := severity_of_readInstruction hread
        rw [quiet_cons, Setup.problem, Problem.isError_event, herror] at hquiet
        cases hquiet.1
      | ok r =>
        have hwidener : r.widener = none := by
          have hhead : (text.toList.head? != some '#') = true := bne_iff_ne.2 hdirective
          simpa only [asksWide, hhead, htokens, hread, Bool.true_and, Option.isSome_eq_false_iff,
            Option.isNone_iff_eq_none] using hplain
        have hready : Ready m m r.widener.isSome := ⟨rfl, id, by simp [hwidener]⟩
        have hnarrow := readInstruction_narrow hready hread
        simp only [hnarrow, Reading.perform, hwidener]

theorem asksWide_labels (s : Setup) (p : Program) (m : Method) (labels : Array Label)
    (text : String) : asksWide s p { m with labels } text = asksWide s p m text := by
  simp only [asksWide, readInstruction_labels]

theorem exists_labels_defineLabel (s : Setup) (m : Method) (name : String) (line : Nat) :
    ∃ labels, (defineLabel s m name line).1 = { m with labels } := by
  unfold defineLabel
  split_ifs
  · exact ⟨m.labels, rfl⟩
  · unfold Method.addLabel
    cases m.findLabel? name with
    | some taken => exact ⟨m.labels, rfl⟩
    | none => exact ⟨_, rfl⟩

theorem statement_narrow {text : String} {line : Nat}
    (hquiet : Quiet (statement s p m text line).2) (hplain : spellOut s p m text = [text]) :
    statement s.narrow p m text line = statement s p m text line := by
  unfold statement at hquiet ⊢
  unfold spellOut at hplain
  cases hsplit : splitLabel text with
  | none =>
    simp only [hsplit] at hquiet hplain ⊢
    refine action_narrow hquiet ?_
    by_contra hasks
    rw [Bool.not_eq_false] at hasks
    simp [hasks] at hplain
  | some parts =>
    obtain ⟨name, rest⟩ := parts
    obtain ⟨labels, hlabels⟩ := exists_labels_defineLabel s m name line
    simp only [hsplit] at hquiet hplain ⊢
    have hdefine : defineLabel s.narrow m name line = defineLabel s m name line := rfl
    rw [hdefine, action_narrow (quiet_append.1 hquiet).2]
    rw [hlabels, asksWide_labels]
    by_contra hasks
    rw [Bool.not_eq_false] at hasks
    simp [hasks] at hplain

theorem exists_reading_of_asksWide {text : String} (h : asksWide s p m text = true) :
    text.toList.head? ≠ some '#' ∧ ∃ name tokens r widener,
      Source.tokensOf text = name :: tokens ∧ readInstruction s p m text name tokens = .ok r ∧
        r.widener = some widener := by
  rw [asksWide, Bool.and_eq_true, bne_iff_ne] at h
  refine ⟨h.1, ?_⟩
  cases htokens : Source.tokensOf text with
  | nil => simp [htokens] at h
  | cons name tokens =>
    cases hread : readInstruction s p m text name tokens with
    | error problem => simp [htokens, hread] at h
    | ok r =>
      simp only [htokens, hread] at h
      obtain ⟨widener, hwidener⟩ := Option.isSome_iff_exists.1 h.2
      exact ⟨name, tokens, r, widener, rfl, hread, hwidener⟩

/-- The operation that is inserted is the one that widens, and a slot has asked for it. -/
theorem find?_of_readInstruction {text name : String} {tokens : List String} {r : Reading}
    {widener : Operation} (h : readInstruction s p m text name tokens = .ok r)
    (hwidener : r.widener = some widener) :
    s.set.find? Operation.wideName = some widener ∧ tokens ≠ [] := by
  unfold readInstruction at h
  cases hfind : s.set.find? name with
  | none => rw [hfind] at h; cases h
  | some op =>
    simp only [hfind] at h
    split_ifs at h with hcount
    cases hread : readArguments s p m (op.operands.zip tokens) with
    | error cause => simp only [hread] at h; cases h
    | ok result =>
      obtain ⟨as, widen⟩ := result
      cases widen with
      | false =>
        simp only [hread] at h
        cases h
        cases hwidener
      | true =>
        simp only [hread] at h
        cases hfound : s.set.find? Operation.wideName with
        | none => simp only [hfound] at h; cases h
        | some found =>
          simp only [hfound] at h
          cases h
          cases hwidener
          refine ⟨rfl, ?_⟩
          rintro rfl
          rw [List.zip_nil_right] at hread
          cases hread

theorem isEmpty_of_tokensOf {text name : String} {tokens : List String}
    (h : Source.tokensOf text = name :: tokens) : text.isEmpty = false := by
  by_contra hempty
  rw [Bool.not_eq_false, String.isEmpty_iff] at hempty
  rw [hempty] at h
  cases h

/-- What an instruction that has to be widened comes to, where the operation that widens is
inserted and where it stands before. -/
theorem action_of_asksWide {text : String} (h : asksWide s p m text = true) (line : Nat) :
    ∃ widener i, s.set.find? Operation.wideName = some widener ∧
      (action s p m text line).1 = (m.push { operation := widener, arguments := [], line }).push i ∧
      reports (action s p m text line).2 = [] ∧
      ∀ m' : Method, m'.slots = m.slots → m'.widensNext = true →
        (action s.narrow p m' text line).1 = m'.push i ∧
          reports (action s.narrow p m' text line).2 = [] := by
  obtain ⟨hplain, name, tokens, r, widener, htokens, hread, hwidener⟩ :=
    exists_reading_of_asksWide h
  have hempty := isEmpty_of_tokensOf htokens
  refine ⟨widener, { operation := r.operation, arguments := r.arguments, line },
    (find?_of_readInstruction hread hwidener).1, ?_, ?_, fun m' hslots hwiden => ?_⟩
  · simp only [action, hempty, Bool.false_eq_true, ↓reduceIte, hplain, instruction, htokens, hread,
      Reading.perform, hwidener]
  · simp only [action, hempty, Bool.false_eq_true, ↓reduceIte, hplain, instruction, htokens, hread,
      Reading.perform, hwidener]
    rfl
  · have hready : Ready m m' r.widener.isSome := ⟨hslots, fun _ => hwiden, fun _ => hwiden⟩
    have hnarrow := readInstruction_narrow hready hread
    simp only [action, hempty, Bool.false_eq_true, ↓reduceIte, hplain, instruction, htokens, hnarrow,
      Reading.perform]
    exact ⟨trivial, rfl⟩

theorem readInstruction_wide {widener : Operation}
    (hfind : s.set.find? Operation.wideName = some widener) (hoperands : widener.operands = []) :
    readInstruction s p m Operation.wideName Operation.wideName [] = .ok ⟨widener, [], none⟩ := by
  unfold readInstruction
  simp only [hfind, hoperands]
  rfl

/-- The line of an operation that widens. -/
theorem action_wide {widener : Operation} (hfind : s.set.find? Operation.wideName = some widener)
    (hoperands : widener.operands = []) (p : Program) (m : Method) (line : Nat) :
    (action s.narrow p m Operation.wideName line).1 =
        m.push { operation := widener, arguments := [], line } ∧
      reports (action s.narrow p m Operation.wideName line).2 = [] := by
  have htokens : Source.tokensOf Operation.wideName = [Operation.wideName] := by decide
  have hempty : Operation.wideName.isEmpty = false := by decide
  have hplain : Operation.wideName.toList.head? ≠ some '#' := by decide
  have hread := @readInstruction_wide s.narrow p m widener hfind hoperands
  simp only [action, hempty, Bool.false_eq_true, ↓reduceIte, hplain, instruction, htokens, hread,
    Reading.perform]
  exact ⟨trivial, rfl⟩

theorem isStatement_wide : IsStatement Operation.wideName := by
  refine ⟨by decide, fun closing => ?_, by decide⟩
  cases closing <;> decide

theorem isStatement_of_asksWide {text : String} (h : asksWide s p m text = true) :
    IsStatement text := by
  obtain ⟨_, name, tokens, r, widener, htokens, hread, hwidener⟩ := exists_reading_of_asksWide h
  have hmore := (find?_of_readInstruction hread hwidener).2
  -- What ends a block or opens one is a single token, and a slot takes another.
  have hsingle : ∀ other : String, Source.tokensOf other = [other] → text ≠ other := by
    rintro other hother rfl
    rw [hother, List.cons.injEq] at htokens
    exact hmore htokens.2.symm
  refine ⟨isEmpty_of_tokensOf htokens, fun closing => hsingle _ ?_, hsingle _ (by decide)⟩
  cases closing <;> decide

theorem isIdentifier_of_quiet {name : String} {line : Nat}
    (h : Quiet (defineLabel s m name line).2) : Source.isIdentifier name = true := by
  unfold defineLabel at h
  by_contra hname
  rw [Bool.not_eq_true] at hname
  rw [if_pos (by rw [hname]; rfl), quiet_cons] at h
  cases h.1

/-- Two statements that do together what one does that has to be widened. -/
structure Spells (s : Setup) (p : Program) (m : Method) (line : Nat) (text first second : String) :
    Prop where
  isWhole : IsStatement text
  isFirst : IsStatement first
  isSecond : IsStatement second
  method : (statement s.narrow p (statement s.narrow p m first line).1 second line).1 =
    (statement s p m text line).1
  reports : reports ((statement s.narrow p m first line).2 ++
    (statement s.narrow p (statement s.narrow p m first line).1 second line).2) =
      reports (statement s p m text line).2

variable {line : Nat}

/-- An instruction that is widened, behind its label if it has one. -/
theorem spells_of_asksWide (hwide : ∀ op, s.set.find? Operation.wideName = some op →
      op.operands = []) {text : String} (hsplit : splitLabel text = none)
    (hasks : asksWide s p m text = true) : Spells s p m line text Operation.wideName text := by
  obtain ⟨widener, i, hfind, hmethod, hevents, hnarrow⟩ := action_of_asksWide hasks line
  obtain ⟨hwidened, hquiet⟩ := action_wide hfind (hwide widener hfind) p m line
  have hsplitWide : splitLabel Operation.wideName = none := by decide
  have hpending : (m.push { operation := widener, arguments := [], line }).widensNext = true :=
    widens_of_find? hfind
  have hfirst : statement s.narrow p m Operation.wideName line =
      action s.narrow p m Operation.wideName line := by
    simp only [statement, hsplitWide]
  have hsecond : ∀ s' m', statement s' p m' text line = action s' p m' text line := by
    intro s' m'
    simp only [statement, hsplit]
  obtain ⟨hsame, hquiet'⟩ := hnarrow (m.push { operation := widener, arguments := [], line }) rfl
    hpending
  refine ⟨isStatement_of_asksWide hasks, isStatement_wide, isStatement_of_asksWide hasks, ?_, ?_⟩
  · rw [hfirst, hsecond, hsecond, hwidened, hsame, hmethod]
  · rw [reports_append, hfirst, hsecond, hsecond, hwidened, hquiet, hquiet', hevents]
    rfl

theorem spells_labelled (hwide : ∀ op, s.set.find? Operation.wideName = some op →
      op.operands = []) {text name rest : String} (hsplit : splitLabel text = some (name, rest))
    (hquiet : Quiet (statement s p m text line).2) (hasks : asksWide s p m rest = true)
    (hclear : splitLabel rest = none) :
    Spells s p m line text (name ++ ": " ++ Operation.wideName) rest := by
  have hwhole : statement s p m text line = ((action s p (defineLabel s m name line).1 rest line).1,
      (defineLabel s m name line).2 ++ (action s p (defineLabel s m name line).1 rest line).2) := by
    simp only [statement, hsplit]
  rw [hwhole] at hquiet
  have hname := isIdentifier_of_quiet (quiet_append.1 hquiet).1
  have hsplit' : splitLabel (name ++ ": " ++ Operation.wideName) =
      some (name, Operation.wideName) := by
    refine splitLabel_label hname (fun c hc => ?_) fun c hc => ?_
    · cases hc
      decide
    · cases hc
      decide
  obtain ⟨labels, hlabels⟩ := exists_labels_defineLabel s m name line
  -- The label is defined in both sources before anything is appended.
  have hafter : Spells s p (defineLabel s m name line).1 line rest Operation.wideName rest := by
    refine spells_of_asksWide hwide hclear ?_
    rw [hlabels, asksWide_labels, hasks]
  have hsplitWide : splitLabel Operation.wideName = none := by decide
  have hfirst : statement s.narrow p m (name ++ ": " ++ Operation.wideName) line =
      ((statement s.narrow p (defineLabel s m name line).1 Operation.wideName line).1,
        (defineLabel s m name line).2 ++
          (statement s.narrow p (defineLabel s m name line).1 Operation.wideName line).2) := by
    simp only [statement, hsplit', hsplitWide]
    rfl
  have hrest : statement s p (defineLabel s m name line).1 rest line =
      action s p (defineLabel s m name line).1 rest line := by
    simp only [statement, hclear]
  obtain ⟨_, _, hsecond, hmethod, hevents⟩ := hafter
  rw [hrest] at hmethod hevents
  refine ⟨isStatement_of_splitLabel hsplit, isStatement_of_splitLabel hsplit', hsecond, ?_, ?_⟩
  · rw [hwhole, hfirst, hmethod]
  · rw [hwhole, hfirst, List.append_assoc, reports_append, hevents, ← reports_append]

theorem readLines_pair {a b c : Progress} {first second : Source.Line}
    (hfirst : a.step s first = .ok b) (hsecond : b.step s second = .ok c) :
    readLines s a [first, second] = .ok c := by
  simp only [readLines, hfirst]
  rw [hsecond]

/-- The two lines come to what the one comes to. -/
theorem Spells.exists_abreast {a : Progress} {started : Bool} {n : Nat} {text first second : String}
    (h : Spells s a.program m n text first second) (hblock : a.block = .body m started) :
    ∃ a' a'', a.step s ⟨n, text⟩ = .ok a' ∧
      readLines s.narrow a [⟨n, first⟩, ⟨n, second⟩] = .ok a'' ∧ Abreast a a' a a'' := by
  have hwhole := Progress.step_of_isStatement s n hblock h.isWhole
  have hfirst := Progress.step_of_isStatement s.narrow n hblock h.isFirst
  obtain ⟨next, hnext⟩ : ∃ next, a.enter (.body (statement s.narrow a.program m first n).1 true)
    (statement s.narrow a.program m first n).2 = next := ⟨_, rfl⟩
  have hblock' : next.block = .body (statement s.narrow a.program m first n).1 true := by
    rw [← hnext]
    rfl
  have hprogram : next.program = a.program := by
    rw [← hnext]
    rfl
  have hsecond := Progress.step_of_isStatement s.narrow n hblock' h.isSecond
  rw [hnext] at hfirst
  rw [hprogram, h.method] at hsecond
  refine ⟨_, _, hwhole, readLines_pair hfirst hsecond, ?_,
    ⟨[], [], (List.append_nil _).symm, ?_, rfl⟩, _, _, Array.toList_appendList, ?_,
    h.reports.symm⟩
  · rw [← hnext]
    rfl
  · rw [← hnext]
    exact (List.append_nil _).symm
  · rw [← hnext]
    simp only [Progress.enter, Array.toList_appendList, List.append_assoc]

theorem Progress.declareAll_narrow (line : Nat) (m : Method) (names : List String) :
    declareAll s.narrow line m names = declareAll s line m names := by
  induction names generalizing m with
  | nil => rfl
  | cons name rest ih =>
    have hdeclare : declare s.narrow line m name = declare s line m name := rfl
    simp only [declareAll, hdeclare, ih]

/-- So it does for a line at which nothing is inserted. -/
theorem Progress.step_narrow {a a' : Progress} {line : Source.Line}
    (hstep : a.step s line = .ok a') (hquiet : a'.journal.errors = 0)
    (hplain : spelledLine s a line = [line]) : a.step s.narrow line = .ok a' := by
  unfold step at hstep ⊢
  cases hblock : a.block with
  | outside =>
    rw [hblock] at hstep
    exact hstep
  | constants =>
    rw [hblock] at hstep
    exact hstep
  | body m started =>
    rw [hblock] at hstep
    simp only [bodyLine] at hstep ⊢
    split_ifs at hstep ⊢ with hclosing hempty hopening hstarted
    · exact hstep
    · exact hstep
    · exact hstep
    · exact hstep
    · cases hstep
      have hspelled : spellOut s a.program m line.text = [line.text] := by
        simp only [spelledLine, hblock] at hplain
        have htexts := congrArg (List.map Source.Line.text) hplain
        simpa only [List.map_map, Function.comp_def, List.map_id', List.map_cons,
          List.map_nil] using htexts
      rw [statement_narrow (Journal.quiet_of_errors_appendList hquiet) hspelled]
  | declarations m =>
    rw [hblock] at hstep
    simp only [declarationsLine, declareAll_narrow]
    exact hstep
  | rejected closing within =>
    rw [hblock] at hstep
    exact hstep

theorem exists_abreast_spelledLine {a a' : Progress} {line : Source.Line}
    (hwide : ∀ op, s.set.find? Operation.wideName = some op → op.operands = [])
    (hclear : clearLine s a line = true) (hstep : a.step s line = .ok a')
    (hquiet : a'.journal.errors = 0) :
    ∃ a'', readLines s.narrow a (spelledLine s a line) = .ok a'' ∧ Abreast a a' a a'' := by
  -- A line at which nothing is inserted is read as before.
  have hkept : spelledLine s a line = [line] →
      ∃ a'', readLines s.narrow a (spelledLine s a line) = .ok a'' ∧ Abreast a a' a a'' := by
    intro hplain
    have hpaired : Progress.Paired a a (a.step s line) (a.step s line) :=
      Progress.paired_of_shadow rfl rfl
    rw [hstep] at hpaired
    obtain ⟨_, hsame, habreast⟩ := hpaired.exists_abreast
    cases hsame
    refine ⟨a', ?_, habreast⟩
    rw [hplain, readLines, Progress.step_narrow hstep hquiet hplain]
    rfl
  -- Two lines that do the same stand in its place.
  have hspelled : ∀ {m started first second}, a.block = .body m started →
      Spells s a.program m line.number line.text first second →
      spelledLine s a line = [⟨line.number, first⟩, ⟨line.number, second⟩] →
      ∃ a'', readLines s.narrow a (spelledLine s a line) = .ok a'' ∧ Abreast a a' a a'' := by
    intro m started first second hblock hspells hlines
    obtain ⟨b, b', hb, hread, habreast⟩ := hspells.exists_abreast hblock
    cases hstep.symm.trans hb
    exact ⟨b', by rw [hlines, hread], habreast⟩
  cases hblock : a.block with
  | body m started =>
    have hlines : spelledLine s a line =
        (spellOut s a.program m line.text).map fun text => ⟨line.number, text⟩ := by
      simp only [spelledLine, hblock]
    cases hsplit : splitLabel line.text with
    | none =>
      cases hasks : asksWide s a.program m line.text with
      | false =>
        refine hkept ?_
        simp [hlines, spellOut, hsplit, hasks]
      | true =>
        refine hspelled hblock (spells_of_asksWide hwide hsplit hasks) ?_
        simp [hlines, spellOut, hsplit, hasks]
    | some parts =>
      obtain ⟨label, rest⟩ := parts
      cases hasks : asksWide s a.program m rest with
      | false =>
        refine hkept ?_
        simp [hlines, spellOut, hsplit, hasks]
      | true =>
        have hwhole := Progress.step_of_isStatement s line.number hblock
          (isStatement_of_splitLabel hsplit)
        cases hstep.symm.trans hwhole
        have hrest : splitLabel rest = none := by
          simpa only [clearLine, hblock, hsplit, hasks, Bool.not_true, Bool.false_or,
            Option.isNone_iff_eq_none] using hclear
        refine hspelled hblock (spells_labelled hwide hsplit
          (Journal.quiet_of_errors_appendList hquiet) hasks hrest) ?_
        simp [hlines, spellOut, hsplit, hasks]
  | _ =>
    refine hkept ?_
    simp only [spelledLine, hblock]

/-- Reading lines with all inserted operations written out. -/
theorem exists_abreast_spelledOut {a a' : Progress} {lines : List Source.Line}
    (hwide : ∀ op, s.set.find? Operation.wideName = some op → op.operands = [])
    (hclear : clear s a lines = true) (hread : readLines s a lines = .ok a')
    (hquiet : a'.journal.errors = 0) :
    ∃ a'', readLines s.narrow a (spelledOut s a lines) = .ok a'' ∧ Abreast a a' a a'' := by
  induction lines generalizing a with
  | nil =>
    cases hread
    exact ⟨_, rfl, .start rfl⟩
  | cons line rest ih =>
    rw [readLines] at hread
    cases hstep : a.step s line with
    | error abort =>
      rw [hstep] at hread
      cases hread
    | ok next =>
      rw [hstep] at hread
      rw [clear, hstep, Bool.and_eq_true] at hclear
      obtain ⟨hline, hrest⟩ := hclear
      have hnext : next.journal.errors = 0 :=
        Nat.le_zero.1 (hquiet ▸ Progress.errors_le_of_readLines hread)
      obtain ⟨next', hreadLine, hbefore⟩ := exists_abreast_spelledLine hwide hline hstep hnext
      obtain ⟨b, hreadRest, hafter⟩ := ih hrest hread
      -- The lines behind are read from `next'`, which no line can tell from `next`.
      obtain ⟨b', hread', hsame⟩ := exists_abreast_of_readLines hbefore.ahead rfl hreadRest
      refine ⟨b', ?_, hbefore.append (hafter.trans hsame)⟩
      rw [spelledOut, hstep, Progress.readLines_append_eq_ok]
      exact ⟨next', hreadLine, hread'⟩

end IjvmAsm.Assembly
