import IjvmAsm.Proofs.Assembly.Kept
import IjvmAsm.Proofs.Program.Sealing

/-!
# Where labels are defined

A line of a method defines a label where the method has come to some instructions. The labels of a
method are those that its lines define, and in a run without errors they stay where they were
defined, behind the same instructions.
-/

namespace IjvmAsm.Assembly

/-- A line in the body of the `k`-th method begins with that label, where the method has come to
these instructions. -/
inductive Defines (s : Setup) (lines : List Source.Line) (k : Nat) (name : String)
    (emitted : List (Operation × Nat)) : Prop
  | intro {before after : List Source.Line} {line : Source.Line} {a : Progress} {m : Method}
      {started : Bool} {rest : String} (split : lines = before ++ line :: after)
      (read : readLines s {} before = .ok a) (within : a.block = .body m started)
      (label : splitLabel line.text = some (name, rest)) (method : a.program.methods.size = k)
      (reached : m.emitted = emitted)

variable {s : Setup} {p : Program} {m m' : Method} {text : String}

theorem labels_action {n : Nat} (hsolid : Text.StartsSolid text.toList) :
    (action s p m text n).1.labels = m.labels := by
  obtain ⟨is, _, heq⟩ := exists_meant_action (s := s) (p := p) (m := m) n hsolid
  rw [heq, Method.labels_pushAll]

theorem labels_declareAll {n : Nat} {names : List String} :
    (Progress.declareAll s n m names).1.labels = m.labels := by
  induction names generalizing m with
  | nil => rfl
  | cons name rest ih =>
    have hfirst : (Progress.declare s n m name).1.labels = m.labels := by
      unfold Progress.declare
      split_ifs
      · rfl
      · rfl
    exact ih.trans hfirst

/-- The labels behind a statement are those before it, and the one that stands at its beginning. -/
theorem mem_labels_statement {n : Nat} (hsolid : Text.StartsSolid text.toList) {l : Label}
    (h : l ∈ (statement s p m text n).1.labels) :
    l ∈ m.labels ∨ (∃ rest, splitLabel text = some (l.name, rest)) ∧
      l.index = m.instructions.size := by
  unfold statement at h
  cases hsplit : splitLabel text with
  | none =>
    simp only [hsplit, labels_action hsolid] at h
    exact .inl h
  | some parts =>
    obtain ⟨name, rest⟩ := parts
    simp only [hsplit, labels_action (startsSolid_of_splitLabel hsplit)] at h
    unfold defineLabel at h
    split_ifs at h with hname
    · exact .inl h
    · cases hadd : m.addLabel name n with
      | error taken =>
        simp only [hadd] at h
        exact .inl h
      | ok labelled =>
        simp only [hadd] at h
        unfold Method.addLabel at hadd
        split at hadd
        · cases hadd
        · cases hadd
          rcases Array.mem_push.1 h with h | rfl
          · exact .inl h
          · exact .inr ⟨⟨rest, rfl⟩, rfl⟩

/-- Labels have no part in what a line asks for. -/
theorem readInstruction_labels (s : Setup) (p : Program) (m : Method) (labels : Array Label)
    (text name : String) (tokens : List String) :
    readInstruction s p { m with labels } text name tokens =
      readInstruction s p m text name tokens := by
  have harguments : ∀ operands : List (OperandKind × String),
      readArguments s p { m with labels } operands = readArguments s p m operands := by
    intro operands
    induction operands with
    | nil => rfl
    | cons operand rest ih =>
      rw [readArguments, readArguments, ih]
      cases operand.1 <;> rfl
  unfold readInstruction
  simp only [harguments]

theorem findLabel?_action {n : Nat} (hsolid : Text.StartsSolid text.toList) (name : String) :
    (action s p m text n).1.findLabel? name = m.findLabel? name := by
  rw [Method.findLabel?, labels_action hsolid, Method.findLabel?]

/-- A statement that reports no error has put its label before the instruction to come. -/
theorem findLabel?_statement {n : Nat} {name rest : String}
    (hsplit : splitLabel text = some (name, rest)) (hquiet : Quiet (statement s p m text n).2) :
    ∃ l, (statement s p m text n).1.findLabel? name = some l ∧ l.index = m.instructions.size := by
  unfold statement at hquiet ⊢
  simp only [hsplit, quiet_append, findLabel?_action (startsSolid_of_splitLabel hsplit)] at hquiet ⊢
  have hdefined := hquiet.1
  unfold defineLabel at hdefined ⊢
  by_cases hname : (!Source.isIdentifier name) = true
  · rw [if_pos hname, quiet_cons] at hdefined
    cases hdefined.1
  · rw [if_neg hname] at hdefined ⊢
    cases hadd : m.addLabel name n with
    | error taken =>
      simp only [hadd, quiet_cons] at hdefined
      cases hdefined.1
    | ok labelled => exact Method.findLabel?_addLabel hadd

theorem prolongs_pushAll {is : List Instruction} : m.Prolongs (m.pushAll is) := by
  refine ⟨Method.prefix_pushAll.map _, @fun name l hl => ⟨l, ?_, rfl⟩⟩
  rwa [Method.findLabel?, Method.labels_pushAll]

theorem Change.prolongs (h : Change s p m m') : m.Prolongs m' := by
  cases h with
  | slot name => exact m.prolongs_addVariable name
  | label _ hadded => exact Method.prolongs_addLabel hadded
  | code => exact prolongs_pushAll

theorem Changes.prolongs (h : Changes s p m m') : m.Prolongs m' := by
  induction h with
  | refl => exact .refl m
  | tail _ hchange ih => exact ih.trans hchange.prolongs

variable {a a' : Progress} {line : Source.Line} {lines : List Source.Line} {k : Nat}

theorem Turn.prolongs (h : Turn s line a m m') (hsolid : Text.StartsSolid line.text.toList) :
    m.Prolongs m' := by
  cases h with
  | statement => exact Changes.prolongs (changes_statement line.number hsolid)
  | slots _ names => exact Changes.prolongs (changes_declareAll s a.program line.number m names)
  | closing => exact m.prolongs_sealed

/-- The labels behind a line are those before it, and one that it defines. -/
theorem Turn.mem_labels (h : Turn s line a m m') (hsolid : Text.StartsSolid line.text.toList)
    {l : Label} (hl : l ∈ m'.labels) :
    (∃ l' ∈ m.labels, l'.name = l.name ∧ l'.index = l.index) ∨
      ∃ started rest, a.block = .body m started ∧ splitLabel line.text = some (l.name, rest) ∧
        l.index = m.instructions.size := by
  cases h with
  | statement within =>
    rcases mem_labels_statement hsolid hl with hl | ⟨⟨rest, hsplit⟩, hindex⟩
    · exact .inl ⟨l, hl, rfl, rfl⟩
    · exact .inr ⟨_, rest, within, hsplit, hindex⟩
  | slots =>
    rw [labels_declareAll] at hl
    exact .inl ⟨l, hl, rfl, rfl⟩
  | closing =>
    obtain ⟨f, hlabels⟩ := m.exists_labels_sealed
    rw [hlabels] at hl
    obtain ⟨l', hl', rfl⟩ := Array.mem_map.1 hl
    exact .inl ⟨l', hl', rfl, rfl⟩

theorem Course.prolongs {ms : List Method} (h : Course s line a ms)
    (hsolid : Text.StartsSolid line.text.toList) (hm : a.methods[k]? = some m) :
    ∃ m', ms[k]? = some m' ∧ m.Prolongs m' := by
  have hlt := (List.getElem?_eq_some_iff.1 hm).1
  cases h with
  | same => exact ⟨m, hm, .refl m⟩
  | opened name parameters isEntry =>
    rw [List.getElem?_append_left hlt]
    exact ⟨m, hm, .refl m⟩
  | @turned first _ turn =>
    rw [turn.methods_eq] at hm hlt
    by_cases hk : k < a.program.methods.toList.length
    · rw [List.getElem?_append_left hk] at hm ⊢
      exact ⟨m, hm, .refl m⟩
    · have hend : k = a.program.methods.toList.length := by
        rw [List.length_append, List.length_singleton] at hlt
        omega
      rw [hend, List.getElem?_concat_length] at hm ⊢
      cases hm
      exact ⟨_, rfl, turn.prolongs hsolid⟩

namespace Progress

theorem exists_prolongs_of_readLines (hsolid : ∀ line ∈ lines, Text.StartsSolid line.text.toList)
    (hm : a.methods[k]? = some m) (hread : readLines s a lines = .ok a') :
    ∃ m', a'.methods[k]? = some m' ∧ m.Prolongs m' := by
  refine readLines_induction (P := fun b => ∃ m', b.methods[k]? = some m' ∧ m.Prolongs m')
    ⟨m, hm, .refl m⟩ (fun line hline b b' hb hstep => ?_) hread
  obtain ⟨m', hm', hprolongs⟩ := hb
  obtain ⟨m'', hm'', hnext⟩ := (advance_of_step hstep).1.course.prolongs (hsolid line hline) hm'
  exact ⟨m'', hm'', hprolongs.trans hnext⟩

theorem errors_le_of_readLines (hread : readLines s a lines = .ok a') :
    a.journal.errors ≤ a'.journal.errors :=
  readLines_induction (P := fun b => a.journal.errors ≤ b.journal.errors) (Nat.le_refl _)
    (fun _ _ _ _ hb hstep => Nat.le_trans hb (advance_of_step hstep).2) hread

theorem readLines_cons_eq_ok :
    readLines s a (line :: lines) = .ok a' ↔
      ∃ b, a.step s line = .ok b ∧ readLines s b lines = .ok a' := by
  rw [readLines]
  cases a.step s line with
  | error abort => simp
  | ok b => simp

theorem readLines_append_eq_ok {before after : List Source.Line} :
    readLines s a (before ++ after) = .ok a' ↔
      ∃ b, readLines s a before = .ok b ∧ readLines s b after = .ok a' := by
  induction before generalizing a with
  | nil => simp [readLines]
  | cons line rest ih =>
    simp only [List.cons_append, readLines]
    cases a.step s line with
    | error abort => simp
    | ok b => exact ih

theorem readLines_snoc_eq_ok {before : List Source.Line} :
    readLines s a (before ++ [line]) = .ok a' ↔
      ∃ b, readLines s a before = .ok b ∧ b.step s line = .ok a' := by
  rw [readLines_append_eq_ok]
  refine exists_congr fun b => and_congr_right fun _ => ?_
  have hnil : ∀ c, readLines s c [] = .ok a' ↔ c = a' := fun c => Except.ok.injEq c a' ▸ Iff.rfl
  rw [readLines_cons_eq_ok]
  simp only [hnil, exists_eq_right]

end Progress

/-- A line of a body that neither ends a block nor opens one. -/
structure IsStatement (text : String) : Prop where
  nonempty : text.isEmpty = false
  closing : ∀ closing : Closing, text ≠ closing.text
  opening : text ≠ declarationsOpening

theorem isStatement_of_splitLabel {text name rest : String}
    (h : splitLabel text = some (name, rest)) : IsStatement text := by
  have hnone : ∀ other : String, splitLabel other = none → text ≠ other := by
    rintro other hother rfl
    rw [hother] at h
    cases h
  refine ⟨?_, fun closing => hnone _ ?_, hnone _ (by decide)⟩
  · by_contra hempty
    rw [Bool.not_eq_false, String.isEmpty_iff] at hempty
    exact hnone "" (by decide) hempty
  · cases closing <;> decide

/-- A statement in a body. -/
theorem Progress.step_of_isStatement (s : Setup) {a : Progress} {started : Bool} (n : Nat)
    {text : String} (hblock : a.block = .body m started) (h : IsStatement text) :
    a.step s ⟨n, text⟩ = .ok (a.enter (.body (statement s a.program m text n).1 true)
      (statement s a.program m text n).2) := by
  have hclosing : text ≠ (Block.bodyClosing m).text := h.closing _
  simp only [step, hblock, bodyLine, hclosing, ↓reduceIte, h.nonempty, Bool.false_eq_true, h.opening]
  rfl

/-- In a run without errors a label stays where a line defines it. -/
theorem Defines.findLabel? (hsolid : ∀ line ∈ lines, Text.StartsSolid line.text.toList)
    (hread : readLines s {} lines = .ok a) (herrors : a.journal.errors = 0) {name : String}
    {emitted : List (Operation × Nat)} (h : Defines s lines k name emitted) :
    ∃ m l, a.methods[k]? = some m ∧ m.findLabel? name = some l ∧ l.index = emitted.length ∧
      emitted <+: m.emitted := by
  obtain ⟨split, read, within, label, method, rfl⟩ := h
  rename_i before after line b m started rest
  rw [split] at hread hsolid
  obtain ⟨b', hbefore, hrest⟩ := Progress.readLines_append_eq_ok.1 hread
  cases read.symm.trans hbefore
  obtain ⟨c, hstep, hprogram, hblock, hjournal⟩ : ∃ c, b.step s line = .ok c ∧
      c.program = b.program ∧
      c.block = .body (statement s b.program m line.text line.number).1 true ∧
      c.journal = b.journal ++ (statement s b.program m line.text line.number).2 :=
    ⟨_, Progress.step_of_isStatement s line.number within (isStatement_of_splitLabel label), rfl, rfl,
      rfl⟩
  unfold readLines at hrest
  rw [hstep] at hrest
  have hquiet : c.journal.errors = 0 :=
    Nat.le_zero.1 (herrors ▸ Progress.errors_le_of_readLines hrest)
  rw [hjournal] at hquiet
  obtain ⟨l, hl, hindex⟩ := findLabel?_statement label (Journal.quiet_of_errors_appendList hquiet)
  have hopen : c.methods[k]? = some (statement s b.program m line.text line.number).1 := by
    have hat := Progress.getElem?_methods_of_open (congrArg Block.method? hblock)
    rwa [hprogram, method] at hat
  obtain ⟨m', hm', hprolongs⟩ := Progress.exists_prolongs_of_readLines
    (fun line hline => hsolid line (List.mem_append_right _ (List.mem_cons_of_mem _ hline))) hopen
    hrest
  have hstatement : m.Prolongs (statement s b.program m line.text line.number).1 :=
    Changes.prolongs (changes_statement line.number
      (hsolid line (List.mem_append_right _ List.mem_cons_self)))
  obtain ⟨l', hl', hindex'⟩ := hprolongs.labels hl
  refine ⟨m', l', hm', hl', ?_, hstatement.emitted.trans hprolongs.emitted⟩
  rw [hindex', hindex, Method.length_emitted]

def Located (s : Setup) (lines : List Source.Line) (k : Nat) (l : Label) : Prop :=
  ∃ emitted, Defines s lines k l.name emitted ∧ emitted.length = l.index

theorem Located.append {l : Label} (h : Located s lines k l) (more : List Source.Line) :
    Located s (lines ++ more) k l := by
  obtain ⟨emitted, ⟨split, read, within, label, method, reached⟩, hlength⟩ := h
  have hmore := congrArg (· ++ more) split
  simp only [List.append_assoc, List.cons_append] at hmore
  exact ⟨emitted, .intro hmore read within label method reached, hlength⟩

/-- If the labels before a line are defined, those behind it are. -/
theorem Course.located {ms : List Method} (h : Course s line a ms)
    (hsolid : Text.StartsSolid line.text.toList) (hread : readLines s {} lines = .ok a)
    (hknown : ∀ k m, a.methods[k]? = some m → ∀ l ∈ m.labels, Located s lines k l) :
    ∀ k m, ms[k]? = some m → ∀ l ∈ m.labels, Located s (lines ++ [line]) k l := by
  have hlast : ∀ {xs : List Method} {x y : Method} {k : Nat}, (xs ++ [x])[k]? = some y →
      xs[k]? = some y ∨ k = xs.length ∧ y = x := by
    intro xs x y k hy
    rw [List.getElem?_append, List.getElem?_singleton] at hy
    split_ifs at hy with hk hzero
    · exact .inl hy
    · cases hy
      exact .inr ⟨by omega, rfl⟩
  intro k m hm l hl
  cases h with
  | same => exact (hknown k m hm l hl).append _
  | opened name parameters isEntry =>
    rcases hlast hm with hm | ⟨_, rfl⟩
    · exact (hknown k m hm l hl).append _
    · rw [Method.build, foldl_addVariable] at hl
      exact absurd hl (Array.not_mem_empty l)
  | @turned open' _ turn =>
    have hmethods := turn.methods_eq
    rcases hlast hm with hm | ⟨hk, rfl⟩
    · refine (hknown k m ?_ l hl).append _
      rw [hmethods, List.getElem?_append_left (List.getElem?_eq_some_iff.1 hm).1]
      exact hm
    · rcases turn.mem_labels hsolid hl with ⟨l', hl', hname, hindex⟩ |
        ⟨started, rest, hwithin, hlabel, hindex⟩
      · rw [Located, ← hname, ← hindex]
        refine (hknown k open' ?_ l' hl').append _
        rw [hmethods, hk]
        exact List.getElem?_concat_length
      · exact ⟨open'.emitted, .intro rfl hread hwithin hlabel hk.symm rfl,
          open'.length_emitted.trans hindex.symm⟩

/-- Every label is defined by a line, where it stands. -/
theorem located_of_mem_labels (hsolid : ∀ line ∈ lines, Text.StartsSolid line.text.toList)
    (hread : readLines s {} lines = .ok a) :
    ∀ k m, a.methods[k]? = some m → ∀ l ∈ m.labels, Located s lines k l := by
  induction lines using List.reverseRecOn generalizing a with
  | nil =>
    cases hread
    exact fun k m hm => by cases hm
  | append_singleton before line ih =>
    obtain ⟨b, hbefore, hstep⟩ := Progress.readLines_snoc_eq_ok.1 hread
    have hline := hsolid line (List.mem_append_right _ List.mem_cons_self)
    have hknown := ih (fun line hline => hsolid line (List.mem_append_left _ hline)) hbefore
    exact (Progress.advance_of_step hstep).1.course.located hline hbefore hknown

theorem anchored_pushAll {is : List Instruction} (h : m.Anchored) : (m.pushAll is).Anchored := by
  induction is generalizing m with
  | nil => exact h
  | cons i rest ih => exact ih (h.push i)

/-- The labels of a method know where they stand at any time of a run. -/
theorem kept_anchored (s : Setup) : Kept s fun _ m => m.Anchored where
  build := by
    intro constants name parameters line isEntry
    rw [Method.build, foldl_addVariable]
    exact fun l hl => absurd hl (Array.not_mem_empty l)
  change := by
    intro p m m' hchange hgrown hkept
    cases hchange with
    | slot name => exact hkept
    | label _ hadded => exact hkept.addLabel hgrown.laidOut.sizeBefore_size.symm hadded
    | code => exact anchored_pushAll hkept
  sealed := fun _ hkept => hkept.sealed
  constant := id

end IjvmAsm.Assembly
