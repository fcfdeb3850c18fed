import IjvmAsm.Proofs.Assembly.Passing
import IjvmAsm.Proofs.Script.Writing

/-!
# Reading scripts

The canonical source of a script is read line by line, and no line has anything reported. What has
been read in the end is the program of the script, in which labels and methods are still
references.
-/

namespace IjvmAsm.Script

open Assembly

section Constants

variable {s : Setup} {p : Program} {closed seen : Bool}

end Constants

def pending (script : Script) (r : Routine) : Operand → Argument
  | .byte value => .resolved value.toInt
  | .var name => .resolved (r.slotNames.idxOf name)
  | .label name => .pending (.label name)
  | .constant name => .resolved (script.names.idxOf name)
  | .method name => .pending (.method name)

def Statement.extend (argument : Operand → Argument) (m : Method) (st : Statement) : Method :=
  Method.push
    { m with labels := m.labels ++ labelsFrom m.instructions.size [⟨st, m.size, m.widensNext⟩] }
    { operation := st.operation, arguments := st.operands.map argument, line := 0 }

variable {script : Script} {r : Routine} {s : Setup} {p : Program} {m : Method}

theorem find?_of_mem_standard {op : Operation} (h : op ∈ InstructionSet.standardOperations) :
    InstructionSet.standard.find? op.name = some op := by
  have hall : ∀ op ∈ InstructionSet.standardOperations,
      InstructionSet.standard.find? op.name = some op := by decide +kernel
  exact hall op h

/-- What has to be known of a statement for it to be read. -/
structure Statement.Readable (s : Setup) (p : Program) (m : Method) (argument : Operand → Argument)
    (st : Statement) : Prop where
  operation : st.operation ∈ InstructionSet.standardOperations
  kinds : st.operands.map Operand.kind = st.operation.operands
  items : ∀ operand ∈ st.operands, Source.Item operand.text
  arguments : ∀ operand ∈ st.operands,
    readArgument s p m operand.kind operand.text = .ok (argument operand, false)

namespace Statement.Readable

variable {argument : Operand → Argument} {st : Statement}

theorem texts (h : st.Readable s p m argument) :
    ∀ text ∈ st.operands.map Operand.text, Source.Item text :=
  List.forall_mem_map.2 h.items

theorem readArguments (h : st.Readable s p m argument) :
    Assembly.readArguments s p m (st.operation.operands.zip (st.operands.map Operand.text)) =
      .ok (st.operands.map argument, false) := by
  have hall : ∀ operands : List Operand, (∀ operand ∈ operands,
      readArgument s p m operand.kind operand.text = .ok (argument operand, false)) →
      Assembly.readArguments s p m ((operands.map Operand.kind).zip (operands.map Operand.text)) =
        .ok (operands.map argument, false) := by
    intro operands
    induction operands with
    | nil => exact fun _ => rfl
    | cons operand rest ih =>
      intro hall
      obtain ⟨hfirst, hrest⟩ := List.forall_mem_cons.1 hall
      rw [List.map_cons, List.map_cons, List.zip_cons_cons, Assembly.readArguments, hfirst, ih hrest]
      rfl
  rw [← h.kinds, hall st.operands h.arguments]

theorem action_eq (h : st.Readable s p m argument) (hset : s.set = .standard) :
    ∃ events, severities events = [] ∧ action s p m st.instructionText 0 =
      (m.push { operation := st.operation, arguments := st.operands.map argument, line := 0 },
        events) := by
  have hname := item_of_mem_standard h.operation
  have htokens : Source.tokensOf st.instructionText =
      st.operation.name :: st.operands.map Operand.text := Source.tokensOf_sentence hname h.texts
  have hempty : st.instructionText.isEmpty = false := by
    rw [← Bool.not_eq_true, String.isEmpty_iff]
    intro hempty
    rw [hempty] at htokens
    cases htokens
  have hdirective : st.instructionText.toList.head? ≠ some '#' := by
    intro hhead
    rcases Source.isLineChar_of_mem_sentence hname h.texts (List.mem_of_head? hhead) with hc | hc
    · revert hc
      decide
    · cases hc
  have hlength : (st.operands.map Operand.text).length = st.operation.operands.length := by
    rw [List.length_map, ← h.kinds, List.length_map]
  have hread : readInstruction s p m st.instructionText st.operation.name
      (st.operands.map Operand.text) = .ok ⟨st.operation, st.operands.map argument, none⟩ := by
    simp only [readInstruction, hset, find?_of_mem_standard h.operation, hlength, ne_eq,
      not_true_eq_false, ↓reduceIte, h.readArguments]
  simp only [action, hempty, Bool.false_eq_true, ↓reduceIte, hdirective, instruction, htokens, hread,
    Reading.perform]
  exact ⟨[_], rfl, rfl⟩

/-- Labels have no part in how a statement is read. -/
theorem labels (h : st.Readable s p m argument) (labels : Array Label) :
    st.Readable s p { m with labels } argument := by
  refine ⟨h.operation, h.kinds, h.items, fun operand hoperand => ?_⟩
  rw [← h.arguments operand hoperand]
  cases operand.kind <;> rfl

theorem isStatement (h : st.Readable s p m argument) : IsStatement st.instructionText := by
  have hname := item_of_mem_standard h.operation
  have hne : ∀ other : String, '.' ∈ other.toList → st.instructionText ≠ other := by
    rintro other hother rfl
    rcases Source.isLineChar_of_mem_sentence hname h.texts hother with hc | hc
    · revert hc
      decide
    · cases hc
  have hempty : st.instructionText.isEmpty = false := by
    obtain ⟨c, rest, hcs⟩ := List.exists_cons_of_ne_nil hname.nonempty
    rw [← Bool.not_eq_true, String.isEmpty_iff, ← String.toList_eq_nil_iff, Statement.instructionText,
      Source.toList_sentence, hcs]
    exact List.cons_ne_nil _ _
  refine ⟨hempty, fun closing => hne _ ?_, hne _ (by decide)⟩
  cases closing <;> decide

theorem exists_statement (h : st.Readable s p m argument) (hset : s.set = .standard)
    (hlabel : ∀ l ∈ labelsFrom m.instructions.size [⟨st, m.size, m.widensNext⟩],
      Source.isIdentifier l.name = true ∧ m.findLabel? l.name = none) :
    IsStatement st.text ∧ ∃ events, severities events = [] ∧
      statement s p m st.text 0 = (st.extend argument m, events) := by
  have hname := item_of_mem_standard h.operation
  unfold Statement.text
  cases hst : st.label with
  | none =>
    have hsplit : splitLabel st.instructionText = none := splitLabel_sentence hname h.texts
    have hnone : labelsFrom m.instructions.size [⟨st, m.size, m.widensNext⟩] = [] := by
      simp [labelsFrom, hst]
    obtain ⟨events, hevents, haction⟩ := h.action_eq hset
    refine ⟨h.isStatement, events, hevents, ?_⟩
    simp only [statement, hsplit, haction, Statement.extend, hnone]
    rfl
  | some name =>
    have hone : labelsFrom m.instructions.size [⟨st, m.size, m.widensNext⟩] =
        [⟨name, 0, m.size, m.instructions.size⟩] := by
      simp [labelsFrom, hst]
    rw [hone, List.forall_mem_singleton] at hlabel
    obtain ⟨hidentifier, hfree⟩ := hlabel
    have hsplit : splitLabel (name ++ ": " ++ st.instructionText) =
        some (name, st.instructionText) := splitLabel_label hidentifier
      (Source.startsSolid_sentence hname) (Source.endsSolid_sentence hname h.texts)
    obtain ⟨events, hevents, haction⟩ :=
      (h.labels (m.labels.push ⟨name, 0, m.size, m.instructions.size⟩)).action_eq hset
    obtain ⟨text, hdefine⟩ : ∃ text, defineLabel s m name 0 =
        ({ m with labels := m.labels.push ⟨name, 0, m.size, m.instructions.size⟩ },
          [.remark .debug text]) := by
      simp only [defineLabel, hidentifier, Bool.not_true, Bool.false_eq_true, ↓reduceIte,
        Method.addLabel, hfree]
      exact ⟨_, rfl⟩
    refine ⟨isStatement_of_splitLabel hsplit, .remark .debug text :: events, hevents, ?_⟩
    simp only [statement, hsplit, hdefine, haction, Statement.extend, hone]
    rfl

end Statement.Readable

variable {closed seen : Bool}

theorem Statement.Readable.passes {argument : Operand → Argument} {st : Statement}
    (h : st.Readable s p m argument) (hset : s.set = .standard)
    (hlabel : ∀ l ∈ labelsFrom m.instructions.size [⟨st, m.size, m.widensNext⟩],
      Source.isIdentifier l.name = true ∧ m.findLabel? l.name = none) :
    Passes s ⟨p, closed, seen, .body m true, #[]⟩ ⟨0, st.text⟩
      ⟨p, closed, seen, .body (st.extend argument m) true, #[]⟩ [] := by
  obtain ⟨hstatement, events, hevents, heq⟩ := h.exists_statement hset hlabel
  have hpasses := @passes_statement s p closed seen true m 0 st.text hstatement
  rwa [heq, hevents] at hpasses

def readMethod (script : Script) (isEntry : Bool) (r : Routine) : Method :=
  r.method (fun _ => script.pending r) 0 isEntry

def read (script : Script) : Program where
  constants := script.declared.toArray
  methods := (script.readMethod true script.entry ::
    script.methods.map (script.readMethod false)).toArray

end IjvmAsm.Script
