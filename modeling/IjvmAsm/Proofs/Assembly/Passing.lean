import IjvmAsm.Proofs.Assembly.Definition
import IjvmAsm.Proofs.Program.Unlined
import IjvmAsm.Proofs.Source.Header

/-!
# Lines and what they lead to

What each kind of line does to a run that stands where such a line belongs, and how grave the
problems are that it has reported. Lines that are read one after the other lead from one run to
another.
-/

namespace IjvmAsm.Assembly

/-- The line leads from one run to the other, and problems of these severities are reported. -/
def Passes (s : Setup) (a : Progress) (line : Source.Line) (b : Progress)
    (reported : List Severity) : Prop :=
  ∀ journal : Journal, ∃ events, severities events = reported ∧
    Progress.step s { a with journal } line = .ok { b with journal := journal ++ events }

inductive Reads (s : Setup) : Progress → List Source.Line → Progress → List Severity → Prop
  | nil (a : Progress) : Reads s a [] a []
  | cons {a b c : Progress} {line : Source.Line} {lines : List Source.Line}
      {reported more : List Severity} (first : Passes s a line b reported)
      (rest : Reads s b lines c more) : Reads s a (line :: lines) c (reported ++ more)

variable {s : Setup}

namespace Reads

variable {a b c : Progress} {lines lines' : List Source.Line} {line : Source.Line}
  {reported more : List Severity}

theorem append (h : Reads s a lines b reported) (h' : Reads s b lines' c more) :
    Reads s a (lines ++ lines') c (reported ++ more) := by
  induction h with
  | nil => exact h'
  | cons first _ ih =>
    rw [List.append_assoc]
    exact .cons first (ih h')

theorem snoc (h : Reads s a lines b reported) (h' : Passes s b line c []) :
    Reads s a (lines ++ [line]) c reported := by
  have hboth := h.append (.cons h' (.nil c))
  rwa [List.append_nil, List.append_nil] at hboth

theorem readLines (h : Reads s a lines b reported) (journal : Journal) :
    ∃ events, severities events = reported ∧
      readLines s { a with journal } lines = .ok { b with journal := journal ++ events } := by
  induction h generalizing journal with
  | nil a => exact ⟨[], rfl, rfl⟩
  | cons first _ ih =>
    obtain ⟨events, hevents, hstep⟩ := first journal
    obtain ⟨events', hevents', hrest⟩ := ih (journal ++ events)
    have hjournal : journal ++ (events ++ events') = journal ++ events ++ events' := by
      rw [← Array.toList_inj, Array.toList_appendList, Array.toList_appendList,
        Array.toList_appendList, List.append_assoc]
    refine ⟨events ++ events', by rw [severities_append, hevents, hevents'], ?_⟩
    rw [Assembly.readLines, hstep, hjournal]
    exact hrest

end Reads

variable {p : Program} {closed seen started : Bool} {m : Method} {n : Nat} {text : String}

theorem passes_constantsOpening : Passes s ⟨p, false, false, .outside, #[]⟩ ⟨n, constantsOpening⟩
    ⟨p, false, false, .constants, #[]⟩ [] := fun _ => ⟨[_], rfl, rfl⟩

theorem passes_constantsClosing : Passes s ⟨p, closed, seen, .constants, #[]⟩
    ⟨n, Closing.constants.text⟩ ⟨p, true, seen, .outside, #[]⟩ [] := fun _ => ⟨[], rfl, rfl⟩

theorem passes_mainOpening : Passes s ⟨p, closed, false, .outside, #[]⟩ ⟨n, mainOpening⟩
    ⟨p, closed, true, .body (.entry n) false, #[]⟩ [] := fun _ => ⟨[_, _], rfl, rfl⟩

theorem passes_declarationsOpening : Passes s ⟨p, closed, seen, .body m false, #[]⟩
    ⟨n, declarationsOpening⟩ ⟨p, closed, seen, .declarations m, #[]⟩ [] := by
  have hclosing : declarationsOpening ≠ (Block.bodyClosing m).text := by
    unfold Block.bodyClosing
    split_ifs
    · decide
    · decide
  intro journal
  simp only [Progress.step, Progress.bodyLine, hclosing, ↓reduceIte]
  exact ⟨[], rfl, rfl⟩

theorem passes_declarationsClosing : Passes s ⟨p, closed, seen, .declarations m, #[]⟩
    ⟨n, Closing.declarations.text⟩ ⟨p, closed, seen, .body m true, #[]⟩ [] := fun _ => ⟨[], rfl, rfl⟩

/-- Two tokens on a line of the block of constants. -/
theorem passes_constant {name literal : String} {constant : Constant}
    (htokens : Source.tokensOf text = [name, literal])
    (hread : Progress.readConstant p name literal n = .ok constant) :
    Passes s ⟨p, closed, seen, .constants, #[]⟩ ⟨n, text⟩
      ⟨{ p with constants := p.constants.push constant }, closed, seen, .constants, #[]⟩ [] := by
  have hne : ∀ other : String, (Source.tokensOf other).length ≠ 2 → text ≠ other := by
    rintro other hother rfl
    rw [htokens] at hother
    exact hother rfl
  have hempty : text.isEmpty = false := by
    rw [← Bool.not_eq_true, String.isEmpty_iff]
    exact hne "" (by decide)
  have hclosing : text ≠ Closing.constants.text := hne _ (by decide)
  intro journal
  simp only [Progress.step, hclosing, ↓reduceIte, hempty, Bool.false_eq_true, Progress.constantLine,
    htokens, hread]
  exact ⟨[_], rfl, rfl⟩

theorem passes_declarations (hclosing : text ≠ Closing.declarations.text) :
    let declared := Progress.declareAll s n m ((Text.words text.toList).map String.ofList)
    Passes s ⟨p, closed, seen, .declarations m, #[]⟩ ⟨n, text⟩
      ⟨p, closed, seen, .declarations declared.1, #[]⟩ (severities declared.2) := by
  intro declared journal
  simp only [Progress.step, Progress.declarationsLine, hclosing, ↓reduceIte]
  exact ⟨declared.2, rfl, rfl⟩

theorem passes_statement (h : IsStatement text) :
    Passes s ⟨p, closed, seen, .body m started, #[]⟩ ⟨n, text⟩
      ⟨p, closed, seen, .body (statement s p m text n).1 true, #[]⟩
      (severities (statement s p m text n).2) :=
  fun _ => ⟨_, rfl, Progress.step_of_isStatement s n rfl h⟩

/-- The line of an instruction that needs no widening. -/
theorem passes_instruction {name : String} {tokens : List String} {op : Operation}
    {arguments : List Argument} (h : IsStatement text) (hsplit : splitLabel text = none)
    (hdirective : text.toList.head? ≠ some '#') (htokens : Source.tokensOf text = name :: tokens)
    (hread : readInstruction s p m text name tokens = .ok ⟨op, arguments, none⟩) :
    Passes s ⟨p, closed, seen, .body m started, #[]⟩ ⟨n, text⟩
      ⟨p, closed, seen, .body (m.push { operation := op, arguments, line := n }) true, #[]⟩ [] := by
  have hpasses := @passes_statement s p closed seen started m n text h
  have hempty := h.nonempty
  simp only [statement, hsplit, action, hempty, Bool.false_eq_true, ↓reduceIte, hdirective,
    instruction, htokens, hread] at hpasses
  exact hpasses

theorem passes_bodyClosing :
    Passes s ⟨p, closed, seen, .body m started, #[]⟩ ⟨n, (Block.bodyClosing m).text⟩
      ⟨{ p with methods := p.methods.push m.sealed }, closed, seen, .outside, #[]⟩
      (if m.widensNext then [.warning] else []) := by
  intro journal
  simp only [Progress.step, Progress.bodyLine, ↓reduceIte, Progress.closeBody]
  refine ⟨_, ?_, rfl⟩
  split_ifs <;> rfl

end IjvmAsm.Assembly
