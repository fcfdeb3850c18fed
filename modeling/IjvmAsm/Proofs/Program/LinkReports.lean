import IjvmAsm.Proofs.Program.Interrupted

/-!
# What linking reports

Without an entry method linking reports just that. Otherwise it reports at most one method, whose
name is taken, and then the references that it leaves pending, in the order in which they stand.
Where a name is taken calls are left without being looked at, and nothing is reported of them.
-/

namespace IjvmAsm

/-- What is wrong with an argument that linking has left as it is; with a call, only if calls have
been looked at. -/
def Method.problem? (calls : Bool) (m : Method) (i : Instruction) : Argument → Option Problem
  | .resolved _ => none
  | .pending (.label name) => m.labelProblem? i (.pending (.label name))
  | .pending (.method name) => if calls then some (.undefinedMethod m.name name) else none

def Instruction.reports (file : String) (calls : Bool) (m : Method) (i : Instruction) :
    List Diagnostic :=
  i.arguments.filterMap fun a => (m.problem? calls i a).map fun problem =>
    problem.diagnostic file i.line

def Method.reports (file : String) (calls : Bool) (m : Method) : List Diagnostic :=
  m.instructions.toList.flatMap (Instruction.reports file calls m)

def Method.instructionLines (m : Method) : List Nat := m.instructions.toList.map Instruction.line

namespace Program

def instructionLines (p : Program) : List Nat := p.methods.toList.flatMap Method.instructionLines

def referenceReports (file : String) (calls : Bool) (p : Program) : List Diagnostic :=
  p.methods.toList.flatMap (Method.reports file calls)

/-- Whether calls have been looked at, and what has been reported if not: a method whose name a
constant has got before. -/
inductive Clash (file : String) (p : Program) : Bool → List Diagnostic → Prop
  | none : Clash file p true []
  | taken {m : Method} {c : Constant} (member : m ∈ p.methods) (constant : c ∈ p.constants)
      (same : c.name = m.name) :
      Clash file p false [(Problem.methodTaken m.name c.line).diagnostic file m.line]

/-- What linking has reported of the program that it has given. -/
inductive LinkReported (file : String) (p : Program) : List Diagnostic → Prop
  | noMain (empty : p.methods = #[]) : LinkReported file p [Problem.noMain.diagnostic file 0]
  | references {calls : Bool} {clashes : List Diagnostic} (some : p.methods ≠ #[])
      (clash : Clash file p calls clashes)
      (ordered : (p.referenceReports file calls).Pairwise (·.line ≤ ·.line)) :
      LinkReported file p (clashes ++ p.referenceReports file calls)

end Program

/-- What is wrong with a reference is an error. -/
theorem Method.severity_of_problem? {calls : Bool} {m : Method} {i : Instruction} {a : Argument}
    {problem : Problem} (h : m.problem? calls i a = some problem) : problem.severity = .error := by
  match a with
  | .resolved value => cases h
  | .pending (.label name) =>
    unfold Method.problem? Method.labelProblem? at h
    dsimp only at h
    cases hfind : m.findLabel? name with
    | none =>
      rw [hfind] at h
      cases h
      rfl
    | some l =>
      rw [hfind] at h
      dsimp only at h
      split_ifs at h
      cases h
      rfl
  | .pending (.method name) =>
    unfold Method.problem? at h
    dsimp only at h
    split_ifs at h
    cases h
    rfl

namespace Scope

/-- What is reported of an argument can be told from what it is afterwards. -/
theorem diagnostic?_resolve_eq (s : Scope) (i : Instruction) (a : Argument) :
    (s.resolve i a).2.bind Event.diagnostic? =
      (s.method.problem? s.pool.isSome i (s.resolve i a).1).map fun problem =>
        problem.diagnostic s.file i.line := by
  match a with
  | .resolved value => rfl
  | .pending (.label name) =>
    rw [resolve, distance]
    cases hfind : s.method.findLabel? name with
    | none =>
      simp only [settle, Method.problem?, Method.labelProblem?, hfind]
      rfl
    | some l =>
      dsimp only
      split_ifs with hfits
      · rfl
      · rw [fitsSigned_sixteen_iff] at hfits
        simp only [settle, Method.problem?, Method.labelProblem?, hfind, if_neg hfits]
        rfl
  | .pending (.method name) =>
    rw [resolve]
    cases s.pool with
    | none => rfl
    | some pool =>
      dsimp only
      rw [methodIndex]
      cases pool.findIdx? fun c => c.name == name with
      | none => rfl
      | some index => rfl

theorem diagnostics_resolveMethod_eq (s : Scope) : s.resolveMethod.2.filterMap Event.diagnostic? =
    s.resolveMethod.1.reports s.file s.pool.isSome := by
  simp only [Method.reports, Instruction.reports, resolveMethod, resolveInstruction,
    Array.toList_map, List.flatMap_map, List.filterMap_flatMap, List.filterMap_map,
    List.filterMap_filterMap, Function.comp_def, diagnostic?_resolve_eq]
  rfl

end Scope

namespace Program

variable {file : String} {p : Program} {entry : Method} {rest : List Method}

/-- Placing that stops reports the method whose name is taken, and nothing else. -/
theorem exists_taken_of_place {index cursor : Nat} {pool : Array Constant} {ms : List Method}
    (h : (place file index cursor pool ms).complete = false) :
    ∃ m ∈ ms, ∃ c ∈ (place file index cursor pool ms).pool, c.name = m.name ∧
      (place file index cursor pool ms).events.filterMap Event.diagnostic? =
        [(Problem.methodTaken m.name c.line).diagnostic file m.line] := by
  induction ms generalizing index cursor pool with
  | nil => cases h
  | cons m rest ih =>
    rw [place] at h ⊢
    cases hfind : pool.find? fun c => c.name == m.name with
    | some taken =>
      have hname : (taken.name == m.name) = true :=
        Array.find?_some (p := fun c : Constant => c.name == m.name) hfind
      exact ⟨m, List.mem_cons_self, taken, Array.mem_of_find?_eq_some hfind, beq_iff_eq.1 hname, rfl⟩
    | none =>
      simp only [hfind] at h
      obtain ⟨other, hother, htaken⟩ := ih h
      exact ⟨other, List.mem_cons_of_mem _ hother, htaken⟩

/-- What linking reports of a program with an entry method. -/
theorem diagnostics_link (file : String) (h : p.methods.toList = entry :: rest)
    (hentry : entry.isEntry = true) :
    ∃ calls clash, (p.link file).1.Clash file calls clash ∧
      (p.link file).2.diagnostics.toList =
        clash ++ (p.link file).1.referenceReports file calls := by
  have hdiagnostics : (p.link file).2.diagnostics.toList =
      (p.layout file).events.filterMap Event.diagnostic? ++
        (p.link file).1.referenceReports file (p.layout file).complete := by
    rw [link_eq h hentry, Journal.diagnostics_toArray, List.toList_toArray, List.filterMap_append,
      List.filterMap_flatMap]
    have hcalls : ∀ m, ((p.layout file).scope file m).pool.isSome = (p.layout file).complete := by
      intro m
      rw [Placement.scope]
      cases (p.layout file).complete <;> rfl
    simp only [Scope.diagnostics_resolveMethod_eq, referenceReports, List.flatMap_map, hcalls]
    rfl
  refine ⟨(p.layout file).complete, _, ?_, hdiagnostics⟩
  have hpool : (p.link file).1.constants = (p.layout file).pool := by rw [link_eq h hentry]
  rw [layout_eq h] at hpool ⊢
  dsimp only at hpool ⊢
  cases hcomplete : (place file 0 entry.size (p.constants.filter fun c => c.origin != .method)
      rest).complete with
  | true =>
    rw [diagnostics_place_of_complete hcomplete]
    exact .none
  | false =>
    obtain ⟨m, hm, c, hc, hname, htaken⟩ := exists_taken_of_place hcomplete
    have hmem : m ∈ p.methods.toList := by
      rw [h]
      exact List.mem_cons_of_mem _ hm
    -- The method is told by its name and its line, which linking leaves as they are.
    obtain ⟨m', hm', halike⟩ := exists_of_mem_left (forall₂_alike_link file p) hmem
    rw [htaken, ← halike.name, ← halike.line]
    exact .taken (Array.mem_toList_iff.1 hm') (hpool ▸ hc) (hname.trans halike.name.symm)

/-! ### The order of the reports -/

theorem exists_problem_of_mem_reports {calls : Bool} {m : Method} {i : Instruction} {d : Diagnostic}
    (h : d ∈ i.reports file calls m) :
    ∃ problem : Problem, problem.severity = .error ∧ d = problem.diagnostic file i.line := by
  obtain ⟨a, -, ha⟩ := List.mem_filterMap.1 h
  obtain ⟨problem, hproblem, rfl⟩ := Option.map_eq_some_iff.1 ha
  exact ⟨problem, Method.severity_of_problem? hproblem, rfl⟩

theorem exists_problem_of_mem_referenceReports {calls : Bool} {d : Diagnostic}
    (h : d ∈ p.referenceReports file calls) :
    ∃ m ∈ p.methods, ∃ i ∈ m.instructions, ∃ problem : Problem,
      problem.severity = .error ∧ d = problem.diagnostic file i.line := by
  obtain ⟨m, hm, hd⟩ := List.mem_flatMap.1 h
  obtain ⟨i, hi, hd⟩ := List.mem_flatMap.1 hd
  exact ⟨m, Array.mem_toList_iff.1 hm, i, Array.mem_toList_iff.1 hi, exists_problem_of_mem_reports hd⟩

/-- Where instructions stand in the order of their lines, references are reported in this order. -/
theorem pairwise_referenceReports {calls : Bool} (h : p.instructionLines.Pairwise (· ≤ ·)) :
    (p.referenceReports file calls).Pairwise (·.line ≤ ·.line) := by
  have hline : ∀ {m : Method} {i : Instruction} {d : Diagnostic}, d ∈ i.reports file calls m →
      d.line = i.line := by
    intro m i d hd
    obtain ⟨problem, -, rfl⟩ := exists_problem_of_mem_reports hd
    rfl
  have hmem : ∀ {m : Method} {d : Diagnostic}, d ∈ m.reports file calls →
      d.line ∈ m.instructionLines := by
    intro m d hd
    obtain ⟨i, hi, hd⟩ := List.mem_flatMap.1 hd
    rw [hline hd]
    exact List.mem_map_of_mem hi
  obtain ⟨hwithin, hacross⟩ := List.pairwise_flatMap.1 h
  refine List.pairwise_flatMap.2 ⟨fun m hm => List.pairwise_flatMap.2 ⟨fun i _ => ?_, ?_⟩, ?_⟩
  · refine List.pairwise_of_forall_mem_list fun d hd d' hd' => ?_
    exact Nat.le_of_eq ((hline hd).trans (hline hd').symm)
  · refine (List.pairwise_map.1 (hwithin m hm)).imp fun {i i'} hle d hd d' hd' => ?_
    rw [hline hd, hline hd']
    exact hle
  · refine hacross.imp ?_
    intro m m' hle d hd d' hd'
    exact hle _ (hmem hd) _ (hmem hd')

theorem instructionLines_link (file : String) (p : Program) :
    (p.link file).1.instructionLines = p.instructionLines := by
  have hsame : ∀ m m' : Method, m.Alike m' → m'.instructionLines = m.instructionLines := by
    intro m m' h
    exact (map_eq_map_of_forall₂ (fun i i' hi => hi.line.symm) h.instructions).symm
  rw [instructionLines, instructionLines, List.flatMap_def, List.flatMap_def,
    map_eq_map_of_forall₂ (fun m m' h => (hsame m m' h).symm) (forall₂_alike_link file p)]

/-- Linking a program that has an entry method if it has any, with its instructions in the order of
their lines. -/
theorem linkReported_link (file : String) (hentry : p.entry? = none → p.methods = #[])
    (hlines : p.instructionLines.Pairwise (· ≤ ·)) :
    (p.link file).1.LinkReported file (p.link file).2.diagnostics.toList := by
  cases hentry? : p.entry? with
  | none =>
    rw [errors_link_of_no_entry hentry?]
    exact .noMain (hentry hentry?)
  | some entry =>
    obtain ⟨rest, h, hfirst⟩ := exists_rest_of_entry? hentry?
    obtain ⟨calls, clash, hclash, hdiagnostics⟩ := diagnostics_link file h hfirst
    rw [hdiagnostics]
    refine .references ?_ hclash ?_
    · intro hempty
      have hlength := (forall₂_alike_link file p).length_eq
      rw [hempty, h] at hlength
      cases hlength
    · exact pairwise_referenceReports (instructionLines_link file p ▸ hlines)

/-- All that linking reports is an error in the file. -/
theorem LinkReported.exists_problem {ds : List Diagnostic} (h : p.LinkReported file ds) :
    ∀ d ∈ ds, ∃ (problem : Problem) (n : Nat), problem.severity = .error ∧
      d = problem.diagnostic file n := by
  cases h with
  | noMain => exact List.forall_mem_singleton.2 ⟨.noMain, 0, rfl, rfl⟩
  | references _ clash =>
    rw [List.forall_mem_append]
    constructor
    · cases clash with
      | none => exact nofun
      | taken => exact List.forall_mem_singleton.2 ⟨_, _, rfl, rfl⟩
    · intro d hd
      obtain ⟨m, -, i, -, problem, hproblem⟩ := exists_problem_of_mem_referenceReports hd
      exact ⟨problem, i.line, hproblem⟩

end Program

end IjvmAsm
