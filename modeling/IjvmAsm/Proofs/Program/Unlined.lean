import IjvmAsm.Program.Emission
import IjvmAsm.Program.Link
import IjvmAsm.Proofs.Journal
import Mathlib.Data.List.Basic

/-!
# Programs without line numbers

Nothing that is done to methods and programs looks at the numbers of source lines: it may as well be
done with all of them set to zero. Problems and failures tell the lines, so what is
reported is compared without them, or by its severity alone.
-/

namespace IjvmAsm

def severities (events : List Event) : List Severity :=
  events.filterMap fun e => e.diagnostic?.map Diagnostic.severity

@[simp] theorem severities_nil : severities [] = [] := rfl

@[simp] theorem severities_append (xs ys : List Event) :
    severities (xs ++ ys) = severities xs ++ severities ys := List.filterMap_append

@[simp] theorem severities_remark (level : Level) (text : String) (rest : List Event) :
    severities (.remark level text :: rest) = severities rest := rfl

@[simp] theorem severities_event (p : Problem) (file : String) (line : Nat) (rest : List Event) :
    severities (p.event file line :: rest) = p.severity :: severities rest := rfl

/-- A message without the number of a line that it ends with. -/
@[irreducible] def unlinedMessage (message : String) : String :=
  let front := message.toList.reverse.dropWhile Char.isDigit
  if "line ".toList.reverse.isPrefixOf front then String.ofList front.reverse else message

theorem unlinedMessage_append {front : String} (h : "line ".toList <:+ front.toList) (line : Nat) :
    unlinedMessage (front ++ toString line) = front := by
  have hdigits : ∀ c ∈ (toString line).toList.reverse, c.isDigit = true := by
    intro c hc
    rw [List.mem_reverse] at hc
    change c ∈ (Nat.repr line).toList at hc
    rw [Nat.toList_repr] at hc
    exact Nat.isDigit_of_mem_toDigits (by decide) (by decide) hc
  obtain ⟨before, hfront⟩ := h
  have hreverse : front.toList.reverse = "line ".toList.reverse ++ before.reverse := by
    rw [← hfront, List.reverse_append]
  have hdrop : (front ++ toString line).toList.reverse.dropWhile Char.isDigit =
      front.toList.reverse := by
    rw [String.toList_append, List.reverse_append, List.dropWhile_append_of_pos hdigits, hreverse]
    rfl
  have hends : "line ".toList.reverse.isPrefixOf front.toList.reverse = true := by
    rw [hreverse]
    exact List.isPrefixOf_iff_prefix.2 (List.prefix_append _ _)
  simp only [unlinedMessage, hdrop, hends, ↓reduceIte, List.reverse_reverse, String.ofList_toList]

def Diagnostic.unlined (d : Diagnostic) : Diagnostic :=
  { d with line := 0, message := unlinedMessage d.message }

namespace Problem

def unlined : Problem → Problem
  | constantTaken name _ => constantTaken name 0
  | labelTaken name _ => labelTaken name 0
  | methodTaken name _ => methodTaken name 0
  | p => p

theorem unlinedMessage_message (p : Problem) :
    unlinedMessage p.message = unlinedMessage p.unlined.message := by
  have hsame : ∀ {front back : String} (line : Nat), "line ".toList <:+ back.toList →
      unlinedMessage (front ++ back ++ toString line) =
        unlinedMessage (front ++ back ++ toString 0) := by
    intro front back line hback
    have hends : "line ".toList <:+ (front ++ back).toList := by
      rw [String.toList_append]
      exact hback.trans (List.suffix_append _ _)
    rw [unlinedMessage_append hends, unlinedMessage_append hends]
  cases p with
  | constantTaken name line => exact hsame line (by decide)
  | labelTaken name line => exact hsame line (by decide)
  | methodTaken name line => exact hsame line (by decide)
  | _ => rfl

theorem severity_unlined (p : Problem) : p.unlined.severity = p.severity := by
  cases p <;> rfl

/-- Problems that differ in lines only are reported alike. -/
theorem unlined_diagnostic {p p' : Problem} (h : p.unlined = p'.unlined) (file : String)
    (line line' : Nat) : (p.diagnostic file line).unlined = (p'.diagnostic file line').unlined := by
  simp only [diagnostic, Diagnostic.unlined, unlinedMessage_message p, unlinedMessage_message p', h,
    ← severity_unlined p, ← severity_unlined p']

end Problem

/-- The diagnostics among events, line numbers aside. -/
def reports (events : List Event) : List Diagnostic :=
  events.filterMap fun e => e.diagnostic?.map Diagnostic.unlined

@[simp] theorem reports_nil : reports [] = [] := rfl

@[simp] theorem reports_append (xs ys : List Event) : reports (xs ++ ys) = reports xs ++ reports ys :=
  List.filterMap_append

@[simp] theorem reports_remark (level : Level) (text : String) (rest : List Event) :
    reports (.remark level text :: rest) = reports rest := rfl

theorem reports_flatMap {α : Type} (f : α → List Event) (xs : List α) :
    reports (xs.flatMap f) = xs.flatMap fun a => reports (f a) := by
  induction xs with
  | nil => rfl
  | cons a rest ih => rw [List.flatMap_cons, reports_append, ih, List.flatMap_cons]

theorem reports_event {p p' : Problem} (h : p.unlined = p'.unlined) (file : String)
    (line line' : Nat) : reports [p.event file line] = reports [p'.event file line'] :=
  congrArg (fun d => [d]) (Problem.unlined_diagnostic h file line line')

theorem map_severity_reports (events : List Event) :
    (reports events).map Diagnostic.severity = severities events := by
  rw [reports, List.map_filterMap]
  refine List.filterMap_congr fun e _ => ?_
  cases e <;> rfl

theorem severities_eq_of_reports_eq {xs ys : List Event} (h : reports xs = reports ys) :
    severities xs = severities ys := by
  rw [← map_severity_reports, h, map_severity_reports]

theorem quiet_iff_severities {events : List Event} :
    Quiet events ↔ Severity.error ∉ severities events := by
  induction events with
  | nil => simp
  | cons e rest ih =>
    rw [quiet_cons, ih]
    cases e with
    | remark level text => simp [Event.isError]
    | diagnostic d =>
      change (d.severity == .error) = false ∧ _ ↔ _ ∉ d.severity :: severities rest
      rw [List.mem_cons, not_or, beq_eq_false_iff_ne, ne_comm]

theorem quiet_iff_of_severities_eq {xs ys : List Event} (h : severities xs = severities ys) :
    Quiet xs ↔ Quiet ys := by
  rw [quiet_iff_severities, h, quiet_iff_severities]

namespace Constant

def unlined (c : Constant) : Constant := { c with line := 0 }

@[simp] theorem name_unlined (c : Constant) : c.unlined.name = c.name := rfl

@[simp] theorem unlined_unlined (c : Constant) : c.unlined.unlined = c.unlined := rfl

end Constant

namespace Label

def unlined (l : Label) : Label := { l with line := 0 }

@[simp] theorem name_unlined (l : Label) : l.unlined.name = l.name := rfl

end Label

namespace Instruction

def unlined (i : Instruction) : Instruction := { i with line := 0 }

@[simp] theorem size_unlined (i : Instruction) : i.unlined.size = i.size := rfl

end Instruction

namespace Method

def unlined (m : Method) : Method :=
  { m with
    instructions := m.instructions.map Instruction.unlined
    labels := m.labels.map Label.unlined
    line := 0 }

variable {m m' : Method}

@[simp] theorem name_unlined (m : Method) : m.unlined.name = m.name := rfl

@[simp] theorem unlined_unlined (m : Method) : m.unlined.unlined = m.unlined := by
  simp only [unlined, Array.map_map]
  rfl

@[simp] theorem unlined_addVariable (m : Method) (name : String) :
    (m.addVariable name).unlined = m.unlined.addVariable name := rfl

theorem unlined_empty (name : String) (isEntry : Bool) (line : Nat) :
    unlined ⟨name, 0, #[], #[], #[], 0, 0, isEntry, line, false⟩ =
      ⟨name, 0, #[], #[], #[], 0, 0, isEntry, 0, false⟩ := by
  rw [unlined, Array.map_empty, Array.map_empty]

theorem unlined_build (name : String) (parameters : List String) (line : Nat) (isEntry : Bool) :
    (build name parameters line isEntry).unlined = build name parameters 0 isEntry := by
  have hfold : ∀ (names : List String) (m : Method),
      (names.foldl addVariable m).unlined = names.foldl addVariable m.unlined := by
    intro names
    induction names with
    | nil => exact fun m => rfl
    | cons name rest ih => exact fun m => ih _
  have hall := hfold (linkPointer :: parameters) ⟨name, 0, #[], #[], #[], 0, 0, isEntry, line, false⟩
  rw [unlined_empty] at hall
  exact congrArg (fun m : Method => { m with parameterCount := m.slots.size }) hall

@[simp] theorem unlined_push (m : Method) (i : Instruction) :
    (m.push i).unlined = m.unlined.push i.unlined := by
  simp only [unlined, push, Array.map_push]
  rfl

theorem findLabel?_unlined (m : Method) (name : String) :
    m.unlined.findLabel? name = (m.findLabel? name).map Label.unlined := by
  rw [findLabel?, unlined, Array.find?_map]
  rfl

theorem addLabel_unlined_of_ok {name : String} {line : Nat} (h : m.addLabel name line = .ok m') :
    m.unlined.addLabel name 0 = .ok m'.unlined := by
  unfold addLabel at h ⊢
  rw [findLabel?_unlined]
  cases hfind : m.findLabel? name with
  | some taken =>
    rw [hfind] at h
    cases h
  | none =>
    rw [hfind] at h
    cases h
    simp only [Option.map_none, unlined, Array.map_push, Array.size_map]
    rfl

theorem addLabel_unlined_of_error {name : String} {line : Nat} {taken : Label}
    (h : m.addLabel name line = .error taken) :
    m.unlined.addLabel name 0 = .error taken.unlined := by
  unfold addLabel at h ⊢
  rw [findLabel?_unlined]
  cases hfind : m.findLabel? name with
  | some found =>
    rw [hfind] at h
    cases h
    rfl
  | none =>
    rw [hfind] at h
    cases h

theorem placeFrom_map_unlined (cursor : Nat) (is : List Instruction) :
    placeFrom cursor (is.map Instruction.unlined) =
      (placeFrom cursor is).map Instruction.unlined := by
  induction is generalizing cursor with
  | nil => rfl
  | cons i rest ih => simp only [List.map_cons, placeFrom, ih, Instruction.size_unlined]; rfl

@[simp] theorem unlined_sealed (m : Method) : m.sealed.unlined = m.unlined.sealed := by
  simp only [sealed, unlined, Array.toList_map, placeFrom_map_unlined, List.foldr_map,
    Instruction.size_unlined, ← List.map_toArray, Array.map_map]
  congr 1
  refine Array.map_congr_left fun l _ => ?_
  simp only [Function.comp_apply, Label.unlined, Array.getElem?_map, Option.map_map]
  rfl

end Method

namespace Program

def unlined (p : Program) : Program :=
  ⟨p.constants.map Constant.unlined, p.methods.map Method.unlined⟩

variable {p : Program}

theorem findConstant?_unlined (p : Program) (name : String) :
    p.unlined.findConstant? name = (p.findConstant? name).map Constant.unlined := by
  rw [findConstant?, unlined, Array.find?_map]
  rfl

theorem constantIndex?_unlined (p : Program) (name : String) :
    p.unlined.constantIndex? name = p.constantIndex? name := by
  rw [constantIndex?, unlined, Array.findIdx?_map]
  rfl

/-- What placing gives without line numbers, and what it reports. -/
theorem place_unlined (file : String) (index cursor : Nat) (pool : Array Constant)
    (ms : List Method) :
    let placed := place file index cursor pool ms
    let placed' := place file index cursor (pool.map Constant.unlined) (ms.map Method.unlined)
    placed'.pool = placed.pool.map Constant.unlined ∧
      placed'.methods = placed.methods.map Method.unlined ∧
      placed'.complete = placed.complete ∧ reports placed'.events = reports placed.events := by
  induction ms generalizing index cursor pool with
  | nil => exact ⟨rfl, rfl, rfl, rfl⟩
  | cons m rest ih =>
    have hfind : (pool.map Constant.unlined).find? (fun c => c.name == m.name) =
        (pool.find? fun c => c.name == m.name).map Constant.unlined := by
      rw [Array.find?_map]
      rfl
    simp only [List.map_cons, place, Method.name_unlined, hfind]
    cases pool.find? fun c => c.name == m.name with
    | some taken =>
      have hproblem : (Problem.methodTaken m.name taken.unlined.line).unlined =
          (Problem.methodTaken m.name taken.line).unlined := rfl
      exact ⟨rfl, rfl, rfl, reports_event hproblem file 0 m.line⟩
    | none =>
      obtain ⟨hpool, hmethods, hcomplete, hevents⟩ := ih (index + 1)
        (cursor + m.size + Image.headerSize) (pool.push ⟨m.name, Int32.ofNat cursor, m.line, .method⟩)
      rw [Array.map_push] at hpool hmethods hcomplete hevents
      exact ⟨hpool, congrArg _ hmethods, hcomplete, hevents⟩

theorem layout_unlined (file : String) (p : Program) :
    (p.unlined.layout file).pool = (p.layout file).pool.map Constant.unlined ∧
      (p.unlined.layout file).methods = (p.layout file).methods.map Method.unlined ∧
      (p.unlined.layout file).complete = (p.layout file).complete ∧
      reports (p.unlined.layout file).events = reports (p.layout file).events := by
  have hdeclared : p.unlined.constants.filter (fun c => c.origin != .method) =
      (p.constants.filter fun c => c.origin != .method).map Constant.unlined := by
    rw [unlined, Array.filter_map]
    rfl
  have hmethods : p.unlined.methods.toList = p.methods.toList.map Method.unlined :=
    Array.toList_map
  unfold layout
  rw [hdeclared, hmethods]
  cases p.methods.toList with
  | nil => exact ⟨rfl, rfl, rfl, rfl⟩
  | cons entry others =>
    obtain ⟨hpool, hmethods, hcomplete, hevents⟩ := place_unlined file 0 entry.size
      (p.constants.filter fun c => c.origin != .method) others
    exact ⟨hpool, congrArg _ hmethods, hcomplete, hevents⟩

end Program

namespace Scope

def unlined (s : Scope) : Scope :=
  ⟨s.file, s.pool.map (Array.map Constant.unlined), s.method.unlined⟩

theorem resolve_unlined (s : Scope) (i : Instruction) (a : Argument) :
    (s.unlined.resolve i.unlined a).1 = (s.resolve i a).1 ∧
      reports (s.unlined.resolve i.unlined a).2.toList = reports (s.resolve i a).2.toList := by
  match a with
  | .resolved value => exact ⟨rfl, rfl⟩
  | .pending (.label name) =>
    have hfind : s.unlined.method.findLabel? name = (s.method.findLabel? name).map Label.unlined :=
      s.method.findLabel?_unlined name
    simp only [resolve, distance, hfind]
    cases s.method.findLabel? name with
    | none => exact ⟨rfl, rfl⟩
    | some l =>
      by_cases hfits : fitsSigned 16 ((l.offset : Int) - i.offset) = true
      · simp only [Option.map_some, Label.unlined, Instruction.unlined, hfits, ↓reduceIte]
        exact ⟨rfl, rfl⟩
      · simp only [Option.map_some, Label.unlined, Instruction.unlined, hfits, Bool.false_eq_true,
          ↓reduceIte]
        exact ⟨rfl, rfl⟩
  | .pending (.method name) =>
    cases hpool : s.pool with
    | none =>
      have hpool' : s.unlined.pool = none := by rw [unlined, hpool]; rfl
      simp only [resolve, hpool, hpool', and_self]
    | some pool =>
      have hpool' : s.unlined.pool = some (pool.map Constant.unlined) := by
        rw [unlined, hpool]
        rfl
      have hindex : (pool.map Constant.unlined).findIdx? (fun c => c.name == name) =
          pool.findIdx? fun c => c.name == name := Program.constantIndex?_unlined ⟨pool, #[]⟩ name
      simp only [resolve, hpool, hpool', methodIndex, hindex]
      cases pool.findIdx? fun c => c.name == name with
      | none => exact ⟨rfl, rfl⟩
      | some index => exact ⟨rfl, rfl⟩

theorem resolveInstruction_unlined (s : Scope) (i : Instruction) :
    (s.unlined.resolveInstruction i.unlined).1 = (s.resolveInstruction i).1.unlined ∧
      reports (s.unlined.resolveInstruction i.unlined).2 =
        reports (s.resolveInstruction i).2 := by
  constructor
  · simp only [resolveInstruction, List.map_map, Instruction.unlined, Instruction.mk.injEq, true_and,
      and_true]
    exact List.map_congr_left fun a _ => (resolve_unlined s i a).1
  · simp only [resolveInstruction, List.filterMap_eq_flatMap_toList, List.flatMap_map,
      reports_flatMap]
    exact List.flatMap_congr fun a _ => (resolve_unlined s i a).2

theorem resolveMethod_unlined (s : Scope) :
    s.unlined.resolveMethod.1 = s.resolveMethod.1.unlined ∧
      reports s.unlined.resolveMethod.2 = reports s.resolveMethod.2 := by
  have hinstructions : s.unlined.method.instructions = s.method.instructions.map
      Instruction.unlined := rfl
  constructor
  · simp only [resolveMethod, hinstructions, Array.map_map, Method.unlined]
    refine congrArg (fun is => { s.method.unlined with instructions := is }) ?_
    exact Array.map_congr_left fun i _ => (resolveInstruction_unlined s i).1
  · simp only [resolveMethod, hinstructions, Array.toList_map, List.map_map, List.flatMap_map,
      reports_flatMap]
    exact List.flatMap_congr fun i _ => (resolveInstruction_unlined s i).2

end Scope

namespace Program

theorem entry?_unlined (p : Program) : p.unlined.entry? = p.entry?.map Method.unlined := by
  rw [ entry?, entry?, unlined, Array.getElem?_map]
  cases p.methods[0]? with
  | none => rfl
  | some m =>
    cases hm : m.isEntry with
    | false => simp [Option.filter_some, hm, Method.unlined]
    | true => simp [Option.filter_some, hm, Method.unlined]

/-- Linking does not look at line numbers, and reports the same without them. -/
theorem reports_link_unlined (file : String) (p : Program) :
    (p.unlined.link file).1 = (p.link file).1.unlined ∧
      reports (p.unlined.link file).2.toList = reports (p.link file).2.toList := by
  unfold link
  rw [entry?_unlined]
  cases p.entry? with
  | none => exact ⟨rfl, rfl⟩
  | some entry =>
    obtain ⟨hpool, hmethods, hcomplete, hevents⟩ := layout_unlined file p
    simp only [Option.map_some, hpool, hmethods, hcomplete, List.map_map]
    have hscope : ∀ m : Method, (⟨file, if (p.layout file).complete then
        some ((p.layout file).pool.map Constant.unlined) else none, m.unlined⟩ : Scope) =
        Scope.unlined ⟨file, if (p.layout file).complete then some (p.layout file).pool else none,
          m⟩ := by
      intro m
      cases (p.layout file).complete <;> rfl
    constructor
    · simp only [unlined, List.map_toArray, List.map_map, mk.injEq, true_and]
      refine congrArg List.toArray (List.map_congr_left fun m _ => ?_)
      rw [Function.comp_apply, Function.comp_apply, hscope m]
      exact (Scope.resolveMethod_unlined _).1
    · simp only [reports_append, hevents, List.flatMap_map, reports_flatMap]
      refine congrArg _ (List.flatMap_congr fun m _ => ?_)
      rw [Function.comp_apply, hscope m]
      exact (Scope.resolveMethod_unlined _).2

/-- So programs that are the same, line numbers aside, are linked alike. -/
theorem link_eq_of_unlined_eq {p q : Program} (h : p.unlined = q.unlined) (file : String) :
    (p.link file).1.unlined = (q.link file).1.unlined ∧
      reports (p.link file).2.toList = reports (q.link file).2.toList := by
  obtain ⟨hprogram, hreports⟩ := reports_link_unlined file p
  obtain ⟨hprogram', hreports'⟩ := reports_link_unlined file q
  rw [h] at hprogram hreports
  exact ⟨hprogram.symm.trans hprogram', hreports.symm.trans hreports'⟩

theorem link_unlined (file : String) (p : Program) :
    (p.unlined.link file).1 = (p.link file).1.unlined ∧
      severities (p.unlined.link file).2.toList = severities (p.link file).2.toList := by
  obtain ⟨hprogram, hreports⟩ := reports_link_unlined file p
  exact ⟨hprogram, severities_eq_of_reports_eq hreports⟩

end Program

def EmissionError.unlined : EmissionError → EmissionError
  | unresolved method name _ => unresolved method name 0
  | outOfRange value kind _ => outOfRange value kind 0
  | missingEntry => missingEntry
  | headerOverflow method field => headerOverflow method field
  | outputFull => outputFull

def Step.unlined : Step → Step
  | fail error => fail error.unlined
  | write bytes => write bytes
  | note event => note event

/-- Where steps are changed in nothing but what is noted and why it fails, so is what they give. -/
theorem Emission.result_run_map {f : Step → Step} {g : EmissionError → EmissionError}
    (hwrite : ∀ bytes, f (.write bytes) = .write bytes)
    (hfail : ∀ error, f (.fail error) = .fail (g error))
    (hnote : ∀ event, ∃ event', f (.note event) = .note event') (e : Emission) :
    (run (e.map f)).result = (run e).result.mapError g := by
  have hrun : (run (e.map f)).bytes = (run e).bytes ∧
      (run (e.map f)).failure = (run e).failure.map g := by
    induction e with
    | nil => exact ⟨rfl, rfl⟩
    | cons step rest ih =>
      rw [List.map_cons]
      cases step with
      | fail error =>
        rw [hfail]
        exact ⟨rfl, rfl⟩
      | note event =>
        obtain ⟨event', hevent⟩ := hnote event
        rw [hevent]
        exact ih
      | write bytes =>
        rw [hwrite]
        exact ⟨congrArg (bytes ++ ·) ih.1, ih.2⟩
  rw [Output.result, Output.result, hrun.1, hrun.2]
  cases (run e).failure <;> rfl

theorem Instruction.emission_unlined (lenient : Bool) (method : String) (i : Instruction) :
    i.unlined.emission lenient method = (i.emission lenient method).map Step.unlined := by
  have hstep : ∀ kind a, i.unlined.argumentStep lenient method kind a =
      (i.argumentStep lenient method kind a).unlined := by
    intro kind a
    have hvalue : ∀ value, (if kind.fits i.wide value then Step.write (kind.encode i.wide value)
        else .fail (.outOfRange value kind 0)) =
        Step.unlined (if kind.fits i.wide value then .write (kind.encode i.wide value)
          else .fail (.outOfRange value kind i.line)) := by
      intro value
      split <;> rfl
    cases a with
    | resolved value => exact hvalue value
    | pending reference =>
      cases lenient with
      | true => exact hvalue 0
      | false => rfl
  simp only [emission, List.map_cons, List.map_zipWith, ← hstep]
  rfl

theorem Method.emission_unlined (lenient : Bool) (m : Method) :
    m.unlined.emission lenient = (m.emission lenient).map Step.unlined := by
  simp only [emission, List.map_cons, List.map_flatMap, unlined, Array.toList_map, List.flatMap_map,
    Instruction.emission_unlined]
  rfl

theorem Method.headerEmission_unlined (m : Method) :
    m.unlined.headerEmission = m.headerEmission.map Step.unlined := by
  change m.headerEmission = _
  unfold headerEmission
  split_ifs <;> rfl

namespace Program

theorem size_unlined (p : Program) : p.unlined.size = p.size := by
  rw [size, unlined, Array.toList_map, List.foldr_map]
  rfl

theorem headEmission_unlined (p : Program) :
    p.unlined.headEmission = p.headEmission.map Step.unlined := by
  simp only [headEmission, size_unlined, List.map_cons, List.map_append, List.map_map, List.map_nil]
  simp only [unlined, Array.size_map, Array.toList_map, List.map_map]
  rfl

theorem emission_unlined (lenient : Bool) (p : Program) :
    p.unlined.emission lenient = (p.emission lenient).map Step.unlined := by
  unfold emission
  rw [entry?_unlined]
  cases p.entry? with
  | none => rfl
  | some entry =>
    simp only [Option.map_some, List.map_append, List.map_flatMap, ← headEmission_unlined,
      ← Method.emission_unlined, ← Method.headerEmission_unlined, size_unlined, List.map_cons,
      List.map_nil, Step.unlined]
    simp only [unlined, Array.size_map, Array.toList_map, ← List.map_drop, List.flatMap_map]

theorem offsetsFrom_map_unlined (cursor : Nat) (ms : List Method) :
    offsetsFrom cursor (ms.map Method.unlined) = offsetsFrom cursor ms := by
  induction ms generalizing cursor with
  | nil => rfl
  | cons m rest ih => exact congrArg (cursor :: ·) (ih _)

theorem symbolEmission_unlined (p : Program) :
    p.unlined.symbolEmission = p.symbolEmission.map Step.unlined := by
  have hmethods : p.unlined.methodSymbols = p.methodSymbols := by
    simp only [methodSymbols, unlined, Array.toList_map, offsetsFrom_map_unlined,
      List.zipWith_map_left, Method.name_unlined]
  have hlabelsOf : ∀ m offset, labelSymbolsOf m.unlined offset = labelSymbolsOf m offset := by
    intro m offset
    simp only [labelSymbolsOf, Method.unlined, Array.toList_map, List.flatMap_map]
    rfl
  have hlabels : p.unlined.labelSymbols = p.labelSymbols := by
    simp only [labelSymbols, unlined, Array.toList_map, offsetsFrom_map_unlined,
      List.zipWith_map_left, hlabelsOf]
  unfold symbolEmission
  rw [hmethods, hlabels]
  rfl

/-- Rendering looks at line numbers only to tell what it cannot write. -/
theorem result_render_unlined (lenient withSymbols : Bool) (p : Program) :
    (p.unlined.render lenient withSymbols).result =
      (p.render lenient withSymbols).result.mapError EmissionError.unlined := by
  have hemission : p.unlined.emission lenient ++
      (if withSymbols then p.unlined.symbolEmission else []) =
        (p.emission lenient ++ if withSymbols then p.symbolEmission else []).map Step.unlined := by
    rw [List.map_append, emission_unlined]
    cases withSymbols with
    | true => exact congrArg _ p.symbolEmission_unlined
    | false => rfl
  rw [render, hemission, render]
  exact Emission.result_run_map (fun _ => rfl) (fun _ => rfl) (fun event => ⟨event, rfl⟩) _

end Program

end IjvmAsm
