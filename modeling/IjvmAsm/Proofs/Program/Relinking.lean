import IjvmAsm.Proofs.Program.Linking

/-!
# Linking twice

Linking a program that has been linked changes nothing and complains of the same, whether or not
all went well: the constants of methods are dropped and made again, the placing stops at the same
method, and a reference that was left pending cannot be settled the second time either.
-/

namespace IjvmAsm

theorem Journal.diagnostics_toArray (events : List Event) :
    Journal.diagnostics events.toArray = (events.filterMap Event.diagnostic?).toArray := by
  rw [diagnostics, List.filterMap_toArray]

namespace Scope

/-- What is said of a label that is near enough is no diagnostic. -/
theorem diagnostic?_of_distance {s : Scope} {i : Instruction} {name : String} {result : Int × Event}
    (h : s.distance i name = .ok result) : result.2.diagnostic? = none := by
  unfold distance at h
  split at h
  · cases h
  · dsimp only at h
    split at h
    · cases h
      rfl
    · cases h

theorem diagnostic?_of_methodIndex {s : Scope} {pool : Array Constant} {i : Instruction}
    {name : String} {result : Int × Event} (h : s.methodIndex pool i name = .ok result) :
    result.2.diagnostic? = none := by
  unfold methodIndex at h
  split at h
  · cases h
  · cases h
    rfl

/-- A reference that has been settled is a value from then on, and one that has been given up is
given up again. -/
theorem resolve_settle {s : Scope} {i : Instruction} {reference : Reference}
    {found : Except Problem (Int × Event)}
    (hresolve : s.resolve i (.pending reference) = s.settle i reference found)
    (hremark : ∀ result, found = .ok result → result.2.diagnostic? = none) :
    (s.resolve i (s.settle i reference found).1).1 = (s.settle i reference found).1 ∧
      (s.resolve i (s.settle i reference found).1).2.bind Event.diagnostic? =
        (s.settle i reference found).2.bind Event.diagnostic? := by
  cases found with
  | ok result => exact ⟨rfl, (hremark result rfl).symm⟩
  | error problem =>
    have hpending : (s.settle i reference (.error problem)).1 = .pending reference := rfl
    rw [hpending, hresolve]
    exact ⟨hpending, rfl⟩

/-- Resolving what has been resolved changes nothing and reports the same. -/
theorem resolve_resolve (s : Scope) (i : Instruction) (a : Argument) :
    (s.resolve i (s.resolve i a).1).1 = (s.resolve i a).1 ∧
      (s.resolve i (s.resolve i a).1).2.bind Event.diagnostic? =
        (s.resolve i a).2.bind Event.diagnostic? := by
  match a with
  | .resolved value => exact ⟨rfl, rfl⟩
  | .pending (.label name) => exact resolve_settle rfl fun _ => diagnostic?_of_distance
  | .pending (.method name) =>
    cases hpool : s.pool with
    | none => simp only [resolve, hpool, and_self]
    | some pool =>
      have hresolve : s.resolve i (.pending (.method name)) =
          s.settle i (.method name) (s.methodIndex pool i name) := by
        simp only [resolve, hpool]
      rw [hresolve]
      exact resolve_settle hresolve fun _ => diagnostic?_of_methodIndex

/-- Resolving reads neither the arguments of an instruction nor the instructions of the method. -/
theorem resolve_congr (s : Scope) (i : Instruction) (instructions : Array Instruction)
    (arguments : List Argument) (a : Argument) :
    Scope.resolve { s with method := { s.method with instructions } } { i with arguments } a =
      s.resolve i a := by
  match a with
  | .resolved value => rfl
  | .pending (.label name) => rfl
  | .pending (.method name) => rfl

theorem resolveInstruction_again (s : Scope) (i : Instruction) (instructions : Array Instruction) :
    (Scope.resolveInstruction { s with method := { s.method with instructions } }
        (s.resolveInstruction i).1).1 = (s.resolveInstruction i).1 ∧
      (Scope.resolveInstruction { s with method := { s.method with instructions } }
        (s.resolveInstruction i).1).2.filterMap Event.diagnostic? =
          (s.resolveInstruction i).2.filterMap Event.diagnostic? := by
  constructor
  · simp only [resolveInstruction, List.map_map]
    congr 1
    refine List.map_congr_left fun a _ => ?_
    simp only [Function.comp_apply, resolve_congr]
    exact (s.resolve_resolve i a).1
  · simp only [resolveInstruction, List.map_map, List.filterMap_map, List.filterMap_filterMap]
    refine List.filterMap_congr fun a _ => ?_
    simp only [Function.comp_apply, resolve_congr]
    exact (s.resolve_resolve i a).2

/-- A method whose references have been resolved comes out of resolving as it went in. -/
theorem resolveMethod_again (s : Scope) :
    (Scope.resolveMethod { s with method := s.resolveMethod.1 }).1 = s.resolveMethod.1 ∧
      (Scope.resolveMethod { s with method := s.resolveMethod.1 }).2.filterMap Event.diagnostic? =
        s.resolveMethod.2.filterMap Event.diagnostic? := by
  constructor
  · simp only [resolveMethod, Array.map_map]
    congr 1
    refine Array.map_congr_left fun i _ => ?_
    exact (s.resolveInstruction_again i _).1
  · simp only [resolveMethod, Array.toList_map, List.flatMap_map, List.filterMap_flatMap]
    refine List.flatMap_congr fun i _ => ?_
    exact (s.resolveInstruction_again i _).2

end Scope

namespace Program

variable {file : String} {p : Program} {entry : Method} {rest : List Method}

/-- Placing adds constants of methods and no others. -/
theorem filter_pool_place (index cursor : Nat) (pool : Array Constant) (ms : List Method) :
    (place file index cursor pool ms).pool.filter (fun c => c.origin != .method) =
      pool.filter fun c => c.origin != .method := by
  induction ms generalizing index cursor pool with
  | nil => rfl
  | cons m rest ih =>
    rw [place]
    cases pool.find? fun c => c.name == m.name with
    | some taken => rfl
    | none => simp [ih]

/-- Linking keeps the constants that the source declares, whatever is wrong. -/
theorem declared_link (file : String) (p : Program) : (p.link file).1.declared = p.declared := by
  cases hentry? : p.entry? with
  | none => rw [errors_link_of_no_entry hentry?]
  | some entry =>
    obtain ⟨rest, h, hentry⟩ := exists_rest_of_entry? hentry?
    rw [← toList_filter_not_method, ← toList_filter_not_method, link_eq h hentry, layout_eq h]
    simp only [filter_pool_place, Array.filter_filter, Bool.and_self]

/-- Methods that have been placed are placed as before, whatever became of their instructions. -/
theorem place_again {f : Method → Method} (hf : ∀ m, ∃ instructions, f m = { m with instructions })
    (index cursor : Nat) (pool : Array Constant) (ms : List Method) :
    place file index cursor pool ((place file index cursor pool ms).methods.map f) =
      { place file index cursor pool ms with
        methods := (place file index cursor pool ms).methods.map f } := by
  induction ms generalizing index cursor pool with
  | nil => rfl
  | cons m rest ih =>
    cases hfind : pool.find? fun c => c.name == m.name with
    | some taken =>
      obtain ⟨instructions, hm⟩ := hf m
      simp only [place, hfind, List.map_cons, hm]
    | none =>
      obtain ⟨instructions, hm⟩ := hf { m with offset := cursor }
      simp only [place, hfind, List.map_cons, hm, ih]

/-- What has been laid out is laid out as before, with other instructions in its methods and with
other constants of methods. -/
theorem layout_again {q : Program} {f : Method → Method}
    (hf : ∀ m, ∃ instructions, f m = { m with instructions })
    (h : p.methods.toList = entry :: rest)
    (hdeclared : q.constants.filter (fun c => c.origin != .method) =
      p.constants.filter fun c => c.origin != .method)
    (hmethods : q.methods.toList = (p.layout file).methods.map f) :
    q.layout file = { p.layout file with methods := q.methods.toList } := by
  obtain ⟨instructions, hentry⟩ := hf { entry with offset := 0 }
  have hplaced : q.methods.toList = { entry with offset := 0, instructions } ::
      (place file 0 entry.size (p.constants.filter fun c => c.origin != .method)
        rest).methods.map f := by
    rw [hmethods, layout_eq h, ← hentry]
    rfl
  rw [layout_eq hplaced, hdeclared, place_again hf, layout_eq h, hplaced]

/-- A linked program is laid out as it was before it was linked. -/
theorem layout_link (h : p.methods.toList = entry :: rest) (hentry : entry.isEntry = true) :
    (p.link file).1.layout file =
      { p.layout file with methods := (p.link file).1.methods.toList } := by
  apply layout_again (f := fun m => ((p.layout file).scope file m).resolveMethod.1)
    (fun m => ⟨_, rfl⟩) h
  · rw [link_eq h hentry, layout_eq h]
    simp only [filter_pool_place, Array.filter_filter, Bool.and_self]
  · rw [link_eq h hentry]

/-- Linking once is linking for good: a second time gives the same program and the same
diagnostics. -/
theorem link_link (file : String) (p : Program) :
    ((p.link file).1.link file).1 = (p.link file).1 ∧
      ((p.link file).1.link file).2.diagnostics = (p.link file).2.diagnostics := by
  cases hentry? : p.entry? with
  | none => simp only [errors_link_of_no_entry hentry?, and_self]
  | some entry =>
    obtain ⟨rest, h, hentry⟩ := exists_rest_of_entry? hentry?
    have hlinked : p.link file = _ := link_eq h hentry
    have hlayout : (p.link file).1.layout file = _ := layout_link h hentry
    obtain ⟨entry', rest', h', hentry'⟩ : ∃ entry' rest',
        (p.link file).1.methods.toList = entry' :: rest' ∧ entry'.isEntry = true := by
      rw [hlinked, layout_eq h]
      exact ⟨_, _, rfl, hentry⟩
    have hscope : ∀ m, ((p.link file).1.layout file).scope file m = (p.layout file).scope file m := by
      intro m
      rw [hlayout]
      rfl
    have hmethods : ((p.link file).1.layout file).methods =
        (p.layout file).methods.map fun m => ((p.layout file).scope file m).resolveMethod.1 := by
      rw [hlayout, hlinked]
    have hagain := fun m => ((p.layout file).scope file m).resolveMethod_again
    rw [link_eq h' hentry', hmethods]
    simp only [hscope, List.map_map, List.flatMap_map]
    constructor
    · rw [hlayout, hlinked]
      congr 2
      exact List.map_congr_left fun m _ => (hagain m).1
    · rw [hlayout, hlinked]
      simp only [Journal.diagnostics_toArray, List.filterMap_append, List.filterMap_flatMap]
      congr 2
      exact List.flatMap_congr fun m _ => (hagain m).2

end Program

end IjvmAsm
