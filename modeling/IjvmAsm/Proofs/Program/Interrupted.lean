import IjvmAsm.Proofs.Program.Linkage
import IjvmAsm.Proofs.Program.Relinking

/-!
# What linking leaves alone

Linking gives methods their places and their constants and references their values, and changes
nothing else. Without an entry method it changes nothing at all. Where the name of a method is
taken, the methods before it are placed and have their constants, and the others are where they
were; no call is looked at, and labels become what they become where no name is taken.
-/

namespace IjvmAsm

/-! ### What may change -/

/-- The argument is as it was, or was pending and has a value now. -/
inductive Argument.Settles : Argument → Argument → Prop
  | kept (a : Argument) : Argument.Settles a a
  | settled (reference : Reference) (value : Int) :
      Argument.Settles (.pending reference) (.resolved value)

def Instruction.Settles (i i' : Instruction) : Prop :=
  ∃ arguments, i' = { i with arguments } ∧ List.Forall₂ Argument.Settles i.arguments arguments

def Method.Settles (m m' : Method) : Prop :=
  ∃ offset instructions, m' = { m with offset, instructions } ∧
    List.Forall₂ Instruction.Settles m.instructions.toList instructions.toList

theorem Method.settles_self (m : Method) : m.Settles m :=
  ⟨m.offset, m.instructions, rfl, List.forall₂_same.2 fun i _ =>
    ⟨i.arguments, rfl, List.forall₂_same.2 fun a _ => .kept a⟩⟩

namespace Scope

theorem settles_settle (s : Scope) (i : Instruction) (reference : Reference)
    (found : Except Problem (Int × Event)) :
    Argument.Settles (.pending reference) (s.settle i reference found).1 := by
  cases found with
  | error problem => exact .kept _
  | ok result => exact .settled reference result.1

theorem settles_resolve (s : Scope) (i : Instruction) (a : Argument) :
    a.Settles (s.resolve i a).1 := by
  match a with
  | .resolved value => exact .kept _
  | .pending (.label name) => exact s.settles_settle i _ _
  | .pending (.method name) =>
    rw [resolve]
    cases s.pool with
    | none => exact .kept _
    | some pool => exact s.settles_settle i _ _

theorem settles_resolveInstruction (s : Scope) (i : Instruction) :
    i.Settles (s.resolveInstruction i).1 := by
  refine ⟨_, rfl, ?_⟩
  simp only [List.map_map, List.forall₂_map_right_iff]
  exact List.forall₂_same.2 fun a _ => s.settles_resolve i a

theorem settles_resolveMethod (s : Scope) (m : Method) (offset : Nat)
    (h : s.method = { m with offset }) : m.Settles s.resolveMethod.1 := by
  refine ⟨offset, (s.method.instructions.map s.resolveInstruction).map Prod.fst, ?_, ?_⟩
  · rw [resolveMethod]
    simp only [h]
  · simp only [h, Array.toList_map, List.map_map, List.forall₂_map_right_iff]
    exact List.forall₂_same.2 fun i _ => s.settles_resolveInstruction i

end Scope

def Method.argument? (m : Method) (n k : Nat) : Option Argument :=
  m.instructions[n]?.bind fun i => i.arguments[k]?

namespace Program

/-! ### Clashes -/

/-- The method with that index behind the first has the name of a declared constant or of one of
the methods between the first and itself. -/
def Clashes (p : Program) (k : Nat) : Prop :=
  ∃ m, p.others[k]? = some m ∧
    ((∃ c ∈ p.declared, c.name = m.name) ∨ ∃ other ∈ p.others.take k, other.name = m.name)

def FirstClash (p : Program) (k : Nat) : Prop :=
  p.Clashes k ∧ ∀ j < k, ¬ p.Clashes j

def argument? (p : Program) (j n k : Nat) : Option Argument :=
  p.methods[j]?.bind fun m => m.argument? n k

/-- The methods of the programs differ in their names at most. -/
def SameBodies (p p' : Program) : Prop :=
  List.Forall₂ (fun m m' : Method => m' = { m with name := m'.name })
    p.methods.toList p'.methods.toList

end Program

def Method.labelProblem? (m : Method) (i : Instruction) : Argument → Option Problem
  | .pending (.label name) =>
    match m.findLabel? name with
    | none => some (.undefinedLabel m.name name)
    | some l =>
      let distance : Int := l.offset - i.offset
      if -0x8000 ≤ distance ∧ distance < 0x8000 then none
      else some (.jumpTooFar m.name name distance)
  | _ => none

def Program.labelDiagnostics (file : String) (p : Program) : List Diagnostic :=
  p.methods.toList.flatMap fun m => m.instructions.toList.flatMap fun i =>
    i.arguments.filterMap fun a => (m.labelProblem? i a).map fun problem =>
      problem.diagnostic file i.line

/-- What becomes of a program `p` when the name of the method with index `k` behind the first is
the first one that is taken: it is linked as `q`, with these diagnostics. -/
structure Program.Interrupted (file : String) (k : Nat) (p q : Program)
    (diagnostics : List Diagnostic) : Prop where
  pool : q.constants.toList = p.declared ++ (q.others.take k).map Method.constant
  first : ∀ m, q.methods[0]? = some m → m.offset = 0
  placed : ∀ j m, j < k → q.others[j]? = some m →
    m.offset = ((p.methods.toList.take 1).map Method.size).sum + headedSize (p.others.take j)
  unplaced : ∀ j, k ≤ j → q.others[j]?.map Method.offset = p.others[j]?.map Method.offset
  reported : ∃ m taken, p.others[k]? = some m ∧
    q.constants.find? (fun c => c.name == m.name) = some taken ∧
    diagnostics = (Problem.methodTaken m.name taken.line).diagnostic file m.line ::
      p.labelDiagnostics file
  calls : ∀ j n i name, p.argument? j n i = some (.pending (.method name)) →
    q.argument? j n i = some (.pending (.method name))
  labels : ∀ p', p.SameBodies p' → ∀ file' j n i name,
    p.argument? j n i = some (.pending (.label name)) →
      q.argument? j n i = (p'.link file').1.argument? j n i

variable {file : String} {p : Program} {pool : Array Constant} {index cursor k : Nat}
  {m entry : Method} {ms before after rest : List Method}

/-! ### Placing up to a clash -/

theorem getElem?_placedFrom (cursor j : Nat) (ms : List Method) : (placedFrom cursor ms)[j]? =
    ms[j]?.map fun m => { m with offset := cursor + headedSize (ms.take j) } := by
  induction ms generalizing cursor j with
  | nil => rfl
  | cons m rest ih =>
    cases j with
    | zero => rfl
    | succ j =>
      rw [placedFrom, List.getElem?_cons_succ, ih, List.getElem?_cons_succ, List.take_succ_cons,
        headedSize_cons]
      simp only [Nat.add_assoc]

namespace Program

theorem diagnostics_place_of_complete (h : (place file index cursor pool ms).complete = true) :
    (place file index cursor pool ms).events.filterMap Event.diagnostic? = [] := by
  induction ms generalizing index cursor pool with
  | nil => rfl
  | cons m rest ih =>
    rw [place] at h ⊢
    cases hfind : pool.find? fun c => c.name == m.name with
    | some taken =>
      rw [hfind] at h
      cases h
    | none =>
      rw [hfind] at h
      exact ih h

/-- Placing stops at a method whose name is taken and leaves it and those behind it alone. -/
theorem place_append_of_taken (after : List Method) {taken : Constant}
    (h : (place file index cursor pool before).complete = true)
    (htaken : (place file index cursor pool before).pool.find? (fun c => c.name == m.name) =
      some taken) :
    place file index cursor pool (before ++ m :: after) =
      ⟨(place file index cursor pool before).pool, placedFrom cursor before ++ m :: after,
        (place file index cursor pool before).events ++
          [(Problem.methodTaken m.name taken.line).event file m.line], false⟩ := by
  induction before generalizing index cursor pool with
  | nil =>
    change pool.find? (fun c => c.name == m.name) = some taken at htaken
    simp only [List.nil_append, place, htaken, placedFrom]
  | cons b before ih =>
    rw [place] at h htaken
    rw [List.cons_append, place, place]
    cases hfind : pool.find? fun c => c.name == b.name with
    | some other =>
      rw [hfind] at h
      cases h
    | none =>
      simp only [hfind] at h htaken ⊢
      rw [ih h htaken]
      rfl

/-- Before the first clash all names are different from each other and from those declared. -/
theorem FirstClash.distinct (h : p.FirstClash k) :
    ((p.others.take k).map Method.name).Nodup ∧
      ∀ m ∈ p.others.take k, ∀ c ∈ p.declared, c.name ≠ m.name := by
  constructor
  · rw [List.nodup_iff_pairwise_ne, List.pairwise_map, List.pairwise_iff_getElem]
    intro i j hi hj hij hname
    rw [List.length_take] at hi hj
    rw [List.getElem_take, List.getElem_take] at hname
    have hmem : p.others[i] ∈ p.others.take j :=
      List.mem_take_iff_getElem.2 ⟨i, by omega, rfl⟩
    exact h.2 j (by omega) ⟨p.others[j], List.getElem?_eq_getElem _, .inr ⟨_, hmem, hname⟩⟩
  · intro m hm c hc hname
    obtain ⟨j, hj, hget⟩ := List.mem_take_iff_getElem.1 hm
    exact h.2 j (by omega) ⟨m, List.getElem?_eq_some_iff.2 ⟨_, hget⟩, .inl ⟨c, hc, hname⟩⟩

/-- A name of the pool or of a method that has been placed is found in the pool then. -/
theorem exists_find?_place {name : String}
    (h : (place file index cursor pool before).complete = true)
    (hname : (∃ c ∈ pool.toList, c.name = name) ∨ ∃ m ∈ before, m.name = name) :
    ∃ taken, (place file index cursor pool before).pool.find? (fun c => c.name == name) =
      some taken := by
  have hnames : (place file index cursor pool before).pool.toList.map Constant.name =
      pool.toList.map Constant.name ++ before.map Method.name := by
    rw [(place_of_complete h).2, List.map_append, map_name_placedFrom]
  have hmem : name ∈ (place file index cursor pool before).pool.toList.map Constant.name := by
    rw [hnames, List.mem_append, List.mem_map, List.mem_map]
    exact hname
  obtain ⟨c, hc, hcname⟩ := List.mem_map.1 hmem
  rw [← Option.isSome_iff_exists, Array.find?_isSome]
  exact ⟨c, Array.mem_toList_iff.1 hc, by simpa using hcname⟩

/-- What the layout is where a name is taken. -/
theorem layout_of_firstClash (file : String) (h : p.methods.toList = entry :: rest)
    (hclash : p.FirstClash k) :
    ∃ m taken, p.others[k]? = some m ∧
      (p.layout file).pool.find? (fun c => c.name == m.name) = some taken ∧
      (p.layout file).pool.toList =
        p.declared ++ (placedFrom entry.size (p.others.take k)).map Method.constant ∧
      (p.layout file).methods = { entry with offset := 0 } ::
        (placedFrom entry.size (p.others.take k) ++ p.others.drop k) ∧
      (p.layout file).events.filterMap Event.diagnostic? =
        [(Problem.methodTaken m.name taken.line).diagnostic file m.line] ∧
      (p.layout file).complete = false := by
  obtain ⟨m, hm, hname⟩ := hclash.1
  obtain ⟨hlt, rfl⟩ := List.getElem?_eq_some_iff.1 hm
  have hrest : rest = p.others.take k ++ p.others[k] :: p.others.drop (k + 1) := by
    rw [← List.drop_eq_getElem_cons hlt, List.take_append_drop, others, h, List.drop_succ_cons,
      List.drop_zero]
  obtain ⟨declared, hdeclared⟩ : ∃ pool : Array Constant,
      pool = p.constants.filter fun c => c.origin != .method := ⟨_, rfl⟩
  have htoList : declared.toList = p.declared := by
    rw [hdeclared, toList_filter_not_method]
  have hcomplete : (place file 0 entry.size declared (p.others.take k)).complete = true := by
    rw [complete_place_iff]
    simpa only [← Array.mem_toList_iff, htoList] using hclash.distinct
  have hpool := (place_of_complete hcomplete).2
  rw [htoList] at hpool
  obtain ⟨taken, htaken⟩ := exists_find?_place hcomplete (htoList ▸ hname)
  have hplace := place_append_of_taken (p.others.drop (k + 1)) hcomplete htaken
  rw [layout_eq h, ← hdeclared, hrest, hplace, List.drop_eq_getElem_cons hlt]
  refine ⟨_, taken, hm, htaken, hpool, rfl, ?_, rfl⟩
  rw [List.filterMap_append, diagnostics_place_of_complete hcomplete]
  rfl

end Program

/-! ### Resolving by the place of an argument -/

namespace Scope

def resolved? (s : Scope) (n k : Nat) : Option Argument :=
  s.method.instructions[n]?.bind fun i => i.arguments[k]?.map fun a => (s.resolve i a).1

theorem argument?_resolveMethod (s : Scope) (n k : Nat) :
    s.resolveMethod.1.argument? n k = s.resolved? n k := by
  simp only [resolveMethod, resolveInstruction, Method.argument?, resolved?, Array.getElem?_map,
    List.getElem?_map, Option.bind_map, Option.map_map, Function.comp_def]

/-- Resolving does not depend on the place of the method. -/
theorem resolve_offset (file : String) (pool : Option (Array Constant)) (m : Method)
    (offset : Nat) (i : Instruction) (a : Argument) :
    Scope.resolve ⟨file, pool, { m with offset }⟩ i a = Scope.resolve ⟨file, pool, m⟩ i a := by
  match a with
  | .resolved value => rfl
  | .pending (.label name) => rfl
  | .pending (.method name) => rfl

/-- Labels do not depend on the place or the name of the method, nor on the pool. -/
theorem resolve_label_congr {s s' : Scope} (h : s'.method.labels = s.method.labels)
    (i : Instruction) (name : String) :
    (s'.resolve i (.pending (.label name))).1 = (s.resolve i (.pending (.label name))).1 := by
  simp only [resolve, distance, Method.findLabel?, h]
  cases s.method.labels.find? fun l => l.name == name with
  | none => rfl
  | some l =>
    dsimp only
    split_ifs <;> rfl

/-- Without a pool, only labels can be wrong. -/
theorem diagnostic?_resolve {s : Scope} (hpool : s.pool = none) (i : Instruction) (a : Argument) :
    (s.resolve i a).2.bind Event.diagnostic? =
      (s.method.labelProblem? i a).map fun problem => problem.diagnostic s.file i.line := by
  match a with
  | .resolved value => rfl
  | .pending (.method name) =>
    rw [resolve, hpool]
    rfl
  | .pending (.label name) =>
    rw [resolve, distance, Method.labelProblem?]
    cases s.method.findLabel? name with
    | none => rfl
    | some l =>
      dsimp only
      have hiff := fitsSigned_sixteen_iff ((l.offset : Int) - i.offset)
      split_ifs with hfits hnear hnear
      · rfl
      · exact absurd (hiff.1 hfits) hnear
      · exact absurd (hiff.2 hnear) hfits
      · rfl

theorem diagnostics_resolveMethod {s : Scope} (hpool : s.pool = none) :
    s.resolveMethod.2.filterMap Event.diagnostic? = s.method.instructions.toList.flatMap fun i =>
      i.arguments.filterMap fun a => (s.method.labelProblem? i a).map fun problem =>
        problem.diagnostic s.file i.line := by
  simp only [resolveMethod, resolveInstruction, Array.toList_map, List.flatMap_map,
    List.filterMap_flatMap, List.filterMap_map, List.filterMap_filterMap, Function.comp_def,
    diagnostic?_resolve hpool]

end Scope

namespace Program

theorem argument?_link (h : p.methods.toList = entry :: rest) (hentry : entry.isEntry = true)
    (j n k : Nat) : (p.link file).1.argument? j n k =
      p.methods[j]?.bind fun m => ((p.layout file).scope file m).resolved? n k := by
  have hresolve (m : Method) (offset : Nat) :
      ((p.layout file).scope file { m with offset }).resolveMethod.1.argument? n k =
        ((p.layout file).scope file m).resolved? n k := by
    simp only [Scope.argument?_resolveMethod, Scope.resolved?, Placement.scope,
      Scope.resolve_offset]
  have hall : List.Forall₂ (fun m m' : Method => m'.argument? n k =
      ((p.layout file).scope file m).resolved? n k)
      p.methods.toList (p.link file).1.methods.toList :=
    forall₂_link_of_entry h hentry hresolve
  have hget := congrArg (fun xs => xs[j]?) (map_eq_map_of_forall₂ (fun _ _ h => h.symm) hall)
  simp only [List.getElem?_map, Array.getElem?_toList] at hget
  simpa only [argument?, Option.bind_map, Function.comp_def, id] using
    (congrArg (Option.bind · id) hget).symm

/-- Where a name is taken, references are resolved without a pool. -/
theorem argument?_link_of_firstClash (h : p.methods.toList = entry :: rest)
    (hentry : entry.isEntry = true) (hclash : p.FirstClash k) (j n i : Nat) :
    (p.link file).1.argument? j n i =
      p.methods[j]?.bind fun m => (Scope.mk file none m).resolved? n i := by
  obtain ⟨_, _, -, -, -, -, -, hcomplete⟩ := layout_of_firstClash file h hclash
  rw [argument?_link h hentry]
  simp only [Placement.scope, hcomplete, Bool.false_eq_true, ↓reduceIte]

theorem methods_link_of_firstClash (h : p.methods.toList = entry :: rest)
    (hentry : entry.isEntry = true) (hclash : p.FirstClash k) : (p.link file).1.methods.toList =
      ({ entry with offset := 0 } ::
        (placedFrom entry.size (p.others.take k) ++ p.others.drop k)).map fun m =>
          (Scope.mk file none m).resolveMethod.1 := by
  obtain ⟨_, _, -, -, -, hmethods, -, hcomplete⟩ := layout_of_firstClash file h hclash
  rw [link_eq h hentry, hmethods]
  simp only [Placement.scope, hcomplete, Bool.false_eq_true, ↓reduceIte]

theorem others_link_of_firstClash (h : p.methods.toList = entry :: rest)
    (hentry : entry.isEntry = true) (hclash : p.FirstClash k) : (p.link file).1.others =
      (placedFrom entry.size (p.others.take k) ++ p.others.drop k).map fun m =>
        (Scope.mk file none m).resolveMethod.1 := by
  rw [others, methods_link_of_firstClash h hentry hclash, List.map_cons, List.drop_succ_cons,
    List.drop_zero]

theorem FirstClash.length_placedFrom (h : p.FirstClash k) (cursor : Nat) :
    (placedFrom cursor (p.others.take k)).length = k := by
  obtain ⟨m, hm, -⟩ := h.1
  have hlt := (List.getElem?_eq_some_iff.1 hm).1
  rw [IjvmAsm.length_placedFrom, List.length_take]
  omega

/-- Where each method stands that is not the first. -/
theorem offset_others_link (file : String) (h : p.methods.toList = entry :: rest)
    (hentry : entry.isEntry = true) (hclash : p.FirstClash k) (j : Nat) :
    (p.link file).1.others[j]?.map Method.offset =
      p.others[j]?.map fun m =>
        if j < k then entry.size + headedSize (p.others.take j) else m.offset := by
  have hlength := hclash.length_placedFrom entry.size
  rw [others_link_of_firstClash h hentry hclash, List.getElem?_map, Option.map_map]
  split_ifs with hj
  · rw [List.getElem?_append_left (by omega), getElem?_placedFrom, List.getElem?_take_of_lt hj,
      List.take_take, Nat.min_eq_left (by omega), Option.map_map]
    rfl
  · rw [List.getElem?_append_right (by omega), hlength, List.getElem?_drop,
      Nat.add_sub_cancel' (by omega)]
    rfl

theorem diagnostics_link_of_firstClash (h : p.methods.toList = entry :: rest)
    (hentry : entry.isEntry = true) (hclash : p.FirstClash k) :
    (p.link file).2.diagnostics.toList =
      (p.layout file).events.filterMap Event.diagnostic? ++ p.labelDiagnostics file := by
  obtain ⟨_, _, -, -, -, -, -, hcomplete⟩ := layout_of_firstClash file h hclash
  have hall : List.Forall₂ (fun m m' : Method =>
      (m.instructions.toList.flatMap fun i => i.arguments.filterMap fun a =>
        (m.labelProblem? i a).map fun problem => problem.diagnostic file i.line) =
      ((p.layout file).scope file m').resolveMethod.2.filterMap Event.diagnostic?)
      p.methods.toList (p.layout file).methods := by
    refine forall₂_layout h fun m offset => ?_
    rw [Scope.diagnostics_resolveMethod (by rw [Placement.scope, hcomplete]; rfl)]
    rfl
  rw [link_eq h hentry, Journal.diagnostics_toArray, List.toList_toArray, List.filterMap_append,
    List.filterMap_flatMap, labelDiagnostics, List.flatMap_def, List.flatMap_def,
    map_eq_map_of_forall₂ (fun _ _ h => h) hall]

theorem argument?_eq_some_iff {j n i : Nat} {a : Argument} : p.argument? j n i = some a ↔
    ∃ m x, p.methods[j]? = some m ∧ m.instructions[n]? = some x ∧ x.arguments[i]? = some a := by
  simp only [argument?, Method.argument?, Option.bind_eq_some_iff]
  constructor
  · rintro ⟨m, hm, x, hx, ha⟩
    exact ⟨m, x, hm, hx, ha⟩
  · rintro ⟨m, x, hm, hx, ha⟩
    exact ⟨m, hm, x, hx, ha⟩

/-- A label becomes what it becomes with other names for the methods and other constants. -/
theorem label_link_of_sameBodies {p' : Program} {file' : String}
    (h : p.methods.toList = entry :: rest) (hentry : entry.isEntry = true)
    (hsame : p.SameBodies p') {j n i : Nat} {name : String}
    (ha : p.argument? j n i = some (.pending (.label name))) :
    (p.link file).1.argument? j n i = (p'.link file').1.argument? j n i := by
  obtain ⟨m, x, hm, hx, ha⟩ := argument?_eq_some_iff.1 ha
  rw [← Array.getElem?_toList] at hm
  obtain ⟨m', hm', heq⟩ := exists_getElem?_of_forall₂ hsame hm
  obtain ⟨entry', rest', h', hentry'⟩ : ∃ entry' rest',
      p'.methods.toList = entry' :: rest' ∧ entry'.isEntry = true := by
    rw [SameBodies, h] at hsame
    cases hmethods : p'.methods.toList with
    | nil =>
      rw [hmethods] at hsame
      cases hsame
    | cons entry' rest' =>
      rw [hmethods] at hsame
      cases hsame with
      | cons hfirst _ =>
        refine ⟨entry', rest', rfl, ?_⟩
        rw [hfirst]
        exact hentry
  have hinstructions : m'.instructions = m.instructions := by rw [heq]
  have hlabels : m'.labels = m.labels := by rw [heq]
  rw [Array.getElem?_toList] at hm hm'
  rw [argument?_link h hentry, argument?_link h' hentry', hm, hm']
  simp only [Option.bind_some, Scope.resolved?, Placement.scope, hinstructions, hx, ha,
    Option.map_some, Option.some.injEq]
  exact Scope.resolve_label_congr hlabels.symm x name

theorem interrupted_link (h : p.methods.toList = entry :: rest) (hentry : entry.isEntry = true)
    (hclash : p.FirstClash k) :
    p.Interrupted file k (p.link file).1 (p.link file).2.diagnostics.toList where
  pool := by
    obtain ⟨_, _, -, -, hpool, -⟩ := layout_of_firstClash file h hclash
    rw [others_link_of_firstClash h hentry hclash, ← List.map_take,
      List.take_left' (hclash.length_placedFrom _), List.map_map, link_eq h hentry, hpool]
    rfl
  first := by
    intro m hm
    rw [← Array.getElem?_toList, methods_link_of_firstClash h hentry hclash] at hm
    cases hm
    rfl
  placed := by
    intro j m hj hm
    have hoffset := offset_others_link file h hentry hclash j
    rw [hm] at hoffset
    obtain ⟨_, -, hoffset⟩ := Option.map_eq_some_iff.1 hoffset.symm
    rw [← hoffset, if_pos hj, h]
    rfl
  unplaced := by
    intro j hj
    rw [offset_others_link file h hentry hclash]
    simp only [Nat.not_lt.2 hj, ↓reduceIte]
  reported := by
    obtain ⟨m, taken, hm, htaken, -, -, hevents, -⟩ :=
      layout_of_firstClash file h hclash
    refine ⟨m, taken, hm, by rwa [link_eq h hentry], ?_⟩
    rw [diagnostics_link_of_firstClash h hentry hclash, hevents]
    rfl
  calls := by
    intro j n i name ha
    obtain ⟨m, x, hm, hx, ha⟩ := argument?_eq_some_iff.1 ha
    rw [argument?_link_of_firstClash h hentry hclash, hm]
    simp only [Option.bind_some, Scope.resolved?, hx, ha, Option.map_some]
    rfl
  labels := fun _ hsame _ _ _ _ _ ha => label_link_of_sameBodies h hentry hsame ha

/-- Linking changes nothing but places, constants of methods, and references that get their
values; without an entry method it changes nothing, and where a name is taken it goes as far as it
can. -/
theorem link_changes_little (file : String) (p : Program) :
    (p.link file).1.declared = p.declared ∧
    List.Forall₂ Method.Settles p.methods.toList (p.link file).1.methods.toList ∧
    (p.entry? = none → p.link file = (p, #[Problem.noMain.event file 0]) ∧
      (p.link file).2.errors = 1) ∧
    (p.entry? ≠ none → ∀ k, p.FirstClash k →
      p.Interrupted file k (p.link file).1 (p.link file).2.diagnostics.toList) := by
  refine ⟨declared_link file p, ?_, ?_, ?_⟩
  · exact forall₂_link file p Method.settles_self fun m offset =>
      Scope.settles_resolveMethod _ m offset rfl
  · intro hentry
    rw [errors_link_of_no_entry hentry]
    exact ⟨rfl, rfl⟩
  · intro hentry? k hclash
    obtain ⟨entry, hentry?⟩ := Option.ne_none_iff_exists'.1 hentry?
    obtain ⟨rest, h, hentry⟩ := exists_rest_of_entry? hentry?
    exact interrupted_link h hentry hclash

/-- The second method of the name `f` cannot be called, and `h` behind it has no place. -/
def jumpAndCallTwice : Program :=
  { jumpAndCall with
    methods := jumpAndCall.methods ++ #[Method.named "f" [] 8, Method.named "h" [] 9] }

theorem jumpAndCallTwice_interrupted :
    jumpAndCallTwice.entry? ≠ none ∧ jumpAndCallTwice.FirstClash 1 ∧
      jumpAndCallTwice.Interrupted "t.jas" 1 (jumpAndCallTwice.link "t.jas").1
        (jumpAndCallTwice.link "t.jas").2.diagnostics.toList := by
  have hentry : jumpAndCallTwice.entry? ≠ none := by decide +kernel
  have hclash : jumpAndCallTwice.FirstClash 1 := by
    refine ⟨⟨_, rfl, .inr ⟨_, List.mem_cons_self, rfl⟩⟩, fun j hj => ?_⟩
    obtain rfl : j = 0 := by omega
    rintro ⟨m, hm, ⟨c, hc, hname⟩ | ⟨_, hother, -⟩⟩
    · cases hm
      obtain rfl := List.mem_singleton.1 hc
      revert hname
      decide
    · cases hother
  exact ⟨hentry, hclash, (link_changes_little "t.jas" jumpAndCallTwice).2.2.2 hentry 1 hclash⟩

end Program

end IjvmAsm
