import IjvmAsm.Proofs.Program.Linked
import IjvmAsm.Proofs.Program.Relinking
import IjvmAsm.Proofs.Program.Unlined
import Mathlib.Data.List.Find
import Mathlib.Data.Set.Function
import Mathlib.Logic.Equiv.Basic

/-!
# Renaming

What a program is called does not matter to what it becomes. Constants and methods share a space of
names, and each method has one of its own for its labels. A renaming that keeps the names of each
space apart commutes with linking, whatever linking reports, and without symbols no name gets into
the image. Messages tell names, so diagnostics are compared by where they point.
-/

namespace IjvmAsm

/-- New names for constants and methods, and for the labels of each method. -/
structure Renaming where
  symbol : String → String
  label : Nat → String → String

section Renamed

variable (symbol label : String → String)

def Constant.renamed (c : Constant) : Constant := { c with name := symbol c.name }

def Label.renamed (l : Label) : Label := { l with name := label l.name }

def Reference.renamed : Reference → Reference
  | .label name => .label (label name)
  | .method name => .method (symbol name)

def Argument.renamed : Argument → Argument
  | resolved value => resolved value
  | pending reference => pending (reference.renamed symbol label)

def Instruction.renamed (i : Instruction) : Instruction :=
  { i with arguments := i.arguments.map (Argument.renamed symbol label) }

/-- Slots are not reached by name any more, so they keep theirs. -/
def Method.renamed (m : Method) : Method :=
  { m with
    name := symbol m.name
    instructions := m.instructions.map (Instruction.renamed symbol label)
    labels := m.labels.map (Label.renamed label) }

end Renamed

namespace Renaming

def tail (r : Renaming) : Renaming := ⟨r.symbol, fun k => r.label (k + 1)⟩

def methods (r : Renaming) (ms : List Method) : List Method :=
  ms.mapIdx fun k => Method.renamed r.symbol (r.label k)

@[simp] theorem methods_cons (r : Renaming) (m : Method) (rest : List Method) :
    r.methods (m :: rest) = m.renamed r.symbol (r.label 0) :: r.tail.methods rest :=
  List.mapIdx_cons

/-- What is done to each method commutes with renaming them all if it does so for each. -/
theorem map_methods {r : Renaming} {ms : List Method} {f g : Method → Method}
    (h : ∀ (k : Nat) m, ms[k]? = some m →
      f (m.renamed r.symbol (r.label k)) = (g m).renamed r.symbol (r.label k)) :
    (r.methods ms).map f = r.methods (ms.map g) := by
  apply List.ext_getElem?
  intro k
  simp only [methods, List.getElem?_map, List.getElem?_mapIdx, Option.map_map]
  exact Option.map_congr fun m hm => h k m hm

theorem flatMap_methods {α : Type} {r : Renaming} {ms : List Method} {f g : Method → List α}
    (h : ∀ (k : Nat) m, ms[k]? = some m → f (m.renamed r.symbol (r.label k)) = g m) :
    (r.methods ms).flatMap f = ms.flatMap g := by
  induction ms generalizing r with
  | nil => rfl
  | cons m rest ih =>
    rw [methods_cons, List.flatMap_cons, List.flatMap_cons, h 0 m rfl,
      ih fun k other hother => h (k + 1) other hother]

end Renaming

def Program.renamed (r : Renaming) (p : Program) : Program :=
  ⟨p.constants.map (Constant.renamed r.symbol), (r.methods p.methods.toList).toArray⟩

/-- The names in a method that constants and methods answer to. -/
def Method.symbols (m : Method) : Set String :=
  {name | m.name = name ∨ ∃ i ∈ m.instructions, .pending (.method name) ∈ i.arguments}

def Method.targets (m : Method) : Set String :=
  {name | (∃ l ∈ m.labels, l.name = name) ∨
    ∃ i ∈ m.instructions, .pending (.label name) ∈ i.arguments}

def Program.symbols (p : Program) : Set String :=
  {name | (∃ c ∈ p.constants, c.name = name) ∨ ∃ m ∈ p.methods, name ∈ m.symbols}

/-- Different names in a program get different names. -/
structure Renaming.Faithful (r : Renaming) (p : Program) : Prop where
  symbols : Set.InjOn r.symbol p.symbols
  targets : ∀ (k : Nat) m, p.methods[k]? = some m → Set.InjOn (r.label k) m.targets

theorem Renaming.faithful_of_injective {r : Renaming} (hsymbol : Function.Injective r.symbol)
    (hlabel : ∀ k, Function.Injective (r.label k)) (p : Program) : r.Faithful p :=
  ⟨hsymbol.injOn, fun k _ _ => (hlabel k).injOn⟩

def Diagnostic.unworded (d : Diagnostic) : Diagnostic := { d with message := "" }

/-- Where the diagnostics among events point, and how severe they are. -/
def sites (events : List Event) : List Diagnostic :=
  (events.filterMap Event.diagnostic?).map Diagnostic.unworded

@[simp] theorem sites_append (xs ys : List Event) : sites (xs ++ ys) = sites xs ++ sites ys := by
  simp only [sites, List.filterMap_append, List.map_append]

theorem sites_flatMap {α : Type} (f : α → List Event) (xs : List α) :
    sites (xs.flatMap f) = xs.flatMap fun a => sites (f a) := by
  simp only [sites, List.filterMap_flatMap, List.map_flatMap]

theorem sites_toList (j : Journal) :
    sites j.toList = (j.diagnostics.map Diagnostic.unworded).toList := by
  rw [sites, Journal.diagnostics, Array.toList_map, Array.toList_filterMap]

/-- Problems of one severity are reported in the same places. -/
theorem sites_event {p p' : Problem} (h : p.severity = p'.severity) (file : String) (line : Nat) :
    sites [p.event file line] = sites [p'.event file line] :=
  congrArg (fun severity => [(⟨file, line, severity, ""⟩ : Diagnostic)]) h

section Lookup

variable {f : String → String} {names : Set String} {name : String} {pool : Array Constant}

theorem beq_renamed (hf : Set.InjOn f names) {a b : String} (ha : a ∈ names) (hb : b ∈ names) :
    (f a == f b) = (a == b) := by
  rw [Bool.eq_iff_iff, beq_iff_eq, beq_iff_eq]
  exact hf.eq_iff ha hb

theorem find?_map_renamed (hf : Set.InjOn f names) (hpool : ∀ c ∈ pool, c.name ∈ names)
    (hname : name ∈ names) :
    (pool.map (Constant.renamed f)).find? (fun c => c.name == f name) =
      (pool.find? fun c => c.name == name).map (Constant.renamed f) := by
  rw [Array.find?_map, ← Array.find?_toList, ← Array.find?_toList]
  congr 1
  apply List.find?_congr
  intro c hc
  exact beq_renamed hf (hpool c (Array.mem_toList_iff.1 hc)) hname

theorem findIdx?_map_renamed (hf : Set.InjOn f names) (hpool : ∀ c ∈ pool, c.name ∈ names)
    (hname : name ∈ names) :
    (pool.map (Constant.renamed f)).findIdx? (fun c => c.name == f name) =
      pool.findIdx? fun c => c.name == name := by
  obtain ⟨cs⟩ := pool
  rw [List.map_toArray, List.findIdx?_toArray, List.findIdx?_toArray]
  induction cs with
  | nil => rfl
  | cons c rest ih =>
    simp only [List.mem_toArray, List.forall_mem_cons] at hpool ih
    obtain ⟨hc, hrest⟩ := hpool
    have hbeq : ((c.renamed f).name == f name) = (c.name == name) := beq_renamed hf hc hname
    rw [List.map_cons, List.findIdx?_cons, List.findIdx?_cons, hbeq, ih hrest]

theorem findLabel?_renamed (symbol : String → String) {m : Method} (hf : Set.InjOn f m.targets)
    (hname : name ∈ m.targets) :
    (m.renamed symbol f).findLabel? (f name) = (m.findLabel? name).map (Label.renamed f) := by
  rw [Method.findLabel?, Method.renamed, Array.find?_map, Method.findLabel?, ← Array.find?_toList,
    ← Array.find?_toList]
  congr 1
  apply List.find?_congr
  intro l hl
  exact beq_renamed hf (.inl ⟨l, Array.mem_toList_iff.1 hl, rfl⟩) hname

end Lookup

namespace Scope

variable {symbol label : String → String} {names : Set String}

def renamed (symbol label : String → String) (s : Scope) : Scope :=
  ⟨s.file, s.pool.map (Array.map (Constant.renamed symbol)), s.method.renamed symbol label⟩

/-- What a scope asks of new names: those of the pool and of calls in the method are kept apart, and
so are those of its labels and jumps. -/
structure Faithful (symbol label : String → String) (names : Set String) (s : Scope) : Prop where
  symbol : Set.InjOn symbol names
  label : Set.InjOn label s.method.targets
  pool : ∀ pool, s.pool = some pool → ∀ c ∈ pool, c.name ∈ names
  calls : s.method.symbols ⊆ names

variable {s : Scope} {i : Instruction}

theorem resolve_renamed (h : s.Faithful symbol label names) (hi : i ∈ s.method.instructions)
    {a : Argument} (ha : a ∈ i.arguments) :
    ((s.renamed symbol label).resolve (i.renamed symbol label) (a.renamed symbol label)).1 =
        (s.resolve i a).1.renamed symbol label ∧
      sites ((s.renamed symbol label).resolve (i.renamed symbol label)
          (a.renamed symbol label)).2.toList = sites (s.resolve i a).2.toList := by
  match a with
  | .resolved value => exact ⟨rfl, rfl⟩
  | .pending (.label name) =>
    have hfind : (s.renamed symbol label).method.findLabel? (label name) =
        (s.method.findLabel? name).map (Label.renamed label) :=
      findLabel?_renamed symbol h.label (.inr ⟨i, hi, ha⟩)
    simp only [Argument.renamed, Reference.renamed, resolve, distance, hfind]
    cases s.method.findLabel? name with
    | none => exact ⟨rfl, sites_event rfl s.file i.line⟩
    | some l =>
      by_cases hfits : fitsSigned 16 ((l.offset : Int) - i.offset) = true
      · simp only [Option.map_some, Label.renamed, Instruction.renamed, hfits, ↓reduceIte]
        exact ⟨rfl, rfl⟩
      · simp only [Option.map_some, Label.renamed, Instruction.renamed, hfits, Bool.false_eq_true,
          ↓reduceIte]
        exact ⟨rfl, sites_event rfl s.file i.line⟩
  | .pending (.method name) =>
    cases hpool : s.pool with
    | none =>
      have hpool' : (s.renamed symbol label).pool = none := by rw [renamed, hpool]; rfl
      simp only [Argument.renamed, Reference.renamed, resolve, hpool, hpool', and_self]
    | some pool =>
      have hpool' : (s.renamed symbol label).pool = some (pool.map (Constant.renamed symbol)) := by
        rw [renamed, hpool]
        rfl
      have hindex := findIdx?_map_renamed h.symbol (h.pool pool hpool)
        (h.calls (.inr ⟨i, hi, ha⟩))
      simp only [Argument.renamed, Reference.renamed, resolve, hpool, hpool', methodIndex, hindex]
      cases pool.findIdx? fun c => c.name == name with
      | none => exact ⟨rfl, sites_event rfl s.file i.line⟩
      | some index => exact ⟨rfl, rfl⟩

theorem resolveInstruction_renamed (h : s.Faithful symbol label names)
    (hi : i ∈ s.method.instructions) :
    ((s.renamed symbol label).resolveInstruction (i.renamed symbol label)).1 =
        (s.resolveInstruction i).1.renamed symbol label ∧
      sites ((s.renamed symbol label).resolveInstruction (i.renamed symbol label)).2 =
        sites (s.resolveInstruction i).2 := by
  constructor
  · simp only [resolveInstruction, List.map_map, Instruction.renamed]
    refine congrArg (fun arguments => { i with arguments }) (List.map_congr_left fun a ha => ?_)
    exact (resolve_renamed h hi ha).1
  · simp only [resolveInstruction, Instruction.renamed, List.filterMap_eq_flatMap_toList,
      List.flatMap_map, sites_flatMap]
    exact List.flatMap_congr fun a ha => (resolve_renamed h hi ha).2

theorem resolveMethod_renamed (h : s.Faithful symbol label names) :
    (s.renamed symbol label).resolveMethod.1 = s.resolveMethod.1.renamed symbol label ∧
      sites (s.renamed symbol label).resolveMethod.2 = sites s.resolveMethod.2 := by
  have hinstructions : (s.renamed symbol label).method.instructions =
      s.method.instructions.map (Instruction.renamed symbol label) := rfl
  constructor
  · simp only [resolveMethod, hinstructions, Array.map_map, Method.renamed]
    refine congrArg (fun is => { s.method.renamed symbol label with instructions := is }) ?_
    exact Array.map_congr_left fun i hi => (resolveInstruction_renamed h hi).1
  · simp only [resolveMethod, hinstructions, Array.toList_map, List.map_map, List.flatMap_map,
      sites_flatMap]
    exact List.flatMap_congr fun i hi =>
      (resolveInstruction_renamed h (Array.mem_toList_iff.1 hi)).2

end Scope

namespace Program

structure Placement.Renames (r : Renaming) (placed placed' : Placement) : Prop where
  pool : placed'.pool = placed.pool.map (Constant.renamed r.symbol)
  methods : placed'.methods = r.methods placed.methods
  complete : placed'.complete = placed.complete
  sites : sites placed'.events = sites placed.events

variable {r : Renaming} {names : Set String} {file : String} {p : Program}

theorem place_renamed (file : String) (hsymbol : Set.InjOn r.symbol names) (index cursor : Nat)
    {pool : Array Constant} (hpool : ∀ c ∈ pool, c.name ∈ names) {ms : List Method}
    (hms : ∀ m ∈ ms, m.name ∈ names) :
    (place file index cursor pool ms).Renames r
        (place file index cursor (pool.map (Constant.renamed r.symbol)) (r.methods ms)) ∧
      ∀ c ∈ (place file index cursor pool ms).pool, c.name ∈ names := by
  -- The renaming changes on the way: behind each method the names of labels are those of the next.
  induction ms generalizing r index cursor pool with
  | nil => exact ⟨⟨rfl, rfl, rfl, rfl⟩, hpool⟩
  | cons m rest ih =>
    obtain ⟨hm, hrest⟩ := List.forall_mem_cons.1 hms
    have hfind := find?_map_renamed hsymbol hpool hm
    have hname : (m.renamed r.symbol (r.label 0)).name = r.symbol m.name := rfl
    simp only [Renaming.methods_cons, place, hname, hfind]
    cases pool.find? fun c => c.name == m.name with
    | some taken =>
      exact ⟨⟨rfl, (r.methods_cons m rest).symm, rfl, sites_event rfl file m.line⟩, hpool⟩
    | none =>
      have hpush : ∀ c ∈ pool.push ⟨m.name, Int32.ofNat cursor, m.line, .method⟩,
          c.name ∈ names := Array.forall_mem_push.2 ⟨hm, hpool⟩
      obtain ⟨hplaced, hnames⟩ := ih (r := r.tail) hsymbol (index + 1)
        (cursor + m.size + Image.headerSize) hpush hrest
      rw [Array.map_push] at hplaced
      refine ⟨⟨hplaced.pool, ?_, hplaced.complete, hplaced.sites⟩, hnames⟩
      rw [Renaming.methods_cons]
      exact congrArg _ hplaced.methods

theorem layout_renamed (file : String) (h : r.Faithful p) :
    (p.layout file).Renames r ((p.renamed r).layout file) ∧
      ∀ c ∈ (p.layout file).pool, c.name ∈ p.symbols := by
  have hdeclared : (p.renamed r).constants.filter (fun c => c.origin != .method) =
      (p.constants.filter fun c => c.origin != .method).map (Constant.renamed r.symbol) := by
    rw [renamed, Array.filter_map]
    rfl
  have hpool : ∀ c ∈ p.constants.filter (fun c => c.origin != .method), c.name ∈ p.symbols := by
    intro c hc
    exact .inl ⟨c, (Array.mem_filter.1 hc).1, rfl⟩
  have hmethods : ∀ m ∈ p.methods.toList, m.name ∈ p.symbols := by
    intro m hm
    exact .inr ⟨m, Array.mem_toList_iff.1 hm, .inl rfl⟩
  unfold layout
  rw [hdeclared, renamed]
  cases hlist : p.methods.toList with
  | nil => exact ⟨⟨rfl, rfl, rfl, rfl⟩, hpool⟩
  | cons entry others =>
    rw [hlist] at hmethods
    obtain ⟨hplaced, hnames⟩ := place_renamed (r := r.tail) file h.symbols 0 entry.size hpool
      (List.forall_mem_cons.1 hmethods).2
    simp only [Renaming.methods_cons]
    refine ⟨⟨hplaced.pool, ?_, hplaced.complete, hplaced.sites⟩, hnames⟩
    rw [Renaming.methods_cons]
    exact congrArg _ hplaced.methods

/-- What does not depend on the offset of a method is not changed by laying it out. -/
theorem map_methods_layout {α : Type} {f : Method → α} (hf : ∀ m offset, f { m with offset } = f m)
    (file : String) (p : Program) : (p.layout file).methods.map f = p.methods.toList.map f := by
  unfold layout
  cases p.methods.toList with
  | nil => rfl
  | cons entry others =>
    have hplaced : List.Forall₂ (fun m m' => f m = f m') others (place file 0 entry.size
        (p.constants.filter fun c => c.origin != .method) others).methods :=
      forall₂_place (R := fun m m' => f m = f m') (fun _ => rfl)
        (fun m offset => (hf m offset).symm) _ _ _ _
    exact congrArg₂ List.cons (hf entry 0) (forall₂_iff_map_eq_map.1 hplaced).symm

theorem entry?_renamed (r : Renaming) (p : Program) :
    entry? (p.renamed r) = p.entry?.map (Method.renamed r.symbol (r.label 0)) := by
  rw [ entry?, entry?, renamed, List.getElem?_toArray, Renaming.methods, List.getElem?_mapIdx,
    Array.getElem?_toList]
  cases p.methods[0]? with
  | none => rfl
  | some m =>
    cases hm : m.isEntry with
    | false => simp [Option.filter_some, hm, Method.renamed]
    | true => simp [Option.filter_some, hm, Method.renamed]

/-- The methods of a program, laid out, are resolved in scopes in which names are kept apart. -/
theorem faithful_scope (h : r.Faithful p) {k : Nat} {m : Method}
    (hm : (p.layout file).methods[k]? = some m) :
    ((p.layout file).scope file m).Faithful r.symbol (r.label k) p.symbols := by
  -- A method that is laid out has the names that it had before, at the same index.
  have hsame : (p.layout file).methods.map (fun m => (m.targets, m.symbols)) = _ :=
    map_methods_layout (fun _ _ => rfl) file p
  have hk := congrArg (·[k]?) hsame
  simp only [List.getElem?_map, hm, Option.map_some, Array.getElem?_toList] at hk
  obtain ⟨before, hbefore, hnames⟩ := Option.map_eq_some_iff.1 hk.symm
  obtain ⟨htargets, hsymbols⟩ := Prod.mk.injEq .. ▸ hnames
  refine ⟨h.symbols, ?_, ?_, ?_⟩
  · change Set.InjOn (r.label k) m.targets
    rw [← htargets]
    exact h.targets k before hbefore
  · intro pool hpool
    rw [Placement.scope, Option.ite_none_right_eq_some] at hpool
    cases hpool.2
    exact (layout_renamed file h).2
  · change m.symbols ⊆ p.symbols
    rw [← hsymbols]
    exact fun name hname => .inr ⟨before, Array.mem_of_getElem? hbefore, hname⟩

theorem link_renamed (file : String) (h : r.Faithful p) :
    ((p.renamed r).link file).1 = (p.link file).1.renamed r ∧
      sites ((p.renamed r).link file).2.toList = sites (p.link file).2.toList := by
  cases hentry? : p.entry? with
  | none =>
    have hentry?' : entry? (p.renamed r) = none := by rw [entry?_renamed, hentry?]; rfl
    simp only [errors_link_of_no_entry hentry?, errors_link_of_no_entry hentry?', and_self]
  | some entry =>
    obtain ⟨rest, hp, hentry⟩ := exists_rest_of_entry? hentry?
    have hp' : (p.renamed r).methods.toList =
        entry.renamed r.symbol (r.label 0) :: r.tail.methods rest := by
      rw [renamed, hp, Renaming.methods_cons]
    obtain ⟨hlayout, -⟩ := layout_renamed file h
    have hscope : ∀ (k : Nat) m, ((p.renamed r).layout file).scope file
        (m.renamed r.symbol (r.label k)) =
          ((p.layout file).scope file m).renamed r.symbol (r.label k) := by
      intro k m
      rw [Placement.scope, hlayout.pool, hlayout.complete]
      cases hcomplete : (p.layout file).complete <;>
        simp [Placement.scope, hcomplete, Scope.renamed]
    have hresolved := fun k m (hm : (p.layout file).methods[k]? = some m) =>
      Scope.resolveMethod_renamed (faithful_scope h hm)
    rw [link_eq hp hentry, link_eq hp' hentry, hlayout.methods, hlayout.pool]
    constructor
    · have hmethods : (r.methods (p.layout file).methods).map (fun m =>
          (((p.renamed r).layout file).scope file m).resolveMethod.1) =
          r.methods ((p.layout file).methods.map fun m =>
            ((p.layout file).scope file m).resolveMethod.1) := by
        apply Renaming.map_methods
        intro k m hm
        rw [hscope]
        exact (hresolved k m hm).1
      rw [hmethods]
      rfl
    · simp only [sites_append, sites_flatMap, hlayout.sites]
      congr 1
      apply Renaming.flatMap_methods
      intro k m hm
      rw [hscope]
      exact (hresolved k m hm).2

end Program

def EmissionError.unnamed : EmissionError → EmissionError
  | unresolved _ _ line => unresolved "" "" line
  | headerOverflow _ field => headerOverflow "" field
  | missingEntry => missingEntry
  | outOfRange value kind line => outOfRange value kind line
  | outputFull => outputFull

/-- A step without names: what is noted on the way is left out of account. -/
def Step.unnamed : Step → Step
  | write bytes => write bytes
  | note event => note (.remark event.level "")
  | fail error => fail error.unnamed

variable (symbol label : String → String)

/-- An instruction is written alike whatever names it waits for and however its method is called. -/
theorem Instruction.emission_renamed (lenient : Bool) (method method' : String) (i : Instruction) :
    ((i.renamed symbol label).emission lenient method').map Step.unnamed =
      (i.emission lenient method).map Step.unnamed := by
  have hstep : ∀ kind a,
      ((i.renamed symbol label).argumentStep lenient method' kind
        (a.renamed symbol label)).unnamed = (i.argumentStep lenient method kind a).unnamed := by
    intro kind a
    cases a with
    | resolved value => rfl
    | pending reference =>
      cases lenient with
      | true => rfl
      | false => rfl
  simp only [emission, List.map_cons, List.map_zipWith, renamed, List.zipWith_map_right]
  congr 2
  funext kind a
  exact hstep kind a

theorem Method.emission_renamed (lenient : Bool) (m : Method) :
    ((m.renamed symbol label).emission lenient).map Step.unnamed =
      (m.emission lenient).map Step.unnamed := by
  simp only [emission, List.map_cons, List.map_flatMap, renamed, Array.toList_map, List.flatMap_map,
    Instruction.emission_renamed symbol label lenient m.name (symbol m.name)]
  rfl

theorem Method.headerEmission_renamed (m : Method) :
    (m.renamed symbol label).headerEmission.map Step.unnamed =
      m.headerEmission.map Step.unnamed := by
  have hlocals : (m.renamed symbol label).localCount = m.localCount := rfl
  unfold headerEmission
  rw [hlocals]
  by_cases hparameters : 0x10000 ≤ m.parameterCount
  · simp only [renamed, hparameters, ↓reduceIte]
    rfl
  · simp only [renamed, hparameters, ↓reduceIte]
    split <;> rfl

namespace Program

theorem size_renamed (r : Renaming) (p : Program) : (p.renamed r).size = p.size := by
  have htotal : ∀ (ms : List Method) (r : Renaming), ((r.methods ms).map Method.segmentSize).sum =
      (ms.map Method.segmentSize).sum := by
    intro ms
    induction ms with
    | nil => exact fun _ => rfl
    | cons m rest ih =>
      intro r
      rw [Renaming.methods_cons, List.map_cons, List.sum_cons, ih, List.map_cons, List.sum_cons]
      rfl
  rw [size_eq, size_eq]
  exact htotal p.methods.toList r

theorem headEmission_renamed (r : Renaming) (p : Program) :
    (p.renamed r).headEmission = p.headEmission := by
  simp only [headEmission, size_renamed]
  simp only [renamed, Array.size_map, Array.toList_map, List.map_map]
  rfl

/-- Without symbols, the steps of writing a program are those of the program under other names. -/
theorem emission_renamed (r : Renaming) (lenient : Bool) (p : Program) :
    ((p.renamed r).emission lenient).map Step.unnamed =
      (p.emission lenient).map Step.unnamed := by
  unfold emission
  rw [entry?_renamed]
  cases hentry? : p.entry? with
  | none => rfl
  | some entry =>
    obtain ⟨rest, hp, -⟩ := exists_rest_of_entry? hentry?
    have hrest : ((r.methods p.methods.toList).drop 1).flatMap (fun m =>
        (m.headerEmission ++ m.emission lenient).map Step.unnamed) =
          (p.methods.toList.drop 1).flatMap fun m =>
            (m.headerEmission ++ m.emission lenient).map Step.unnamed := by
      rw [hp, Renaming.methods_cons, List.drop_one, List.drop_one, List.tail_cons, List.tail_cons]
      apply Renaming.flatMap_methods
      intro k m _
      simp only [List.map_append, Method.headerEmission_renamed, Method.emission_renamed]
    simp only [Option.map_some, List.map_append, List.map_flatMap, headEmission_renamed,
      Method.emission_renamed] at hrest ⊢
    rw [renamed, hrest]
    rfl

theorem result_render_renamed (r : Renaming) (lenient : Bool) (p : Program) :
    ((p.renamed r).render lenient false).result.mapError EmissionError.unnamed =
      (p.render lenient false).result.mapError EmissionError.unnamed := by
  have hrun : ∀ e : Emission, (Emission.run (e.map Step.unnamed)).result =
      (Emission.run e).result.mapError EmissionError.unnamed :=
    Emission.result_run_map (fun _ => rfl) (fun _ => rfl) (fun event => ⟨_, rfl⟩)
  simp only [render, Bool.false_eq_true, ↓reduceIte, List.append_nil, ← hrun, emission_renamed]

/-- Linking commutes with renaming, whether or not names are missing, doubled or taken: the same
diagnostics are reported in the same places and order, and, with or without leniency, the two linked
programs are written as the same bytes or cannot be written for the same reason. -/
theorem names_do_not_matter (r : Renaming) (file : String) (p : Program) (h : r.Faithful p) :
    let linked := p.link file
    let linked' := (p.renamed r).link file
    linked'.1 = linked.1.renamed r ∧
      linked'.2.diagnostics.map Diagnostic.unworded =
        linked.2.diagnostics.map Diagnostic.unworded ∧
      ∀ lenient, (linked'.1.render lenient false).result.mapError EmissionError.unnamed =
        (linked.1.render lenient false).result.mapError EmissionError.unnamed := by
  obtain ⟨hprogram, hsites⟩ := link_renamed file h
  refine ⟨hprogram, ?_, fun lenient => ?_⟩
  · apply Array.toList_inj.1
    rw [← sites_toList, ← sites_toList, hsites]
  · rw [hprogram]
    exact result_render_renamed r lenient _

/-- Calls the method `f` by the name of the constant `g`, and the constant by that of the method. -/
def exchange : Renaming := ⟨Equiv.swap "f" "g", fun _ => Equiv.swap "end" "f"⟩

theorem exchange_does_not_matter :
    exchange.Faithful jumpAndCall ∧
      ((jumpAndCall.renamed exchange).link "t.jas").1 =
        (jumpAndCall.link "t.jas").1.renamed exchange ∧
      ((jumpAndCall.renamed exchange).link "t.jas").2.diagnostics.map Diagnostic.unworded =
        (jumpAndCall.link "t.jas").2.diagnostics.map Diagnostic.unworded ∧
      ∀ lenient,
        (((jumpAndCall.renamed exchange).link "t.jas").1.render lenient false).result.mapError
            EmissionError.unnamed =
          ((jumpAndCall.link "t.jas").1.render lenient false).result.mapError
            EmissionError.unnamed := by
  have hfaithful : exchange.Faithful jumpAndCall :=
    Renaming.faithful_of_injective (Equiv.injective _) (fun _ => Equiv.injective _) jumpAndCall
  exact ⟨hfaithful, names_do_not_matter exchange "t.jas" jumpAndCall hfaithful⟩

end Program

end IjvmAsm
