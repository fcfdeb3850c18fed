import IjvmAsm.Proofs.Program.Resolution

/-!
# Linking

Linking reports no error exactly for linkable programs: the entry method comes first, the names of
the other methods are not taken, and every reference has something near enough to refer to.
-/

namespace IjvmAsm

theorem settled_offset_iff {pool : Array Constant} {m : Method} {offset : Nat} {i : Instruction}
    {a a' : Argument} : Settled pool { m with offset } i a a' ↔ Settled pool m i a a' := by
  constructor
  · intro h
    cases h with
    | resolved value => exact .resolved value
    | label found least greatest => exact .label found least greatest
    | method found => exact .method found
  · intro h
    cases h with
    | resolved value => exact .resolved value
    | label found least greatest => exact .label found least greatest
    | method found => exact .method found

theorem exists_settled_label_iff {pool : Array Constant} {m : Method} {i : Instruction}
    {name : String} :
    (∃ a', Settled pool m i (.pending (.label name)) a') ↔
      ∃ l, m.findLabel? name = some l ∧
        -0x8000 ≤ (l.offset : Int) - i.offset ∧ (l.offset : Int) - i.offset < 0x8000 := by
  constructor
  · rintro ⟨_, h⟩
    cases h with
    | label found least greatest => exact ⟨_, found, least, greatest⟩
  · rintro ⟨l, found, least, greatest⟩
    exact ⟨_, .label found least greatest⟩

theorem exists_settled_method_iff {pool : Array Constant} {m : Method} {i : Instruction}
    {name : String} :
    (∃ a', Settled pool m i (.pending (.method name)) a') ↔ ∃ c ∈ pool.toList, c.name = name := by
  have hfind : (∃ index, pool.findIdx? (fun c => c.name == name) = some index) ↔
      ∃ c ∈ pool.toList, c.name = name := by
    rw [← Option.isSome_iff_exists, Array.findIdx?_isSome, ← Array.any_toList, List.any_eq_true]
    simp only [beq_iff_eq]
  rw [← hfind]
  constructor
  · rintro ⟨_, h⟩
    cases h with
    | method found => exact ⟨_, found⟩
  · rintro ⟨index, found⟩
    exact ⟨_, .method found⟩

namespace Program

/-- What linking asks of a program. -/
structure Linkable (p : Program) : Prop where
  entry : ∃ m, p.methods[0]? = some m ∧ m.isEntry = true
  distinct : (p.others.map Method.name).Nodup
  fresh : ∀ m ∈ p.others, ∀ c ∈ p.declared, c.name ≠ m.name
  labels : ∀ m ∈ p.methods, ∀ i ∈ m.instructions, ∀ name,
    .pending (.label name) ∈ i.arguments → ∃ l, m.findLabel? name = some l ∧
      -0x8000 ≤ (l.offset : Int) - i.offset ∧ (l.offset : Int) - i.offset < 0x8000
  calls : ∀ m ∈ p.methods, ∀ i ∈ m.instructions, ∀ name,
    .pending (.method name) ∈ i.arguments →
      (∃ c ∈ p.declared, c.name = name) ∨ ∃ callee ∈ p.others, callee.name = name

variable {file : String} {p : Program} {entry : Method} {rest : List Method}

theorem toList_filter_not_method (p : Program) :
    (p.constants.filter fun c => c.origin != .method).toList = p.declared := by
  rw [declared, Array.toList_filter]
  congr 1
  funext c
  cases c.origin <;> rfl

theorem layout_eq (h : p.methods.toList = entry :: rest) :
    p.layout file =
      let placement := place file 0 entry.size (p.constants.filter fun c => c.origin != .method) rest
      { placement with methods := { entry with offset := 0 } :: placement.methods } := by
  simp only [layout, h]

def placed (entry : Method) (rest : List Method) : List Method :=
  { entry with offset := 0 } :: placedFrom entry.size rest

theorem complete_layout_iff (h : p.methods.toList = entry :: rest) :
    (p.layout file).complete = true ↔
      (p.others.map Method.name).Nodup ∧ ∀ m ∈ p.others, ∀ c ∈ p.declared, c.name ≠ m.name := by
  rw [layout_eq h, complete_place_iff, others, h, List.drop_succ_cons, List.drop_zero]
  simp only [← Array.mem_toList_iff, toList_filter_not_method]

theorem quiet_layout_iff (h : p.methods.toList = entry :: rest) :
    Quiet (p.layout file).events ↔ (p.layout file).complete = true := by
  rw [layout_eq h]
  exact quiet_place_iff

theorem layout_of_complete (h : p.methods.toList = entry :: rest)
    (hcomplete : (p.layout file).complete = true) :
    (p.layout file).methods = placed entry rest ∧
      (p.layout file).pool.toList =
        p.declared ++ (placedFrom entry.size rest).map Method.constant := by
  rw [layout_eq h] at hcomplete ⊢
  obtain ⟨hmethods, hpool⟩ := place_of_complete hcomplete
  exact ⟨congrArg _ hmethods, by rw [hpool, toList_filter_not_method]⟩

theorem link_of_entry (h : p.methods.toList = entry :: rest) (hentry : entry.isEntry = true) :
    p.link file =
      let placement := p.layout file
      let pool := if placement.complete then some placement.pool else none
      let results := placement.methods.map fun method => Scope.resolveMethod ⟨file, pool, method⟩
      (⟨placement.pool, (results.map Prod.fst).toArray⟩,
        (placement.events ++ results.flatMap Prod.snd).toArray) := by
  have hsome : p.entry? = some entry := by
    rw [ entry?, getElem?_zero_of_toList h, Option.filter_some, if_pos hentry]
  rw [link, hsome]

def Placement.scope (file : String) (placement : Placement) (m : Method) : Scope :=
  ⟨file, if placement.complete then some placement.pool else none, m⟩

theorem link_eq (h : p.methods.toList = entry :: rest) (hentry : entry.isEntry = true) :
    p.link file =
      (⟨(p.layout file).pool, ((p.layout file).methods.map fun m =>
          ((p.layout file).scope file m).resolveMethod.1).toArray⟩,
        ((p.layout file).events ++ (p.layout file).methods.flatMap fun m =>
          ((p.layout file).scope file m).resolveMethod.2).toArray) := by
  simp only [link_of_entry h hentry, List.map_map, List.flatMap_map]
  rfl

theorem errors_link_of_no_entry (h : p.entry? = none) :
    p.link file = (p, #[Problem.noMain.event file 0]) := by
  rw [link, h]

/-- Linking goes well exactly if all methods are placed and all arguments can be settled. -/
theorem errors_link_eq_zero_iff_settled (h : p.methods.toList = entry :: rest)
    (hentry : entry.isEntry = true) :
    (p.link file).2.errors = 0 ↔ (p.layout file).complete = true ∧
      ∀ m ∈ p.methods.toList, ∀ i ∈ m.instructions, ∀ a ∈ i.arguments,
        ∃ a', Settled (p.layout file).pool m i a a' := by
  rw [link_of_entry h hentry, Journal.errors_eq_zero_iff, quiet_append, quiet_layout_iff h]
  refine and_congr_right fun hcomplete => ?_
  have hsettled : ∀ m, Quiet (Scope.resolveMethod ⟨file, some (p.layout file).pool, m⟩).2 ↔
      ∀ i ∈ m.instructions, ∀ a ∈ i.arguments, ∃ a', Settled (p.layout file).pool m i a a' :=
    fun m => Scope.quiet_resolveMethod_iff rfl
  rw [if_pos hcomplete, quiet_flatMap, List.forall_mem_map, (layout_of_complete h hcomplete).1, h]
  simp only [hsettled, placed, List.forall_mem_cons, settled_offset_iff]
  rw [forall_mem_placedFrom]
  intro m offset
  simp only [settled_offset_iff]

theorem exists_settled_iff {pool : Array Constant} {m : Method} :
    (∀ i ∈ m.instructions, ∀ a ∈ i.arguments, ∃ a', Settled pool m i a a') ↔
      (∀ i ∈ m.instructions, ∀ name, .pending (.label name) ∈ i.arguments →
        ∃ l, m.findLabel? name = some l ∧
          -0x8000 ≤ (l.offset : Int) - i.offset ∧ (l.offset : Int) - i.offset < 0x8000) ∧
      ∀ i ∈ m.instructions, ∀ name, .pending (.method name) ∈ i.arguments →
        ∃ c ∈ pool.toList, c.name = name := by
  constructor
  · intro h
    refine ⟨fun i hi name hmem => ?_, fun i hi name hmem => ?_⟩
    · exact exists_settled_label_iff.1 (h i hi _ hmem)
    · exact exists_settled_method_iff.1 (h i hi _ hmem)
  · rintro ⟨hlabels, hcalls⟩ i hi a ha
    match a with
    | .resolved value => exact ⟨_, .resolved value⟩
    | .pending (.label name) => exact exists_settled_label_iff.2 (hlabels i hi name ha)
    | .pending (.method name) => exact exists_settled_method_iff.2 (hcalls i hi name ha)

/-- The names in the pool are those that were declared and those of the methods placed. -/
theorem exists_name_in_pool_iff (h : p.methods.toList = entry :: rest)
    (hcomplete : (p.layout file).complete = true) (name : String) :
    (∃ c ∈ (p.layout file).pool.toList, c.name = name) ↔
      (∃ c ∈ p.declared, c.name = name) ∨ ∃ m ∈ p.others, m.name = name := by
  have hnames : ((placedFrom entry.size rest).map Method.constant).map Constant.name =
      p.others.map Method.name := by
    rw [others, h, map_name_placedFrom, List.drop_succ_cons, List.drop_zero]
  have hmem : ∀ xs : List Constant, (∃ c ∈ xs, c.name = name) ↔ name ∈ xs.map Constant.name := by
    intro xs
    rw [List.mem_map]
  rw [hmem, (layout_of_complete h hcomplete).2, List.map_append, hnames, List.mem_append, ← hmem,
    List.mem_map]

theorem errors_link_eq_zero_iff (file : String) (p : Program) :
    (p.link file).2.errors = 0 ↔ p.Linkable := by
  cases hentry? : p.entry? with
  | none =>
    rw [errors_link_of_no_entry hentry?]
    refine iff_of_false ?_ fun hlinkable => ?_
    · simp [Journal.errors_eq_zero_iff, Problem.isError_event, Problem.severity]
    · exact entry?_eq_none_iff.1 hentry? hlinkable.entry
  | some entry =>
    obtain ⟨rest, h, hentry⟩ := exists_rest_of_entry? hentry?
    rw [errors_link_eq_zero_iff_settled h hentry]
    simp only [exists_settled_iff]
    constructor
    · rintro ⟨hcomplete, hsettled⟩
      have hnames := (complete_layout_iff h).1 hcomplete
      refine ⟨⟨entry, getElem?_zero_of_toList h, hentry⟩, hnames.1, hnames.2, fun m hm => ?_,
        fun m hm => ?_⟩
      · exact (hsettled m (Array.mem_toList_iff.2 hm)).1
      · simpa only [exists_name_in_pool_iff h hcomplete] using
          (hsettled m (Array.mem_toList_iff.2 hm)).2
    · intro hlinkable
      have hcomplete : (p.layout file).complete = true :=
        (complete_layout_iff h).2 ⟨hlinkable.distinct, hlinkable.fresh⟩
      refine ⟨hcomplete, fun m hm => ⟨?_, ?_⟩⟩
      · exact hlinkable.labels m (Array.mem_toList_iff.1 hm)
      · simpa only [exists_name_in_pool_iff h hcomplete] using
          hlinkable.calls m (Array.mem_toList_iff.1 hm)

end Program

end IjvmAsm
