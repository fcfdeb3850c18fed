import IjvmAsm.Proofs.Program.Linking
import Mathlib.Data.List.Nodup

/-!
# Linked programs

What linking gives where it reports no error: the pool, the places of the methods and the value of
every reference. Whatever is reported, linking changes nothing but the pool, the places of methods
and references.
-/

namespace IjvmAsm.Program

/-- What linking makes of a program in which nothing is wrong. -/
structure LinkedAs (p q : Program) : Prop where
  settled : q.awaitsLinking = false
  pool : q.constants.toList = p.declared ++ q.others.map Method.constant
  values : ∀ m ∈ q.others, m.constant.value.toInt = m.offset
  increasing : (q.callable.toList.map Constant.value).Pairwise (· < ·)
  offsets : ∀ before m after, q.methods.toList = before ++ m :: after →
    m.offset = (before.map Method.size).sum + 4 * (before.length - 1)
  arguments : List.Forall₂
    (fun m m' : Method => List.Forall₂
      (fun i i' : Instruction =>
        List.Forall₂ (Settled q.constants m i) i.arguments i'.arguments)
      m.instructions.toList m'.instructions.toList)
    p.methods.toList q.methods.toList
  calls : ∀ m ∈ q.others, ∃ index,
    q.constantIndex? m.name = some index ∧ q.constants[index]? = some m.constant
  alike : List.Forall₂ Method.Alike p.methods.toList q.methods.toList

variable {file : String} {p : Program} {entry : Method} {rest : List Method}

/-- Laying a program out changes nothing but offsets in its methods. -/
theorem forall₂_layout {R : Method → Method → Prop} (h : p.methods.toList = entry :: rest)
    (hR : ∀ m offset, R m { m with offset }) :
    List.Forall₂ R p.methods.toList (p.layout file).methods := by
  rw [layout_eq h, h]
  exact .cons (hR entry 0) (forall₂_place (fun m => hR m m.offset) hR _ _ _ _)

/-- What holds between a method and what resolving makes of it, wherever it is placed, holds
between the methods of a program and those of the linked program. -/
theorem forall₂_link_of_entry {R : Method → Method → Prop} (h : p.methods.toList = entry :: rest)
    (hentry : entry.isEntry = true)
    (hR : ∀ m offset, R m ((p.layout file).scope file { m with offset }).resolveMethod.1) :
    List.Forall₂ R p.methods.toList (p.link file).1.methods.toList := by
  rw [link_eq h hentry]
  simp only [List.forall₂_map_right_iff]
  exact forall₂_layout h hR

theorem forall₂_link {R : Method → Method → Prop} (file : String) (p : Program)
    (hself : ∀ m, R m m)
    (hR : ∀ m offset, R m ((p.layout file).scope file { m with offset }).resolveMethod.1) :
    List.Forall₂ R p.methods.toList (p.link file).1.methods.toList := by
  cases hentry? : p.entry? with
  | none =>
    rw [errors_link_of_no_entry hentry?]
    exact List.forall₂_same.2 fun m _ => hself m
  | some entry =>
    obtain ⟨rest, h, hentry⟩ := exists_rest_of_entry? hentry?
    exact forall₂_link_of_entry h hentry hR

theorem forall₂_alike_link (file : String) (p : Program) :
    List.Forall₂ Method.Alike p.methods.toList (p.link file).1.methods.toList :=
  forall₂_link file p Method.alike_self fun m offset => Scope.alike_resolveMethod file _ m offset

def resolvedIn (file : String) (p : Program) (m : Method) : Method :=
  (Scope.resolveMethod ⟨file, some (p.layout file).pool, m⟩).1

theorem link_of_complete (h : p.methods.toList = entry :: rest) (hentry : entry.isEntry = true)
    (hcomplete : (p.layout file).complete = true) :
    (p.link file).1.constants = (p.layout file).pool ∧
      (p.link file).1.methods.toList = (placed entry rest).map (p.resolvedIn file) := by
  rw [link_of_entry h hentry, ← (layout_of_complete h hcomplete).1]
  refine ⟨rfl, ?_⟩
  simp only [hcomplete, ↓reduceIte, List.map_map]
  rfl

theorem others_link_of_complete (h : p.methods.toList = entry :: rest)
    (hentry : entry.isEntry = true) (hcomplete : (p.layout file).complete = true) :
    (p.link file).1.others = (placedFrom entry.size rest).map (p.resolvedIn file) := by
  rw [others, (link_of_complete h hentry hcomplete).2]
  rfl

theorem pool_link_of_complete (h : p.methods.toList = entry :: rest)
    (hentry : entry.isEntry = true) (hcomplete : (p.layout file).complete = true) :
    (p.link file).1.constants.toList =
      p.declared ++ (p.link file).1.others.map Method.constant := by
  rw [others_link_of_complete h hentry hcomplete, List.map_map,
    (link_of_complete h hentry hcomplete).1, (layout_of_complete h hcomplete).2]
  rfl

theorem offset_link_of_complete (h : p.methods.toList = entry :: rest)
    (hentry : entry.isEntry = true) (hcomplete : (p.layout file).complete = true)
    {before after : List Method} {m : Method}
    (hm : (p.link file).1.methods.toList = before ++ m :: after) :
    m.offset = (before.map Method.size).sum + 4 * (before.length - 1) := by
  rw [(link_of_complete h hentry hcomplete).2, List.map_eq_append_iff] at hm
  obtain ⟨before', tail, hplaced, rfl, htail⟩ := hm
  obtain ⟨m', after', rfl, rfl, _⟩ := List.map_eq_cons_iff.1 htail
  have hsize : Method.size ∘ p.resolvedIn file = Method.size := rfl
  rw [List.map_map, hsize, List.length_map]
  change m'.offset = _
  cases before' with
  | nil =>
    simp only [placed, List.nil_append, List.cons.injEq] at hplaced
    rw [← hplaced.1]
    rfl
  | cons first before' =>
    simp only [placed, List.cons_append, List.cons.injEq] at hplaced
    obtain ⟨rfl, hplaced⟩ := hplaced
    rw [offset_of_placedFrom_eq hplaced, headedSize_eq, List.map_cons, List.sum_cons,
      List.length_cons, Nat.add_sub_cancel]
    change entry.size + _ = entry.size + _ + _
    omega

theorem offset_lt_extent (h : p.methods.toList = entry :: rest) (hentry : entry.isEntry = true)
    (hcomplete : (p.layout file).complete = true) {m : Method}
    (hm : m ∈ (p.link file).1.others) : m.offset + m.size < p.extent := by
  rw [others_link_of_complete h hentry hcomplete] at hm
  obtain ⟨m', hm', rfl⟩ := List.mem_map.1 hm
  have hlt := offset_lt_of_mem_placedFrom hm'
  rw [extent, others, h]
  exact hlt

theorem pairwise_offset_link (h : p.methods.toList = entry :: rest)
    (hentry : entry.isEntry = true) (hcomplete : (p.layout file).complete = true) :
    (p.link file).1.others.Pairwise (·.offset < ·.offset) := by
  rw [others_link_of_complete h hentry hcomplete, List.pairwise_map]
  exact pairwise_offset_placedFrom entry.size rest

theorem callable_link (h : p.methods.toList = entry :: rest) (hentry : entry.isEntry = true)
    (hcomplete : (p.layout file).complete = true) :
    (p.link file).1.callable.toList = (p.link file).1.others.map Method.constant := by
  have hdeclared : p.declared.filter (fun c => c.origin == .method) = [] := by
    rw [declared, List.filter_filter, List.filter_eq_nil_iff]
    intro c _
    cases c.origin <;> simp
  rw [callable, Array.toList_filter, pool_link_of_complete h hentry hcomplete, List.filter_append,
    hdeclared, List.nil_append, List.filter_eq_self, List.forall_mem_map]
  intro m _
  rfl

/-- The constant of a method is the first of its name. -/
theorem constantIndex?_link (h : p.methods.toList = entry :: rest) (hentry : entry.isEntry = true)
    (hcomplete : (p.layout file).complete = true) {m : Method}
    (hm : m ∈ (p.link file).1.others) :
    ∃ index, (p.link file).1.constantIndex? m.name = some index ∧
      (p.link file).1.constants[index]? = some m.constant := by
  obtain ⟨hdistinct, hfresh⟩ := (complete_layout_iff h).1 hcomplete
  have hpool := pool_link_of_complete h hentry hcomplete
  have hnames : (p.link file).1.others.map Method.name = p.others.map Method.name := by
    rw [others_link_of_complete h hentry hcomplete, List.map_map, others, h, List.drop_succ_cons,
      List.drop_zero]
    exact map_placedFrom (fun _ _ => rfl) entry.size rest
  have hmem : m.constant ∈ (p.link file).1.constants := by
    rw [← Array.mem_toList_iff, hpool]
    exact List.mem_append_right _ (List.mem_map_of_mem hm)
  obtain ⟨index, hindex⟩ : ∃ index, (p.link file).1.constantIndex? m.name = some index := by
    rw [← Option.isSome_iff_exists, constantIndex?, Array.findIdx?_isSome, Array.any_eq_true']
    exact ⟨m.constant, hmem, beq_self_eq_true _⟩
  refine ⟨index, hindex, ?_⟩
  obtain ⟨hlt, hname, _⟩ := Array.findIdx?_eq_some_iff_getElem.1 hindex
  rw [Array.getElem?_eq_getElem hlt, Option.some.injEq]
  have hat := Array.mem_toList_iff.2 (Array.getElem_mem hlt)
  rw [hpool, List.mem_append] at hat
  rw [beq_iff_eq] at hname
  -- A declared constant does not bear the name of a method, and two methods do not share theirs.
  rcases hat with hdeclared | hmethod
  · obtain ⟨m', hm', hm'name⟩ := List.mem_map.1 (hnames ▸ List.mem_map_of_mem hm)
    exact absurd (hname.trans hm'name.symm) (hfresh m' hm' _ hdeclared)
  · obtain ⟨m', hm', hconstant⟩ := List.mem_map.1 hmethod
    rw [← hconstant] at hname ⊢
    have hsame : m' = m := List.inj_on_of_nodup_map (hnames ▸ hdistinct) hm' hm hname
    rw [hsame]

theorem settled_link (h : p.methods.toList = entry :: rest) (hentry : entry.isEntry = true)
    (herr : (p.link file).2.errors = 0) :
    List.Forall₂
      (fun m m' : Method => List.Forall₂
        (fun i i' : Instruction =>
          List.Forall₂ (Settled (p.link file).1.constants m i) i.arguments i'.arguments)
        m.instructions.toList m'.instructions.toList)
      p.methods.toList (p.link file).1.methods.toList := by
  obtain ⟨hcomplete, hsettled⟩ := (errors_link_eq_zero_iff_settled h hentry).1 herr
  obtain ⟨hpool, hmethods⟩ := link_of_complete h hentry hcomplete
  have hmethod : ∀ m offset, (∀ i ∈ m.instructions, ∀ a ∈ i.arguments,
      ∃ a', Settled (p.layout file).pool m i a a') →
      List.Forall₂ (fun i i' : Instruction =>
          List.Forall₂ (Settled (p.layout file).pool m i) i.arguments i'.arguments)
        m.instructions.toList (p.resolvedIn file { m with offset }).instructions.toList := by
    intro m offset hm
    have hquiet := (Scope.quiet_resolveMethod_iff
      (s := ⟨file, some (p.layout file).pool, { m with offset }⟩) rfl).2
      (by simpa only [settled_offset_iff] using hm)
    exact (Scope.settled_resolveMethod rfl hquiet).imp fun _ _ hi =>
      hi.imp fun _ _ ha => settled_offset_iff.1 ha
  rw [hpool, hmethods, List.forall₂_map_right_iff]
  rw [h] at hsettled ⊢
  obtain ⟨hfirst, hrest⟩ := List.forall_mem_cons.1 hsettled
  exact .cons (hmethod entry 0 hfirst) (forall₂_placedFrom hmethod _ hrest)

theorem awaitsLinking_link (h : p.methods.toList = entry :: rest) (hentry : entry.isEntry = true)
    (herr : (p.link file).2.errors = 0) : (p.link file).1.awaitsLinking = false := by
  have hsettled := settled_link h hentry herr
  rw [awaitsLinking, Array.any_eq_false']
  intro m' hm'
  obtain ⟨m, _, hm⟩ := exists_of_mem_right hsettled (Array.mem_toList_iff.2 hm')
  rw [Array.any_eq_true', not_exists]
  rintro i' ⟨hi', hpending⟩
  obtain ⟨i, _, hi⟩ := exists_of_mem_right hm (Array.mem_toList_iff.2 hi')
  obtain ⟨a', ha', hpending⟩ := List.any_eq_true.1 hpending
  obtain ⟨a, _, ha⟩ := exists_of_mem_right hi ha'
  rw [ha.isPending_eq_false] at hpending
  cases hpending

/-- Linking that reports no error has found the entry method and placed the others. -/
theorem exists_complete_of_errors (herr : (p.link file).2.errors = 0) :
    ∃ entry rest, p.methods.toList = entry :: rest ∧ entry.isEntry = true ∧
      (p.layout file).complete = true := by
  obtain ⟨entry, hfirst, hentry⟩ := ((errors_link_eq_zero_iff file p).1 herr).entry
  have hentry? : p.entry? = some entry := by
    rw [ entry?, hfirst, Option.filter_some, if_pos hentry]
  obtain ⟨rest, h, _⟩ := exists_rest_of_entry? hentry?
  exact ⟨entry, rest, h, hentry, ((errors_link_eq_zero_iff_settled h hentry).1 herr).1⟩

theorem linkedAs_link (hsize : p.extent < 2 ^ 31) (herr : (p.link file).2.errors = 0) :
    LinkedAs p (p.link file).1 := by
  obtain ⟨entry, rest, h, hentry, hcomplete⟩ := exists_complete_of_errors herr
  have hvalue : ∀ m ∈ (p.link file).1.others, m.constant.value.toInt = m.offset := by
    intro m hm
    have hlt := offset_lt_extent h hentry hcomplete hm
    exact Int32.toInt_ofNat_of_lt (by omega)
  refine ⟨awaitsLinking_link h hentry herr, pool_link_of_complete h hentry hcomplete, hvalue, ?_,
    fun _ _ _ => offset_link_of_complete h hentry hcomplete, settled_link h hentry herr,
    fun _ => constantIndex?_link h hentry hcomplete, forall₂_alike_link file p⟩
  rw [callable_link h hentry hcomplete, List.map_map, List.pairwise_map]
  refine (pairwise_offset_link h hentry hcomplete).imp_of_mem fun {m m'} hm hm' hlt => ?_
  rw [Int32.lt_iff_toInt_lt]
  change m.constant.value.toInt < m'.constant.value.toInt
  rw [hvalue m hm, hvalue m' hm']
  exact Int.ofNat_lt.2 hlt

/-- Linking goes well for linkable programs and no others, and then does all that it should. -/
theorem linkable_iff_and_linkedAs (file : String) (p : Program) (hsize : p.extent < 2 ^ 31) :
    ((p.link file).2.errors = 0 ↔ p.Linkable) ∧
      ((p.link file).2.errors = 0 → LinkedAs p (p.link file).1) :=
  ⟨errors_link_eq_zero_iff file p, linkedAs_link hsize⟩

/-- An entry method that jumps forward and calls `f`, which calls back by a declared constant. -/
def jumpAndCall : Program :=
  { constants := #[⟨"g", 7, 1, .declared⟩]
    methods := #[
      { Method.entry 2 with
        instructions := #[
          { operation := ⟨"GOTO", 0xA7, [.label]⟩, arguments := [.pending (.label "end")], line := 3 },
          { operation := ⟨"INVOKEVIRTUAL", 0xB6, [.method]⟩
            arguments := [.pending (.method "f")], line := 4, offset := 3 }]
        labels := #[⟨"end", 5, 6, 2⟩]
        size := 6 },
      { Method.named "f" ["a"] 6 with
        instructions := #[
          { operation := ⟨"INVOKEVIRTUAL", 0xB6, [.method]⟩
            arguments := [.pending (.method "g")], line := 7 }]
        size := 3 }] }

theorem jumpAndCall_linkedAs :
    jumpAndCall.extent < 2 ^ 31 ∧ (jumpAndCall.link "t.jas").2.errors = 0 ∧
      jumpAndCall.Linkable ∧ LinkedAs jumpAndCall (jumpAndCall.link "t.jas").1 := by
  have hsize : jumpAndCall.extent < 2 ^ 31 := by decide
  have herr : (jumpAndCall.link "t.jas").2.errors = 0 := by decide +kernel
  obtain ⟨hiff, hlinked⟩ := linkable_iff_and_linkedAs "t.jas" jumpAndCall hsize
  exact ⟨hsize, herr, hiff.1 herr, hlinked herr⟩

end IjvmAsm.Program
