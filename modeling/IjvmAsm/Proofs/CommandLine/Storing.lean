import IjvmAsm.CommandLine.Directory
import Mathlib.Data.List.Infix
import Mathlib.Tactic.SplitIfs

/-!
# Storing a file

A file that is stored is found where its path leads to, and at every other place there is what was
there before: the way to the file leads through directories that are there already, so none comes
into being with it.
-/

namespace IjvmAsm.CommandLine

namespace Directory

variable {d d' : Directory} {start location other : List String} {path : String} {content : Bytes}

theorem exists_at?_of_isUpward (d : Directory) (h : isUpward location = true) :
    ∃ node, d.at? location = some node := by
  unfold at?
  cases d.files.lookup location with
  | some content => exact ⟨_, rfl⟩
  | none => exact ⟨.directory, by rw [h, Bool.true_or]; rfl⟩

/-- Every place on the way to a location is there. -/
def Reached (d : Directory) (location : List String) : Prop :=
  ∀ place, place <+: location → place ≠ location → ∃ node, d.at? place = some node

theorem Reached.next (h : d.Reached location) (hat : d.at? location = some .directory)
    (step : String) : d.Reached (next location step) := by
  unfold Directory.next above
  split_ifs with hstay hup hroot hupward
  · exact h
  · exact h
  · intro place hplace _
    have hall : location.all (· == "..") = true := by
      rw [isUpward, Bool.or_eq_true] at hupward
      exact hupward.resolve_right hroot
    apply d.exists_at?_of_isUpward
    rw [isUpward, Bool.or_eq_true]
    refine .inl (List.all_eq_true.2 fun name hname => ?_)
    rcases List.mem_cons.1 (hplace.mem hname) with rfl | hname
    · rfl
    · exact List.all_eq_true.1 hall name hname
  · intro place hplace hne
    refine h place (hplace.trans (List.dropLast_prefix _)) ?_
    rintro rfl
    exact hne (hplace.eq_of_length_le (List.dropLast_prefix _).length_le)
  · intro place hplace hne
    rcases List.prefix_concat_iff.1 hplace with rfl | hplace
    · exact absurd rfl hne
    · by_cases heq : place = location
      · exact ⟨_, heq ▸ hat⟩
      · exact h place hplace heq

theorem Reached.walk {steps : List String} (h : d.Reached start)
    (hwalk : d.walk start steps = .ok location) : d.Reached location := by
  induction steps generalizing start with
  | nil =>
    cases hwalk
    exact h
  | cons step rest ih =>
    unfold Directory.walk at hwalk
    split at hwalk
    · cases hwalk
    · cases hwalk
    next hat => exact ih (h.next hat step) hwalk

theorem reached_of_locate (h : d.locate path = .ok location) : d.Reached location := by
  unfold locate at h
  split_ifs at h with hempty habsolute
  · refine Reached.walk (fun place hplace hne => ?_) h
    rcases List.prefix_concat_iff.1 (List.nil_append [root] ▸ hplace) with rfl | hplace
    · exact absurd rfl hne
    · rw [List.prefix_nil.1 hplace]
      exact d.exists_at?_of_isUpward rfl
  · refine Reached.walk (fun place hplace hne => ?_) h
    exact absurd (List.prefix_nil.1 hplace) hne

/-- A walk looks at nothing but where directories are. -/
theorem walk_congr {steps : List String}
    (hother : ∀ other, other ≠ location → d'.at? other = d.at? other)
    (hfile : d.at? location ≠ some .directory) {target : List String}
    (h : d.walk start steps = .ok target) : d'.walk start steps = .ok target := by
  induction steps generalizing start with
  | nil => exact h
  | cons step rest ih =>
    unfold Directory.walk at h ⊢
    split at h
    · cases h
    · cases h
    next hat =>
      have hne : start ≠ location := by
        rintro rfl
        exact hfile hat
      rw [hother start hne, hat]
      exact ih h

theorem locate_congr (hother : ∀ other, other ≠ location → d'.at? other = d.at? other)
    (hfile : d.at? location ≠ some .directory) {target : List String}
    (h : d.locate path = .ok target) : d'.locate path = .ok target := by
  unfold locate at h ⊢
  split_ifs at h ⊢ <;> exact walk_congr hother hfile h

theorem at?_put_self (d : Directory) (location : List String) (content : Bytes) :
    (d.put location content).at? location = some (.file content) := by
  unfold at? put
  rw [List.lookup_cons_self]

theorem lookup_put (hne : other ≠ location) :
    (d.put location content).files.lookup other = d.files.lookup other := by
  have hkept : ∀ files : List (List String × Bytes),
      (files.filter fun file => file.1 != location).lookup other = files.lookup other := by
    intro files
    induction files with
    | nil => rfl
    | cons file rest ih =>
      obtain ⟨names, held⟩ := file
      by_cases hnames : names = location
      · have hskip : (other == names) = false := beq_eq_false_iff_ne.2 (hnames ▸ hne)
        rw [List.filter_cons_of_neg (by simp [hnames]), ih, List.lookup_cons, hskip]
      · rw [List.filter_cons_of_pos (by simp [hnames]), List.lookup_cons, List.lookup_cons, ih]
  rw [put, List.lookup_cons, beq_eq_false_iff_ne.2 hne]
  exact hkept d.files

/-- A place holds a directory where there is no file and the way somewhere leads through it. -/
theorem at?_of_lookup_eq_none (h : d.files.lookup other = none) :
    d.at? other =
      if isUpward other = true ∨ d.files.any (fun file => other.isPrefixOf file.1) = true
      then some .directory else none := by
  simp only [at?, h, Bool.or_eq_true]

/-- Storing a file changes no other place. -/
theorem at?_put_of_ne (hreached : d.Reached location) (hne : other ≠ location) :
    (d.put location content).at? other = d.at? other := by
  cases hlookup : d.files.lookup other with
  | some held => simp only [at?, lookup_put hne, hlookup]
  | none =>
    rw [at?_of_lookup_eq_none ((lookup_put hne).trans hlookup), at?_of_lookup_eq_none hlookup]
    refine if_congr ?_ rfl rfl
    simp only [List.any_eq_true, List.isPrefixOf_iff_prefix]
    constructor
    · rintro (hupward | ⟨file, hfile, hprefix⟩)
      · exact .inl hupward
      · rcases List.mem_cons.1 hfile with rfl | hfile
        · obtain ⟨node, hat⟩ := hreached other hprefix hne
          rw [at?_of_lookup_eq_none hlookup] at hat
          simpa only [List.any_eq_true, List.isPrefixOf_iff_prefix] using
            (Option.ite_none_right_eq_some.1 hat).1
        · exact .inr ⟨file, (List.mem_filter.1 hfile).1, hprefix⟩
    · rintro (hupward | ⟨file, hfile, hprefix⟩)
      · exact .inl hupward
      · by_cases hnames : file.1 = location
        · exact .inr ⟨(location, content), List.mem_cons_self, hnames ▸ hprefix⟩
        · exact .inr ⟨file, List.mem_cons_of_mem _
            (List.mem_filter.2 ⟨hfile, bne_iff_ne.2 hnames⟩), hprefix⟩

theorem write_eq_ok_iff :
    d.write path content = .ok d' ↔ ∃ location, d.locate path = .ok location ∧
      d.at? location ≠ some .directory ∧ Path.namesDirectory path = false ∧
        d' = d.put location content := by
  unfold write
  cases d.locate path with
  | error e => exact iff_of_false nofun nofun
  | ok location =>
    simp only [bind, Except.bind, pure, Except.pure, throw, throwThe, MonadExceptOf.throw,
      Except.ok.injEq, exists_eq_left']
    split_ifs with hrefused
    · refine iff_of_false nofun fun h => ?_
      rcases hrefused with hat | hnames
      · exact h.1 hat
      · rw [h.2.1] at hnames
        cases hnames
    · rw [not_or, Bool.not_eq_true] at hrefused
      rw [Except.ok.injEq, and_iff_right hrefused.1, and_iff_right hrefused.2, eq_comm]

/-- The second directory holds the file where the path leads to, and is the first one elsewhere. -/
structure StoredAt (d d' : Directory) (path : String) (content : Bytes) : Prop where
  stored : d'.read path = .ok (.file content)
  places : ∀ location, d.locate path ≠ .ok location → d'.at? location = d.at? location
  files : ∀ other, d.locate other ≠ d.locate path → ∀ held,
    d'.read other = .ok (.file held) ↔ d.read other = .ok (.file held)

theorem read_eq_ok_file_iff :
    d.read path = .ok (.file content) ↔ ∃ location, d.locate path = .ok location ∧
      d.at? location = some (.file content) ∧ Path.namesDirectory path = false := by
  unfold read
  cases d.locate path with
  | error e => exact iff_of_false nofun nofun
  | ok location =>
    simp only [bind, Except.bind, pure, Except.pure, throw, throwThe, MonadExceptOf.throw,
      Except.ok.injEq, exists_eq_left']
    cases d.at? location with
    | none => simp
    | some node =>
      cases node with
      | directory => simp
      | file held =>
        cases Path.namesDirectory path <;> simp

theorem storedAt_of_write (h : d.write path content = .ok d') : d.StoredAt d' path content := by
  obtain ⟨location, hlocate, hfile, hnames, rfl⟩ := write_eq_ok_iff.1 h
  have hreached := reached_of_locate hlocate
  have hself := at?_put_self d location content
  have hother : ∀ other, other ≠ location → (d.put location content).at? other = d.at? other :=
    fun other hne => at?_put_of_ne hreached hne
  have hback : ∀ other, other ≠ location → d.at? other = (d.put location content).at? other :=
    fun other hne => (hother other hne).symm
  have hfile' : (d.put location content).at? location ≠ some .directory := by
    rw [hself]
    exact nofun
  constructor
  · exact read_eq_ok_file_iff.2 ⟨location, locate_congr hother hfile hlocate, hself, hnames⟩
  · intro place hplace
    refine hother place ?_
    rintro rfl
    exact hplace hlocate
  · intro other hne held
    rw [read_eq_ok_file_iff, read_eq_ok_file_iff]
    constructor
    · rintro ⟨place, hplace, hat, hplain⟩
      have hplace' := locate_congr hback hfile' hplace
      have hapart : place ≠ location := by
        rintro rfl
        exact hne (hplace'.trans hlocate.symm)
      exact ⟨place, hplace', hother place hapart ▸ hat, hplain⟩
    · rintro ⟨place, hplace, hat, hplain⟩
      have hapart : place ≠ location := by
        rintro rfl
        exact hne (hplace.trans hlocate.symm)
      exact ⟨place, locate_congr hother hfile hplace, (hother place hapart).trans hat, hplain⟩

end Directory

end IjvmAsm.CommandLine
