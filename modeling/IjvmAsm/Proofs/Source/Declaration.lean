import IjvmAsm.Proofs.Correspondence
import IjvmAsm.Proofs.Source.Sentence
import IjvmAsm.Proofs.Text.Trimming
import IjvmAsm.Source.MethodHeader

/-!
# The grammar of declarations

A declaration is a name and, between parentheses, parameters that are parted by commas, with blanks
wherever a name or a mark ends. A text that is none has the first fault in a fixed order: no
parenthesis opens, none closes, something stands behind it, or there is no name.
-/

namespace IjvmAsm.Source

/-- The parts of a text before its first opening parenthesis, up to the first closing one behind
it, and behind that. -/
structure Parentheses (cs name inner rest : List Char) : Prop where
  text : cs = name ++ '(' :: (inner ++ ')' :: rest)
  opening : '(' ∉ name
  closing : ')' ∉ inner

/-- A text between parentheses and the parameters that it lists. -/
inductive Lists : List Char → List String → Prop
  | none {inner : List Char} (blank : ∀ c ∈ inner, Text.isBlank c = true) : Lists inner []
  | some {pieces : List (List Char)} {parameters : List String}
      (solid : ∃ c ∈ [','].intercalate pieces, Text.isBlank c = false)
      (unsplit : ∀ piece ∈ pieces, ',' ∉ piece)
      (trimmed : List.Forall₂ Text.Trimmed pieces parameters) :
      Lists ([','].intercalate pieces) parameters

inductive Parses (cs : List Char) : Except HeaderError MethodHeader → Prop
  | header {n inner rest : List Char} {name : String} {parameters : List String}
      (parentheses : Parentheses cs n inner rest) (solid : ∃ c ∈ n, Text.isBlank c = false)
      (blank : ∀ c ∈ rest, Text.isBlank c = true) (trimmed : Text.Trimmed n name)
      (lists : Lists inner parameters) : Parses cs (.ok ⟨name, parameters⟩)
  | missingOpening (none : '(' ∉ cs) : Parses cs (.error .missingOpening)
  | missingClosing {n rest : List Char} (text : cs = n ++ '(' :: rest) (opening : '(' ∉ n)
      (none : ')' ∉ rest) : Parses cs (.error .missingClosing)
  | trailing {n inner rest : List Char} {text : String} (parentheses : Parentheses cs n inner rest)
      (solid : ∃ c ∈ rest, Text.isBlank c = false) (trimmed : Text.Trimmed rest text) :
      Parses cs (.error (.trailing text))
  | missingName {n inner rest : List Char} (parentheses : Parentheses cs n inner rest)
      (blank : ∀ c ∈ rest, Text.isBlank c = true) (unnamed : ∀ c ∈ n, Text.isBlank c = true) :
      Parses cs (.error .missingName)

variable {cs n inner rest : List Char} {parameters : List String}

theorem Lists.parameterList_eq (h : Lists inner parameters) : parameterList inner = parameters := by
  cases h with
  | none blank => rw [parameterList, if_pos (Text.isEmpty_trimBlanks_iff.2 blank)]
  | @some pieces _ solid unsplit trimmed =>
    have hne : pieces ≠ [] := by
      rintro rfl
      obtain ⟨c, hc, _⟩ := solid
      cases hc
    have hempty := Text.isEmpty_trimBlanks_of_solid solid
    rw [parameterList, if_neg (by simp [hempty]), Text.splitAt_intercalate hne unsplit]
    clear solid unsplit hne hempty
    induction trimmed with
    | nil => rfl
    | cons hfirst _ ih => rw [List.map_cons, ih, hfirst.ofList_trimBlanks]

/-- Whatever stands between the parentheses lists some parameters. -/
theorem exists_lists (inner : List Char) : ∃ parameters, Lists inner parameters := by
  by_cases hblank : ∀ c ∈ inner, Text.isBlank c = true
  · exact ⟨[], .none hblank⟩
  · let pieces := Text.splitAt (· == ',') inner
    have hpieces : [','].intercalate pieces = inner := Text.intercalate_splitAt ',' inner
    have hsolid : ∃ c ∈ [','].intercalate pieces, Text.isBlank c = false := by
      rw [hpieces]
      simpa using hblank
    have hunsplit : ∀ piece ∈ pieces, ',' ∉ piece := by
      intro piece hpiece hcomma
      have hfalse := (Text.mem_splitAt hpiece).1 ',' hcomma
      cases hfalse
    have htrimmed : List.Forall₂ Text.Trimmed pieces
        (pieces.map fun piece => String.ofList (Text.trimBlanks piece)) := by
      rw [List.forall₂_map_right_iff, List.forall₂_same]
      exact fun piece _ => Text.trimmed_ofList piece
    rw [← hpieces]
    exact ⟨_, .some hsolid hunsplit htrimmed⟩

/-- Parentheses are found where they are. -/
theorem parse_of_parentheses {declaration : String}
    (h : Parentheses declaration.toList n inner rest) : MethodHeader.parse declaration =
      if !(Text.trimBlanks rest).isEmpty then
        .error (.trailing (String.ofList (Text.trimBlanks rest)))
      else if (Text.trimBlanks n).isEmpty then .error .missingName
      else .ok ⟨String.ofList (Text.trimBlanks n), parameterList inner⟩ := by
  rw [MethodHeader.parse, h.text, Text.cutAt_first h.opening]
  dsimp only
  rw [Text.cutAt_first h.closing]

theorem Parses.parse_eq {declaration : String} {r : Except HeaderError MethodHeader}
    (h : Parses declaration.toList r) : MethodHeader.parse declaration = r := by
  cases h with
  | header parentheses solid blank trimmed lists =>
    have hrest := Text.isEmpty_trimBlanks_iff.2 blank
    have hname := Text.isEmpty_trimBlanks_of_solid solid
    rw [parse_of_parentheses parentheses, if_neg (by simp [hrest]), if_neg (by simp [hname]),
      trimmed.ofList_trimBlanks, lists.parameterList_eq]
  | missingOpening none =>
    rw [MethodHeader.parse, Text.cutAt_of_notMem none]
  | missingClosing text opening none =>
    rw [MethodHeader.parse, text, Text.cutAt_first opening]
    dsimp only
    rw [Text.cutAt_of_notMem none]
  | trailing parentheses solid trimmed =>
    have hrest := Text.isEmpty_trimBlanks_of_solid solid
    rw [parse_of_parentheses parentheses, if_pos (by simp [hrest]), trimmed.ofList_trimBlanks]
  | missingName parentheses blank unnamed =>
    have hrest := Text.isEmpty_trimBlanks_iff.2 blank
    have hname := Text.isEmpty_trimBlanks_iff.2 unnamed
    rw [parse_of_parentheses parentheses, if_neg (by simp [hrest]), if_pos hname]

/-- Every text is a declaration or has a fault. -/
theorem exists_parses (cs : List Char) : ∃ r, Parses cs r := by
  by_cases hopening : '(' ∈ cs
  · obtain ⟨n, behind, rfl, hfirst⟩ := List.eq_append_cons_of_mem hopening
    by_cases hclosing : ')' ∈ behind
    · obtain ⟨inner, rest, rfl, hinner⟩ := List.eq_append_cons_of_mem hclosing
      have hparts : Parentheses (n ++ '(' :: (inner ++ ')' :: rest)) n inner rest :=
        ⟨rfl, hfirst, hinner⟩
      by_cases hrest : ∀ c ∈ rest, Text.isBlank c = true
      · by_cases hname : ∀ c ∈ n, Text.isBlank c = true
        · exact ⟨_, .missingName hparts hrest hname⟩
        · obtain ⟨parameters, hlists⟩ := exists_lists inner
          have hnamed : ∃ c ∈ n, Text.isBlank c = false := by simpa using hname
          exact ⟨_, .header hparts hnamed hrest (Text.trimmed_ofList n) hlists⟩
      · have hsolid : ∃ c ∈ rest, Text.isBlank c = false := by simpa using hrest
        exact ⟨_, .trailing hparts hsolid (Text.trimmed_ofList rest)⟩
    · exact ⟨_, .missingClosing rfl hfirst hclosing⟩
  · exact ⟨_, .missingOpening hopening⟩

/-- A declaration with blanks around the name, the parameters and the marks between them. -/
inductive Spaced (name : String) : List String → List Char → Prop
  | bare {n inner rest : List Char} (named : Text.Padded n name)
      (inside : ∀ c ∈ inner, Text.isBlank c = true) (behind : ∀ c ∈ rest, Text.isBlank c = true) :
      Spaced name [] (n ++ '(' :: (inner ++ ')' :: rest))
  | listed {n rest : List Char} {pieces : List (List Char)} {first : String} {more : List String}
      (named : Text.Padded n name) (padded : List.Forall₂ Text.Padded pieces (first :: more))
      (behind : ∀ c ∈ rest, Text.isBlank c = true) :
      Spaced name (first :: more) (n ++ '(' :: ([','].intercalate pieces ++ ')' :: rest))

namespace Item

variable {text : String} {c : Char}

theorem trimmed (h : Item text) (hpadded : Text.Padded cs text) : Text.Trimmed cs text :=
  ⟨hpadded, h.startsSolid, h.endsSolid⟩

/-- Around an item there is nothing but characters of names and blanks. -/
theorem notMem_padded (h : Item text) (hpadded : Text.Padded cs text)
    (hname : isNameChar c = false) (hblank : Text.isBlank c = false) : c ∉ cs := by
  obtain ⟨front, back, hfront, hback, rfl⟩ := hpadded
  intro hc
  rcases List.mem_append.1 hc with hc | hc
  · rcases List.mem_append.1 hc with hc | hc
    · rw [hfront c hc] at hblank
      cases hblank
    · exact h.notMem hname hc
  · rw [hback c hc] at hblank
    cases hblank

theorem exists_solid (h : Item text) (hpadded : Text.Padded cs text) :
    ∃ c ∈ cs, Text.isBlank c = false := by
  obtain ⟨front, back, _, _, rfl⟩ := hpadded
  obtain ⟨c, more, htext⟩ := List.exists_cons_of_ne_nil h.nonempty
  have hc : c ∈ text.toList := htext ▸ List.mem_cons_self
  exact ⟨c, List.mem_append_left _ (List.mem_append_right _ hc), h.solid c hc⟩

end Item

variable {name : String} {pieces : List (List Char)}

theorem lists_of_padded (hitems : ∀ text ∈ parameters, Item text)
    (h : List.Forall₂ Text.Padded pieces parameters) (hne : pieces ≠ []) :
    Lists ([','].intercalate pieces) parameters := by
  have hpiece : ∀ piece ∈ pieces, ∃ text ∈ parameters, Text.Padded piece text :=
    fun piece hmem => exists_of_mem_left h hmem
  refine .some ?_ ?_ ?_
  · obtain ⟨piece, more, rfl⟩ := List.exists_cons_of_ne_nil hne
    obtain ⟨text, htext, hpadded⟩ := hpiece piece List.mem_cons_self
    obtain ⟨c, hc, hsolid⟩ := (hitems text htext).exists_solid hpadded
    rw [Text.intercalate_cons]
    exact ⟨c, List.mem_append_left _ hc, hsolid⟩
  · intro piece hmem
    obtain ⟨text, htext, hpadded⟩ := hpiece piece hmem
    exact (hitems text htext).notMem_padded hpadded (by decide) (by decide)
  · rw [List.forall₂_iff_zip]
    refine ⟨h.length_eq, fun hmem => ?_⟩
    have hitem := hitems _ (List.of_mem_zip hmem).2
    exact hitem.trimmed (List.forall₂_zip h hmem)

theorem Spaced.parses (h : Spaced name parameters cs) (hname : Item name)
    (hitems : ∀ text ∈ parameters, Item text) : Parses cs (.ok ⟨name, parameters⟩) := by
  cases h with
  | @bare n inner rest named inside behind =>
    have hopening := hname.notMem_padded named (c := '(') (by decide) (by decide)
    have hclosing : ')' ∉ inner := by
      intro hc
      cases inside ')' hc
    exact .header ⟨rfl, hopening, hclosing⟩ (hname.exists_solid named) behind
      (hname.trimmed named) (.none inside)
  | @listed n rest pieces first more named padded behind =>
    have hopening := hname.notMem_padded named (c := '(') (by decide) (by decide)
    have hclosing : ')' ∉ [','].intercalate pieces := by
      rw [Text.mem_intercalate_iff (by decide)]
      rintro ⟨piece, hpiece, hc⟩
      obtain ⟨text, htext, hpadded⟩ := exists_of_mem_left padded hpiece
      exact (hitems text htext).notMem_padded hpadded (by decide) (by decide) hc
    have hne : pieces ≠ [] := by
      rintro rfl
      cases padded
    exact .header ⟨rfl, hopening, hclosing⟩ (hname.exists_solid named) behind
      (hname.trimmed named) (lists_of_padded hitems padded hne)

/-- Parsing follows the grammar: a text is parsed to the one thing that the grammar says. A name
and parameters that are identifiers are read back however they are spaced. -/
theorem parsed_by_grammar (declaration : String) :
    (∀ r, MethodHeader.parse declaration = r ↔ Parses declaration.toList r) ∧
    ∀ name parameters, isIdentifier name = true → (∀ text ∈ parameters, isIdentifier text = true) →
      Spaced name parameters declaration.toList →
        MethodHeader.parse declaration = .ok ⟨name, parameters⟩ := by
  constructor
  · intro r
    constructor
    · rintro rfl
      obtain ⟨r, hr⟩ := exists_parses declaration.toList
      rwa [hr.parse_eq]
    · exact Parses.parse_eq
  · intro name parameters hname hparameters hspaced
    apply Parses.parse_eq
    apply hspaced.parses (item_of_isIdentifier hname)
    exact fun text htext => item_of_isIdentifier (hparameters text htext)

theorem parsed_by_grammar_spaced :
    (isIdentifier "f" = true ∧ (∀ text ∈ ["a", "b"], isIdentifier text = true) ∧
      Spaced "f" ["a", "b"] " f ( a\t,b) ".toList) ∧
    MethodHeader.parse " f ( a\t,b) " = .ok ⟨"f", ["a", "b"]⟩ := by
  have hname : isIdentifier "f" = true := by decide
  have hparameters : ∀ text ∈ ["a", "b"], isIdentifier text = true := by decide
  have hspace : ∀ c ∈ [' '], Text.isBlank c = true := List.forall_mem_singleton.2 rfl
  have htab : ∀ c ∈ ['\t'], Text.isBlank c = true := List.forall_mem_singleton.2 rfl
  have hnamed : Text.Padded [' ', 'f', ' '] "f" := ⟨[' '], [' '], hspace, hspace, rfl⟩
  have hfirst : Text.Padded [' ', 'a', '\t'] "a" := ⟨[' '], ['\t'], hspace, htab, rfl⟩
  have hsecond : Text.Padded ['b'] "b" := ⟨[], [], nofun, nofun, rfl⟩
  have hspaced : Spaced "f" ["a", "b"] " f ( a\t,b) ".toList :=
    .listed hnamed (.cons hfirst (.cons hsecond .nil)) hspace
  exact ⟨⟨hname, hparameters, hspaced⟩, (parsed_by_grammar _).2 _ _ hname hparameters hspaced⟩

end IjvmAsm.Source
