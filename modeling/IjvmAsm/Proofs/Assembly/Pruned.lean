import IjvmAsm.Proofs.Assembly.Standing
import IjvmAsm.Proofs.Source.Rows

/-!
# Sources without their rejected blocks

A block in a place where it may not be is rejected from its opening line through the line that
closes it. Which blocks of a source are rejected can be told from the texts of its lines; the lines
that remain are those of another source.
-/

namespace IjvmAsm.Assembly

def enclosed (opening : String) (inside : List String) (closing : Closing) : List String :=
  opening :: (inside ++ [closing.text])

/-- The lines of a body with and without the blocks of variables that are rejected in it, and the
problems for which they are: only the first thing in a body can be a block of variables. -/
inductive PrunedBody (closing : Closing) : Bool → List String → List String → List Problem → Prop
  | nil (started : Bool) : PrunedBody closing started [] [] []
  | blank {started : Bool} {texts texts' : List String} {problems : List Problem}
      (rest : PrunedBody closing started texts texts' problems) :
    PrunedBody closing started ("" :: texts) ("" :: texts') problems
  | statement {started : Bool} {text : String} {texts texts' : List String}
      {problems : List Problem} (nonempty : text ≠ "") (open' : text ≠ closing.text)
      (plain : text ≠ declarationsOpening) (rest : PrunedBody closing true texts texts' problems) :
    PrunedBody closing started (text :: texts) (text :: texts') problems
  | declarations {inside texts texts' : List String} {problems : List Problem}
      (unclosed : Closing.declarations.text ∉ inside)
      (rest : PrunedBody closing true texts texts' problems) :
    PrunedBody closing false (enclosed declarationsOpening inside .declarations ++ texts)
      (enclosed declarationsOpening inside .declarations ++ texts') problems
  | lateVariables {inside texts texts' : List String} {problems : List Problem}
      (unclosed : Closing.declarations.text ∉ inside)
      (rest : PrunedBody closing true texts texts' problems) :
    PrunedBody closing true (enclosed declarationsOpening inside .declarations ++ texts) texts'
      (.lateVariables :: problems)

/-- The lines of a source with and without its rejected blocks, and the problems for which they are
rejected, given whether a block of constants has been closed before and whether there has been a
main block. -/
inductive Pruned : Bool → Bool → List String → List String → List Problem → Prop
  | nil (closed seen : Bool) : Pruned closed seen [] [] []
  /-- A line that opens no block. -/
  | stray {closed seen : Bool} {text : String} {texts texts' : List String}
      {problems : List Problem} (constants : text ≠ constantsOpening) (main : text ≠ mainOpening)
      (method : Source.methodLine? text = none) (rest : Pruned closed seen texts texts' problems) :
    Pruned closed seen (text :: texts) (text :: texts') problems
  | constants {inside texts texts' : List String} {problems : List Problem}
      (unclosed : Closing.constants.text ∉ inside)
      (rest : Pruned true false texts texts' problems) :
    Pruned false false (enclosed constantsOpening inside .constants ++ texts)
      (enclosed constantsOpening inside .constants ++ texts') problems
  | secondConstants {seen : Bool} {inside texts texts' : List String} {problems : List Problem}
      (unclosed : Closing.constants.text ∉ inside) (rest : Pruned true seen texts texts' problems) :
    Pruned true seen (enclosed constantsOpening inside .constants ++ texts) texts'
      (.secondConstants :: problems)
  | lateConstants {inside texts texts' : List String} {problems : List Problem}
      (unclosed : Closing.constants.text ∉ inside)
      (rest : Pruned false true texts texts' problems) :
    Pruned false true (enclosed constantsOpening inside .constants ++ texts) texts'
      (.lateConstants :: problems)
  | main {closed : Bool} {body body' texts texts' : List String} {problems more : List Problem}
      (within : PrunedBody .main false body body' problems)
      (rest : Pruned closed true texts texts' more) :
    Pruned closed false (enclosed mainOpening body .main ++ texts)
      (enclosed mainOpening body' .main ++ texts') (problems ++ more)
  | secondMain {closed : Bool} {inside texts texts' : List String} {problems : List Problem}
      (unclosed : Closing.main.text ∉ inside) (rest : Pruned closed true texts texts' problems) :
    Pruned closed true (enclosed mainOpening inside .main ++ texts) texts'
      (.secondMain :: problems)
  | method {closed : Bool} {header declaration : String} {body body' texts texts' : List String}
      {problems more : List Problem} (opens : Source.methodLine? header = some declaration)
      (within : PrunedBody .method false body body' problems)
      (rest : Pruned closed true texts texts' more) :
    Pruned closed true (enclosed header body .method ++ texts)
      (enclosed header body' .method ++ texts') (problems ++ more)
  | methodBeforeMain {closed : Bool} {header declaration : String}
      {inside texts texts' : List String} {problems : List Problem}
      (opens : Source.methodLine? header = some declaration)
      (unclosed : Closing.method.text ∉ inside) (rest : Pruned closed false texts texts' problems) :
    Pruned closed false (enclosed header inside .method ++ texts) texts'
      (.methodBeforeMain :: problems)

namespace PrunedBody

variable {closing : Closing} {started : Bool} {texts texts' : List String} {problems : List Problem}

theorem sublist (h : PrunedBody closing started texts texts' problems) : texts'.Sublist texts := by
  induction h with
  | nil => exact .slnil
  | blank _ ih | statement _ _ _ _ ih => exact ih.cons_cons _
  | declarations _ _ ih => exact (List.Sublist.refl _).append ih
  | lateVariables _ _ ih => exact List.sublist_append_of_sublist_right ih

theorem severity (h : PrunedBody closing started texts texts' problems) :
    ∀ problem ∈ problems, problem.severity = .error := by
  induction h with
  | nil => exact nofun
  | blank _ ih | statement _ _ _ _ ih | declarations _ _ ih => exact ih
  | lateVariables _ _ ih => exact List.forall_mem_cons.2 ⟨rfl, ih⟩

end PrunedBody

namespace Pruned

variable {closed seen : Bool} {texts texts' : List String} {problems : List Problem}

/-- Nothing but whole lines is left out. -/
theorem sublist (h : Pruned closed seen texts texts' problems) : texts'.Sublist texts := by
  have henclosed : ∀ {opening : String} {body body' : List String} {closing : Closing},
      body'.Sublist body →
        (enclosed opening body' closing).Sublist (enclosed opening body closing) :=
    fun hbody => (hbody.append (List.Sublist.refl _)).cons_cons _
  induction h with
  | nil => exact .slnil
  | stray _ _ _ _ ih => exact ih.cons_cons _
  | constants _ _ ih => exact (List.Sublist.refl _).append ih
  | main within _ ih | method _ within _ ih => exact (henclosed within.sublist).append ih
  | secondConstants _ _ ih | lateConstants _ _ ih | secondMain _ _ ih | methodBeforeMain _ _ _ ih =>
    exact List.sublist_append_of_sublist_right ih

/-- Blocks are rejected for errors. -/
theorem severity (h : Pruned closed seen texts texts' problems) :
    ∀ problem ∈ problems, problem.severity = .error := by
  induction h with
  | nil => exact nofun
  | stray _ _ _ _ ih | constants _ _ ih => exact ih
  | main within _ ih | method _ within _ ih => exact List.forall_mem_append.2 ⟨within.severity, ih⟩
  | secondConstants _ _ ih | lateConstants _ _ ih | secondMain _ _ ih | methodBeforeMain _ _ _ ih =>
    exact List.forall_mem_cons.2 ⟨rfl, ih⟩

end Pruned

namespace Standing

variable {x y z : Standing} {closed seen started : Bool} {closing : Closing} {opening text : String}
  {inside texts texts' : List String} {problems : List Problem}

/-- From `x` a block is opened that leads to `z`, whatever stands in it. -/
structure Encloses (x : Standing) (opening : String) (closing : Closing) (z : Standing) : Prop where
  inner : (x.next opening).place ≠ .outside
  stays : ∀ text, text ≠ closing.text → (x.next opening).next text = x.next opening
  closes : (x.next opening).next closing.text = z

theorem enclosed_append (opening : String) (inside : List String) (closing : Closing)
    (rest : List String) :
    opening :: (inside ++ closing.text :: rest) = enclosed opening inside closing ++ rest := by
  rw [enclosed, List.cons_append, List.append_assoc, List.singleton_append]

theorem length_lt_of_eq_enclosed {rest : List String}
    (h : texts = enclosed opening inside closing ++ rest) : rest.length < texts.length := by
  rw [h, enclosed, List.length_append, List.length_cons]
  omega

namespace Encloses

theorem foldl_stays (h : Encloses x opening closing z) (hinside : closing.text ∉ inside) :
    inside.foldl next (x.next opening) = x.next opening := by
  induction inside with
  | nil => rfl
  | cons text rest ih =>
    rw [List.mem_cons, not_or] at hinside
    rw [List.foldl_cons, h.stays text (Ne.symm hinside.1), ih hinside.2]

theorem foldl (h : Encloses x opening closing z) (hinside : closing.text ∉ inside) :
    (enclosed opening inside closing).foldl next x = z := by
  rw [enclosed, List.foldl_cons, List.foldl_append, h.foldl_stays hinside]
  exact h.closes

/-- Lines that lead out of the block begin with all of it. -/
theorem exists_rest (h : Encloses x opening closing z)
    (hend : ((opening :: texts).foldl next x).place = .outside) :
    ∃ inside rest, closing.text ∉ inside ∧
      opening :: texts = enclosed opening inside closing ++ rest ∧
      rest.length < (opening :: texts).length ∧ (rest.foldl next z).place = .outside := by
  have hmem : closing.text ∈ texts := by
    by_contra hmem
    rw [List.foldl_cons, h.foldl_stays hmem] at hend
    exact h.inner hend
  obtain ⟨inside, rest, rfl, hinside⟩ := List.eq_append_cons_of_mem hmem
  have hsplit := enclosed_append opening inside closing rest
  refine ⟨inside, rest, hinside, hsplit, length_lt_of_eq_enclosed hsplit, ?_⟩
  rw [hsplit, List.foldl_append, h.foldl hinside] at hend
  exact hend

end Encloses

theorem encloses_of_rejected (within : Option Closing)
    (h : x.next opening = { x with place := .rejected closing within }) :
    Encloses x opening closing { x with place := .resumed within } := by
  refine ⟨?_, fun text htext => ?_, ?_⟩
  · rw [h]
    exact nofun
  · rw [h]
    exact if_neg htext
  · rw [h]
    exact if_pos rfl

theorem encloses_constants :
    Encloses ⟨false, false, .outside⟩ constantsOpening .constants ⟨true, false, .outside⟩ :=
  ⟨nofun, fun _ htext => if_neg htext, rfl⟩

theorem encloses_declarations : Encloses ⟨closed, seen, .body closing false⟩ declarationsOpening
    .declarations ⟨closed, seen, .body closing true⟩ := by
  have hopening : next ⟨closed, seen, .body closing false⟩ declarationsOpening =
      ⟨closed, seen, .declarations closing⟩ := by
    cases closing <;> rfl
  refine ⟨?_, fun text htext => ?_, ?_⟩
  · rw [hopening]
    exact nofun
  · rw [hopening]
    exact if_neg htext
  · rw [hopening]
    rfl

theorem encloses_lateVariables : Encloses ⟨closed, seen, .body closing true⟩ declarationsOpening
    .declarations ⟨closed, seen, .body closing true⟩ :=
  encloses_of_rejected (some closing) (by cases closing <;> rfl)

theorem encloses_secondConstants : Encloses ⟨true, seen, .outside⟩ constantsOpening .constants
    ⟨true, seen, .outside⟩ := encloses_of_rejected none rfl

theorem encloses_lateConstants : Encloses ⟨false, true, .outside⟩ constantsOpening .constants
    ⟨false, true, .outside⟩ := encloses_of_rejected none rfl

theorem encloses_secondMain : Encloses ⟨closed, true, .outside⟩ mainOpening .main
    ⟨closed, true, .outside⟩ := encloses_of_rejected none rfl

theorem next_header {header declaration : String}
    (h : Source.methodLine? header = some declaration) :
    next ⟨closed, seen, .outside⟩ header =
      if seen then ⟨closed, seen, .body .method false⟩
      else ⟨closed, seen, .rejected .method none⟩ := by
  have hne : header ≠ constantsOpening ∧ header ≠ mainOpening := by
    constructor
    all_goals
      rintro rfl
      cases h
  simp only [next, nextOutside, hne.1, hne.2, h, Option.isSome_some, ↓reduceIte]

theorem encloses_methodBeforeMain {header declaration : String}
    (h : Source.methodLine? header = some declaration) :
    Encloses ⟨closed, false, .outside⟩ header .method ⟨closed, false, .outside⟩ :=
  encloses_of_rejected none (next_header h)

theorem next_stray (hconstants : text ≠ constantsOpening) (hmain : text ≠ mainOpening)
    (hmethod : Source.methodLine? text = none) :
    next ⟨closed, seen, .outside⟩ text = ⟨closed, seen, .outside⟩ := by
  simp only [next, nextOutside, hconstants, hmain, hmethod, Option.isSome_none, Bool.false_eq_true,
    ↓reduceIte]

theorem next_blank : next ⟨closed, seen, .body closing started⟩ "" =
    ⟨closed, seen, .body closing started⟩ := by
  cases closing <;> rfl

theorem next_statement (hne : text ≠ "") (hclosing : text ≠ closing.text)
    (hopening : text ≠ declarationsOpening) : next ⟨closed, seen, .body closing started⟩ text =
      ⟨closed, seen, .body closing true⟩ := by
  have hempty : ¬ text.isEmpty = true := fun h => hne (String.isEmpty_iff.1 h)
  simp only [next, hclosing, hempty, hopening, ↓reduceIte, Bool.false_eq_true]

/-- The lines of a body stay in it up to the line that closes it. -/
theorem foldl_next_body (h : PrunedBody closing started texts texts' problems) :
    (texts ++ [closing.text]).foldl next ⟨closed, seen, .body closing started⟩ =
      ⟨closed, seen, .outside⟩ := by
  induction h with
  | nil started => exact if_pos rfl
  | blank _ ih =>
    rw [List.cons_append, List.foldl_cons, next_blank]
    exact ih
  | statement hne hclosing hopening _ ih =>
    rw [List.cons_append, List.foldl_cons, next_statement hne hclosing hopening]
    exact ih
  | declarations hinside _ ih =>
    rw [List.append_assoc, List.foldl_append, encloses_declarations.foldl hinside]
    exact ih
  | lateVariables hinside _ ih =>
    rw [List.append_assoc, List.foldl_append, encloses_lateVariables.foldl hinside]
    exact ih

/-- A body that is closed begins with what remains of it and what does not. -/
theorem exists_prunedBody
    (h : (texts.foldl next ⟨closed, seen, .body closing started⟩).place = .outside) :
    ∃ body body' problems rest, texts = body ++ closing.text :: rest ∧
      PrunedBody closing started body body' problems := by
  -- A block of variables is passed as a whole, so the induction is on the number of lines.
  induction hn : texts.length using Nat.strong_induction_on generalizing texts started with
  | _ n ih =>
    subst hn
    cases texts with
    | nil => cases h
    | cons text rest =>
      have hshorter : rest.length < (text :: rest).length := Nat.lt_succ_self _
      by_cases hclosing : text = closing.text
      · subst hclosing
        exact ⟨[], [], [], rest, rfl, .nil started⟩
      by_cases hempty : text = ""
      · subst hempty
        rw [List.foldl_cons, next_blank] at h
        obtain ⟨body, body', problems, more, rfl, hbody⟩ := ih _ hshorter h rfl
        exact ⟨"" :: body, "" :: body', problems, more, rfl, .blank hbody⟩
      by_cases hopening : text = declarationsOpening
      · subst hopening
        cases started with
        | false =>
          obtain ⟨inside, after, hinside, hsplit, hshort, hend⟩ :=
            encloses_declarations.exists_rest h
          obtain ⟨body, body', problems, more, rfl, hbody⟩ := ih _ hshort hend rfl
          exact ⟨_, _, problems, more, by rw [hsplit, List.append_assoc],
            .declarations hinside hbody⟩
        | true =>
          obtain ⟨inside, after, hinside, hsplit, hshort, hend⟩ :=
            encloses_lateVariables.exists_rest h
          obtain ⟨body, body', problems, more, rfl, hbody⟩ := ih _ hshort hend rfl
          exact ⟨_, body', _, more, by rw [hsplit, List.append_assoc], .lateVariables hinside hbody⟩
      · rw [List.foldl_cons, next_statement hempty hclosing hopening] at h
        obtain ⟨body, body', problems, more, rfl, hbody⟩ := ih _ hshorter h rfl
        exact ⟨text :: body, text :: body', problems, more, rfl,
          .statement hempty hclosing hopening hbody⟩

theorem exists_enclosed_body (hopening : x.next opening = ⟨closed, seen, .body closing false⟩)
    (hend : ((opening :: texts).foldl next x).place = .outside) :
    ∃ body body' problems rest, PrunedBody closing false body body' problems ∧
      opening :: texts = enclosed opening body closing ++ rest ∧
      rest.length < (opening :: texts).length ∧
      (rest.foldl next ⟨closed, seen, .outside⟩).place = .outside := by
  rw [List.foldl_cons, hopening] at hend
  obtain ⟨body, body', problems, rest, rfl, hbody⟩ := exists_prunedBody hend
  have hsplit := enclosed_append opening body closing rest
  refine ⟨body, body', problems, rest, hbody, hsplit, length_lt_of_eq_enclosed hsplit, ?_⟩
  rw [List.append_cons, List.foldl_append, foldl_next_body hbody] at hend
  exact hend

/-- Lines that end outside of all blocks are lines that remain and blocks that are rejected. -/
theorem exists_pruned (h : (texts.foldl next ⟨closed, seen, .outside⟩).place = .outside) :
    ∃ texts' problems, Pruned closed seen texts texts' problems := by
  induction hn : texts.length using Nat.strong_induction_on generalizing texts closed seen with
  | _ n ih =>
    subst hn
    cases texts with
    | nil => exact ⟨[], [], .nil closed seen⟩
    | cons text rest =>
      by_cases hconstants : text = constantsOpening
      · subst hconstants
        cases closed with
        | true =>
          obtain ⟨inside, after, hinside, hsplit, hshorter, hend⟩ :=
            encloses_secondConstants.exists_rest h
          obtain ⟨texts', problems, hpruned⟩ := ih _ hshorter hend rfl
          rw [hsplit]
          exact ⟨texts', _, .secondConstants hinside hpruned⟩
        | false =>
          cases seen with
          | true =>
            obtain ⟨inside, after, hinside, hsplit, hshorter, hend⟩ :=
              encloses_lateConstants.exists_rest h
            obtain ⟨texts', problems, hpruned⟩ := ih _ hshorter hend rfl
            rw [hsplit]
            exact ⟨texts', _, .lateConstants hinside hpruned⟩
          | false =>
            obtain ⟨inside, after, hinside, hsplit, hshorter, hend⟩ :=
              encloses_constants.exists_rest h
            obtain ⟨texts', problems, hpruned⟩ := ih _ hshorter hend rfl
            rw [hsplit]
            exact ⟨_, problems, .constants hinside hpruned⟩
      by_cases hmain : text = mainOpening
      · subst hmain
        cases seen with
        | true =>
          obtain ⟨inside, after, hinside, hsplit, hshorter, hend⟩ :=
            encloses_secondMain.exists_rest h
          obtain ⟨texts', problems, hpruned⟩ := ih _ hshorter hend rfl
          rw [hsplit]
          exact ⟨texts', _, .secondMain hinside hpruned⟩
        | false =>
          have hopening : next ⟨closed, false, .outside⟩ mainOpening =
              ⟨closed, true, .body .main false⟩ := rfl
          obtain ⟨body, body', problems, after, hbody, hsplit, hshorter, hend⟩ :=
            exists_enclosed_body hopening h
          obtain ⟨texts', more, hpruned⟩ := ih _ hshorter hend rfl
          rw [hsplit]
          exact ⟨_, _, .main hbody hpruned⟩
      cases hmethod : Source.methodLine? text with
      | none =>
        rw [List.foldl_cons, next_stray hconstants hmain hmethod] at h
        obtain ⟨texts', problems, hpruned⟩ := ih _ (Nat.lt_succ_self _) h rfl
        exact ⟨text :: texts', problems, .stray hconstants hmain hmethod hpruned⟩
      | some declaration =>
        cases seen with
        | true =>
          obtain ⟨body, body', problems, after, hbody, hsplit, hshorter, hend⟩ :=
            exists_enclosed_body (next_header hmethod) h
          obtain ⟨texts', more, hpruned⟩ := ih _ hshorter hend rfl
          rw [hsplit]
          exact ⟨_, _, .method hmethod hbody hpruned⟩
        | false =>
          obtain ⟨inside, after, hinside, hsplit, hshorter, hend⟩ :=
            (encloses_methodBeforeMain hmethod).exists_rest h
          obtain ⟨texts', problems, hpruned⟩ := ih _ hshorter hend rfl
          rw [hsplit]
          exact ⟨texts', _, .methodBeforeMain hmethod hinside hpruned⟩

end Standing

open Standing

/-- The second source is the first without its rejected blocks, which are rejected for the
problems. -/
structure Without (source source' : Bytes) (problems : List Problem) : Prop where
  intact : (Text.Lines.ofBytes source').intact = true
  sublist : (Text.Lines.ofBytes source').readable.Sublist (Text.Lines.ofBytes source).readable
  pruned : Pruned false false ((Source.Lines.ofBytes source).lines.map Source.Line.text)
    ((Source.Lines.ofBytes source').lines.map Source.Line.text) problems

theorem text_lines (source : Bytes) : (Source.Lines.ofBytes source).lines.map Source.Line.text =
    (Text.Lines.ofBytes source).readable.map Source.Line.clean := Source.text_numbered 0 _

/-- The lines that remain are those of a source. -/
theorem exists_without {source : Bytes} (h : (((Source.Lines.ofBytes source).lines.map
      Source.Line.text).foldl next ⟨false, false, .outside⟩).place = .outside) :
    ∃ source' problems, Without source source' problems := by
  obtain ⟨texts', problems, hpruned⟩ := exists_pruned h
  have hsublist := hpruned.sublist
  rw [text_lines] at hsublist
  obtain ⟨kept, hkept, rfl⟩ := List.sublist_map_iff.1 hsublist
  obtain ⟨source', hsource'⟩ := Text.exists_ofBytes fun text htext =>
    Text.feed_notMem_readable (hkept.subset htext)
  refine ⟨source', problems, by rw [hsource'], by rwa [hsource'], ?_⟩
  rw [text_lines source', hsource']
  exact hpruned

end IjvmAsm.Assembly
