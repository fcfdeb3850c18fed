import IjvmAsm.Proofs.Assembly.Definition

/-!
# Where lines stand

Which block a line stands in, and which blocks have been seen before it, can be told from the texts
of the lines alone.
-/

namespace IjvmAsm.Assembly

/-- A block, as far as the texts of lines tell it. -/
inductive Place
  | outside
  | constants
  | body (closing : Closing) (started : Bool)
  | declarations (closing : Closing)
  /-- A rejected block, which may stand in a body. -/
  | rejected (closing : Closing) (within : Option Closing)

def Place.resumed : Option Closing → Place
  | none => outside
  | some closing => body closing true

def Block.place : Block → Place
  | outside => .outside
  | constants => .constants
  | body m started => .body (bodyClosing m) started
  | declarations m => .declarations (bodyClosing m)
  | rejected closing within => .rejected closing (within.map bodyClosing)

structure Standing where
  constantsClosed : Bool
  mainSeen : Bool
  place : Place

namespace Standing

variable {x : Standing}

def nextOutside (x : Standing) (text : String) : Standing :=
  if text = constantsOpening then
    if x.constantsClosed || x.mainSeen then { x with place := .rejected .constants none }
    else { x with place := .constants }
  else if text = mainOpening then
    if x.mainSeen then { x with place := .rejected .main none }
    else { x with mainSeen := true, place := .body .main false }
  else if (Source.methodLine? text).isSome then
    if x.mainSeen then { x with place := .body .method false }
    else { x with place := .rejected .method none }
  else x

def next (x : Standing) (text : String) : Standing :=
  match x.place with
  | .outside => x.nextOutside text
  | .constants =>
    if text = Closing.constants.text then { x with constantsClosed := true, place := .outside }
    else x
  | .body closing started =>
    if text = closing.text then { x with place := .outside }
    else if text.isEmpty then x
    else if text = declarationsOpening then
      if started then { x with place := .rejected .declarations (some closing) }
      else { x with place := .declarations closing }
    else { x with place := .body closing true }
  | .declarations closing =>
    if text = Closing.declarations.text then { x with place := .body closing true } else x
  | .rejected closing within =>
    if text = closing.text then { x with place := .resumed within } else x

end Standing

namespace Progress

variable {s : Setup} {a a' : Progress} {line : Source.Line}

def standing (a : Progress) : Standing := ⟨a.constantsClosed, a.mainSeen, a.block.place⟩

theorem block_of_standing {closed seen : Bool} {place : Place}
    (h : a.standing = ⟨closed, seen, place⟩) :
    a.constantsClosed = closed ∧ a.mainSeen = seen ∧ a.block.place = place := by
  cases h
  exact ⟨rfl, rfl, rfl⟩

theorem outside_of_place (h : a.block.place = .outside) : a.block = .outside := by
  cases hblock : a.block with
  | outside => rfl
  | _ =>
    rw [hblock] at h
    cases h

def lineNote (s : Setup) (line : Source.Line) : Event :=
  .remark .trace s!"{s.file}:{line.number} > {line.text}"

theorem standing_openConstants (a : Progress) (s : Setup) (n : Nat) :
    (a.openConstants s n).standing = a.standing.nextOutside constantsOpening := by
  obtain ⟨program, closed, seen, block, journal⟩ := a
  cases closed <;> cases seen <;> rfl

theorem standing_openMain (a : Progress) (s : Setup) (n : Nat) :
    (a.openMain s n).standing = a.standing.nextOutside mainOpening := by
  obtain ⟨program, closed, seen, block, journal⟩ := a
  cases seen <;> rfl

theorem standing_openMethod {n : Nat} {declaration text : String}
    (htext : Source.methodLine? text = some declaration)
    (h : a.openMethod s n declaration = .ok a') : a'.standing = a.standing.nextOutside text := by
  have hne : text ≠ constantsOpening ∧ text ≠ mainOpening := by
    constructor
    all_goals
      rintro rfl
      cases htext
  have hisSome : (Source.methodLine? text).isSome = true := by rw [htext]; rfl
  obtain ⟨program, closed, seen, block, journal⟩ := a
  unfold openMethod at h
  cases seen with
  | false =>
    cases h
    simp only [Standing.nextOutside, hne.1, hne.2, hisSome, ↓reduceIte]
    rfl
  | true =>
    simp only [Bool.not_true, Bool.false_eq_true, ↓reduceIte] at h
    cases hparse : Source.MethodHeader.parse declaration with
    | error cause =>
      rw [hparse] at h
      cases h
    | ok header =>
      rw [hparse] at h
      cases h
      have hclosing : Block.bodyClosing (.named header.name header.parameters n) = .method := by
        rw [Method.named, Method.build, foldl_addVariable]
        rfl
      simp only [Standing.nextOutside, hne.1, hne.2, hisSome, ↓reduceIte, standing]
      simp only [enter, Block.place, hclosing]

theorem standing_outsideLine (h : a.outsideLine s line = .ok a') :
    a'.standing = a.standing.nextOutside line.text := by
  unfold outsideLine at h
  dsimp only at h
  split_ifs at h with hempty hconstants hmain
  · cases h
    rw [String.isEmpty_iff.1 hempty]
    rfl
  · cases h
    rw [standing_openConstants, hconstants]
    rfl
  · cases h
    rw [standing_openMain, hmain]
    rfl
  · cases hmethod : Source.methodLine? line.text with
    | none =>
      rw [hmethod] at h
      cases h
      simp only [Standing.nextOutside, hconstants, hmain, hmethod, ↓reduceIte]
      rfl
    | some declaration =>
      rw [hmethod] at h
      have hopen := standing_openMethod hmethod h
      exact hopen

theorem standing_constantLine (a : Progress) (s : Setup) (line : Source.Line) :
    (a.constantLine s line).standing = a.standing := by
  unfold constantLine
  split
  next name literal more _ => cases readConstant a.program name literal line.number <;> rfl
  next => rfl

theorem standing_bodyLine (hsolid : Text.StartsSolid line.text.toList) {m : Method} {started : Bool}
    (hblock : a.block = .body m started) :
    (({ a with block := .outside } : Progress).bodyLine s m started line).standing =
      a.standing.next line.text := by
  have hclosing : ∀ m', m'.isEntry = m.isEntry → Block.bodyClosing m' = Block.bodyClosing m := by
    intro m' hentry
    rw [Block.bodyClosing, hentry, Block.bodyClosing]
  have hplace : a.standing.place = .body (Block.bodyClosing m) started := by
    rw [standing, hblock, Block.place]
  unfold bodyLine
  simp only [Standing.next, hplace]
  split_ifs
  · rfl
  · simp only [standing, hblock]
  · rfl
  · rfl
  · have hgrows := grows_statement (s := s) (m := m) (p := a.program) line.number hsolid
    simp only [standing, enter, Block.place, hclosing _ hgrows.isEntry]

theorem standing_declarationsLine {m : Method} (hblock : a.block = .declarations m) :
    (({ a with block := .outside } : Progress).declarationsLine s m line).standing =
      a.standing.next line.text := by
  have hplace : a.standing.place = .declarations (Block.bodyClosing m) := by
    rw [standing, hblock, Block.place]
  unfold declarationsLine
  simp only [Standing.next, hplace]
  split_ifs
  · rfl
  · have hgrows := Changes.grows (changes_declareAll s a.program line.number m
      ((Text.words line.text.toList).map String.ofList))
    simp only [standing, enter, Block.place, hblock, Block.bodyClosing, hgrows.isEntry]

theorem standing_rejectedLine {closing : Closing} {within : Option Method}
    (hblock : a.block = .rejected closing within) :
    (({ a with block := .outside } : Progress).rejectedLine s closing within line).standing =
      a.standing.next line.text := by
  have hplace : a.standing.place = .rejected closing (within.map Block.bodyClosing) := by
    rw [standing, hblock, Block.place]
  unfold rejectedLine
  simp only [Standing.next, hplace]
  split_ifs
  · cases within <;> rfl
  · simp only [standing, enter, hblock]

/-- Every step goes where the text of its line says. -/
theorem standing_step (hsolid : Text.StartsSolid line.text.toList) (h : a.step s line = .ok a') :
    a'.standing = a.standing.next line.text := by
  unfold step at h
  dsimp only at h
  cases hblock : a.block with
  | outside =>
    rw [hblock] at h
    have hplace : a.standing.place = .outside := by rw [standing, hblock, Block.place]
    rw [standing_outsideLine h, Standing.next, hplace]
    simp only [standing, hblock]
  | constants =>
    rw [hblock] at h
    have hplace : a.standing.place = .constants := by rw [standing, hblock, Block.place]
    simp only [Standing.next, hplace]
    dsimp only at h
    split_ifs at h ⊢ <;> cases h
    · rfl
    · simp only [standing, hblock]
    · rw [standing_constantLine]
      simp only [standing, hblock]
  | body m started =>
    rw [hblock] at h
    cases h
    exact standing_bodyLine hsolid hblock
  | declarations m =>
    rw [hblock] at h
    cases h
    exact standing_declarationsLine hblock
  | rejected closing within =>
    rw [hblock] at h
    cases h
    exact standing_rejectedLine hblock

/-- So a run stands where the texts of its lines say. -/
theorem standing_readLines {lines : List Source.Line}
    (hsolid : ∀ line ∈ lines, Text.StartsSolid line.text.toList)
    (h : readLines s a lines = .ok a') :
    a'.standing = (lines.map Source.Line.text).foldl Standing.next a.standing := by
  induction lines generalizing a with
  | nil =>
    cases h
    rfl
  | cons line rest ih =>
    obtain ⟨hline, hrest⟩ := List.forall_mem_cons.1 hsolid
    obtain ⟨b, hstep, hread⟩ := readLines_cons_eq_ok.1 h
    rw [ih hrest hread, standing_step hline hstep]
    rfl

end Progress

end IjvmAsm.Assembly
