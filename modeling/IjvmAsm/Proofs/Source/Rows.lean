import IjvmAsm.Proofs.Text.Written
import IjvmAsm.Source.Line
import Mathlib.Logic.Relation

/-!
# Rows and their layout

A source that can be decoded consists of rows between line feeds. What a row says stands before its
comment and between its blanks. A change of layout adds rows that say nothing, or to rows what says
nothing, so the source goes on saying the same.
-/

namespace IjvmAsm

namespace Text

variable {α : Type}

theorem splitAt_cons_of_neg {p : α → Bool} {a : α} (h : p a = false) (rest : List α) :
    splitAt p (a :: rest) = (splitAt p rest).modifyHead (a :: ·) := by
  obtain ⟨piece, pieces, hsplit⟩ := List.exists_cons_of_ne_nil (splitAt_ne_nil p rest)
  rw [splitAt, h, hsplit]
  rfl

/-- Elements in front that do not split belong to the first piece. -/
theorem splitAt_append {p : α → Bool} {front : List α} (h : ∀ a ∈ front, p a = false)
    (rest : List α) : splitAt p (front ++ rest) = (splitAt p rest).modifyHead (front ++ ·) := by
  obtain ⟨piece, pieces, hsplit⟩ := List.exists_cons_of_ne_nil (splitAt_ne_nil p rest)
  rw [hsplit, List.modifyHead_cons]
  induction front with
  | nil => exact hsplit
  | cons a front ih =>
    obtain ⟨ha, hfront⟩ := List.forall_mem_cons.1 h
    rw [List.cons_append, splitAt_cons_of_neg ha, ih hfront]
    rfl

def rows (text : String) : List (List Char) := splitAt (· == '\n') text.toList

def rowBytes (row : List Char) : List UInt8 := row.flatMap String.utf8EncodeChar

/-- The bytes of a text are split where the text is. -/
theorem splitAt_encode (text : String) :
    splitAt (· == 0x0A) (Utf8.encode text) = (rows text).map rowBytes := by
  rw [Utf8.encode, rows]
  induction text.toList with
  | nil => rfl
  | cons c rest ih =>
    rw [List.flatMap_cons]
    by_cases hfeed : c = '\n'
    · subst hfeed
      exact congrArg ([] :: ·) ih
    · have hbytes : ∀ b ∈ String.utf8EncodeChar c, (b == 0x0A) = false := by
        intro b hb
        rw [beq_eq_false_iff_ne]
        rintro rfl
        exact hfeed (Char.toNat_inj.1 (Utf8.toNat_of_mem_encodeChar (by decide) hb))
      have hsplit : splitAt (· == '\n') (c :: rest) =
          (splitAt (· == '\n') rest).modifyHead (c :: ·) :=
        splitAt_cons_of_neg (p := (· == '\n')) (beq_eq_false_iff_ne.2 hfeed) rest
      rw [splitAt_append hbytes, hsplit, ih]
      cases splitAt (· == '\n') rest with
      | nil => rfl
      | cons row more =>
        simp only [List.map_cons, List.modifyHead_cons, rowBytes, List.flatMap_cons]

/-- Two texts meet where no comment begins: a comment of the first goes on, or the second has its
own. -/
theorem beforeComment_append {cs ds : List Char} (h : ds.head? ≠ some '/') :
    beforeComment (cs ++ ds) = beforeComment cs ∨
      beforeComment cs = cs ∧ beforeComment (cs ++ ds) = cs ++ beforeComment ds := by
  induction cs with
  | nil => exact .inr ⟨rfl, rfl⟩
  | cons c rest ih =>
    have hhead : (rest ++ ds).head? = some '/' ↔ rest.head? = some '/' := by
      cases rest with
      | nil => exact iff_of_false h nofun
      | cons d rest => exact Iff.rfl
    by_cases hslash : c = '/' ∧ rest.head? = some '/'
    · rw [List.cons_append, beforeComment, beforeComment, if_pos hslash, if_pos (by rwa [hhead])]
      exact .inl rfl
    · rw [List.cons_append, beforeComment, beforeComment, if_neg hslash, if_neg (by rwa [hhead])]
      rcases ih with ih | ⟨hself, ih⟩
      · exact .inl (congrArg (c :: ·) ih)
      · exact .inr ⟨congrArg (c :: ·) hself, congrArg (c :: ·) ih⟩

end Text

namespace Source

open Text

def said (row : List Char) : List Char := trimBlanks (beforeComment row)

def Silent (row : List Char) : Prop := ∀ c ∈ beforeComment row, isBlank c = true

theorem said_of_silent {row : List Char} (h : Silent row) : said row = [] :=
  trimBlanks_of_blank h

/-- What says nothing may be added behind a row, unless it could begin a comment together with
it. -/
theorem said_append {row trail : List Char} (h : Silent trail) (hhead : trail.head? ≠ some '/') :
    said (row ++ trail) = said row := by
  rcases beforeComment_append hhead with heq | ⟨hself, heq⟩
  · rw [said, heq, said]
  · rw [said, heq, trimBlanks_append_right h, said, hself]

def Blanks (cs : List Char) : Prop := ∀ c ∈ cs, isBlank c = true

theorem ne_slash_of_isBlank {c : Char} (h : isBlank c = true) : c ≠ '/' := by
  rintro rfl
  cases h

theorem Blanks.head? {blanks : List Char} (h : Blanks blanks) : blanks.head? ≠ some '/' :=
  fun hslash => ne_slash_of_isBlank (h _ (List.mem_of_head? hslash)) rfl

theorem beforeComment_append_of_blanks {blanks : List Char} (h : Blanks blanks) (cs : List Char) :
    beforeComment (blanks ++ cs) = blanks ++ beforeComment cs := by
  induction blanks with
  | nil => rfl
  | cons c rest ih =>
    obtain ⟨hc, hrest⟩ := List.forall_mem_cons.1 h
    rw [List.cons_append, beforeComment, if_neg fun hslash => ne_slash_of_isBlank hc hslash.1,
      ih hrest, List.cons_append]

theorem Blanks.silent {blanks : List Char} (h : Blanks blanks) : Silent blanks := by
  intro c hc
  have hself := beforeComment_append_of_blanks h []
  rw [List.append_nil] at hself
  rw [hself, beforeComment, List.append_nil] at hc
  exact h c hc

theorem Blanks.silent_append_comment {blanks : List Char} (h : Blanks blanks)
    (comment : List Char) : Silent (blanks ++ '/' :: '/' :: comment) := by
  intro c hc
  rw [beforeComment_append_of_blanks h, beforeComment, if_pos ⟨rfl, rfl⟩, List.append_nil] at hc
  exact h c hc

theorem said_append_left {blanks : List Char} (h : Blanks blanks) (row : List Char) :
    said (blanks ++ row) = said row := by
  rw [said, beforeComment_append_of_blanks h, trimBlanks_append_left h, said]

/-- One change of layout. Rows of a text hold no line feed, so what is added holds none. -/
inductive Relayout : List (List Char) → List (List Char) → Prop
  | blankRow (before after : List (List Char)) {blanks : List Char} (h : Blanks blanks) :
    Relayout (before ++ after) (before ++ blanks :: after)
  | commentRow (before after : List (List Char)) {blanks : List Char} (h : Blanks blanks)
      (comment : List Char) :
    Relayout (before ++ after) (before ++ (blanks ++ '/' :: '/' :: comment) :: after)
  | padded (before after : List (List Char)) (row : List Char) {left right : List Char}
      (hleft : Blanks left) (hright : Blanks right) :
    Relayout (before ++ row :: after) (before ++ (left ++ (row ++ right)) :: after)
  | commented (before after : List (List Char)) (row : List Char) {gap : List Char}
      (h : Blanks gap) (hgap : gap ≠ []) (comment : List Char) :
    Relayout (before ++ row :: after) (before ++ (row ++ (gap ++ '/' :: '/' :: comment)) :: after)
  /-- A line that ends with a line feed is ended with a carriage return before it. -/
  | returned (before after : List (List Char)) (row next : List Char) :
    Relayout (before ++ row :: next :: after) (before ++ (row ++ ['\r']) :: next :: after)

/-- What the rows say that say something. -/
def sayings (rows : List (List Char)) : List (List Char) :=
  (rows.map said).filter fun saying => !saying.isEmpty

theorem sayings_append (rows rows' : List (List Char)) :
    sayings (rows ++ rows') = sayings rows ++ sayings rows' := by
  rw [sayings, List.map_append, List.filter_append]
  rfl

theorem sayings_cons (row : List Char) (rows : List (List Char)) :
    sayings (row :: rows) = (if (said row).isEmpty then [] else [said row]) ++ sayings rows := by
  rw [sayings, List.map_cons, List.filter_cons]
  cases (said row).isEmpty <;> rfl

theorem sayings_replaced {row row' : List Char} (h : said row' = said row)
    (before after : List (List Char)) :
    sayings (before ++ row' :: after) = sayings (before ++ row :: after) := by
  rw [sayings_append, sayings_append, sayings_cons, sayings_cons, h]

theorem sayings_inserted {row : List Char} (h : Silent row) (before after : List (List Char)) :
    sayings (before ++ row :: after) = sayings (before ++ after) := by
  rw [sayings_append, sayings_append, sayings_cons, said_of_silent h]
  rfl

/-- A change of layout changes nothing that is said. -/
theorem Relayout.sayings_eq {rows rows' : List (List Char)} (h : Relayout rows rows') :
    sayings rows' = sayings rows := by
  cases h with
  | blankRow before after h => exact sayings_inserted h.silent before after
  | commentRow before after h comment =>
    exact sayings_inserted (h.silent_append_comment comment) before after
  | padded before after row hleft hright =>
    refine sayings_replaced ?_ before after
    rw [said_append_left hleft, said_append hright.silent hright.head?]
  | commented before after row h hgap comment =>
    refine sayings_replaced ?_ before after
    refine said_append (h.silent_append_comment comment) ?_
    rw [List.head?_append_of_ne_nil _ hgap]
    exact h.head?
  | returned before after row next =>
    have hreturn : Blanks ['\r'] := List.forall_mem_singleton.2 rfl
    exact sayings_replaced (said_append hreturn.silent hreturn.head?) before (next :: after)

theorem text?_rowBytes (row : List Char) :
    Utf8.text? (rowBytes row) = some (String.ofList row) := by
  have hbytes : rowBytes row = Utf8.encode (String.ofList row) := by
    rw [rowBytes, Utf8.encode, String.toList_ofList]
  rw [hbytes, Utf8.text?_encode]

/-- A carriage return at the end of a row says nothing. -/
theorem exists_row_of_dropReturn (row : List Char) :
    ∃ row', dropReturn (rowBytes row) = rowBytes row' ∧ said row' = said row := by
  rcases List.eq_nil_or_concat row with rfl | ⟨front, c, rfl⟩
  · exact ⟨[], rfl, rfl⟩
  rw [List.concat_eq_append]
  have hbytes : rowBytes (front ++ [c]) = rowBytes front ++ String.utf8EncodeChar c := by
    rw [rowBytes, List.flatMap_append, List.flatMap_singleton, rowBytes]
  by_cases hreturn : c = '\r'
  · subst hreturn
    have hblank : Blanks ['\r'] := List.forall_mem_singleton.2 rfl
    refine ⟨front, ?_, (said_append hblank.silent hblank.head?).symm⟩
    have hlast : (rowBytes front ++ [0x0D]).getLast? = some 0x0D := List.getLast?_concat
    rw [hbytes]
    change dropReturn (rowBytes front ++ [0x0D]) = rowBytes front
    rw [dropReturn, if_pos hlast, List.dropLast_concat]
  · refine ⟨front ++ [c], ?_, rfl⟩
    have hne : String.utf8EncodeChar c ≠ [] := String.utf8EncodeChar_ne_nil
    rw [dropReturn, if_neg]
    intro hlast
    rw [hbytes, List.getLast?_append_of_ne_nil _ hne] at hlast
    exact hreturn (Char.toNat_inj.1 (Utf8.toNat_of_mem_encodeChar (by decide)
      (List.mem_of_getLast? hlast)))

/-- The lines of a text can all be decoded and say what its rows say. -/
theorem sayings_decode (rows : List (List Char)) :
    (Text.Lines.decode (closeLines (rows.map rowBytes))).intact = true ∧
      sayings ((Text.Lines.decode (closeLines (rows.map rowBytes))).readable.map String.toList) =
        sayings rows := by
  induction rows with
  | nil => exact ⟨rfl, rfl⟩
  | cons row rest ih =>
    have hdecode : ∀ row' lines, said row' = said row →
        (Text.Lines.decode lines).intact = true →
        sayings ((Text.Lines.decode lines).readable.map String.toList) = sayings rest →
        (Text.Lines.decode (rowBytes row' :: lines)).intact = true ∧
          sayings ((Text.Lines.decode (rowBytes row' :: lines)).readable.map String.toList) =
            sayings (row :: rest) := by
      intro row' lines hsaid hintact hrest
      simp only [Text.Lines.decode, text?_rowBytes, List.map_cons, String.toList_ofList,
        sayings_cons, hsaid, hrest]
      exact ⟨hintact, trivial⟩
    cases rest with
    | nil =>
      cases row with
      | nil => exact ⟨rfl, rfl⟩
      | cons c row =>
        have hlast : (rowBytes (c :: row)).isEmpty = false := by
          rw [List.isEmpty_eq_false_iff, rowBytes, List.flatMap_cons]
          exact List.append_ne_nil_of_left_ne_nil String.utf8EncodeChar_ne_nil _
        simp only [List.map_cons, List.map_nil, closeLines, hlast, Bool.false_eq_true, ↓reduceIte]
        exact hdecode (c :: row) [] rfl rfl rfl
    | cons next rest =>
      obtain ⟨row', hbytes, hsaid⟩ := exists_row_of_dropReturn row
      obtain ⟨hintact, hsayings⟩ := ih
      rw [List.map_cons, List.map_cons, closeLines, hbytes]
      · exact hdecode row' _ hsaid hintact hsayings
      · exact List.cons_ne_nil _ _

theorem text_numbered (last : Nat) (texts : List String) :
    (numbered last texts).map Line.text = texts.map Line.clean := by
  induction texts generalizing last with
  | nil => rfl
  | cons text rest ih => rw [numbered, List.map_cons, ih, List.map_cons]

def solid (lines : List Line) : List Line := lines.filter fun line => !line.text.isEmpty

theorem text_solid_numbered (last : Nat) (texts : List String) :
    (solid (numbered last texts)).map Line.text =
      (sayings (texts.map String.toList)).map String.ofList := by
  induction texts generalizing last with
  | nil => rfl
  | cons text rest ih =>
    have hempty : (Line.clean text).isEmpty = (said text.toList).isEmpty := by
      rw [Bool.eq_iff_iff, String.isEmpty_iff, List.isEmpty_iff]
      exact String.ofList_eq_empty_iff
    rw [numbered, solid, List.filter_cons, List.map_cons, sayings_cons, hempty]
    cases (said text.toList).isEmpty with
    | false => exact congrArg (Line.clean text :: ·) (ih (last + 1))
    | true => exact ih (last + 1)

/-- The lines of a source that can be decoded are its rows, and say what these say. -/
theorem lines_of_text? {source : List UInt8} {text : String} (h : Utf8.text? source = some text) :
    (Lines.ofBytes source).intact = true ∧
      (solid (Lines.ofBytes source).lines).map Line.text =
        (sayings (rows text)).map String.ofList := by
  obtain rfl := Utf8.text?_eq_some_iff.1 h
  obtain ⟨hintact, hsayings⟩ := sayings_decode (rows text)
  rw [← splitAt_encode] at hintact hsayings
  exact ⟨hintact, (text_solid_numbered 0 _).trans (congrArg _ hsayings)⟩

theorem sayings_eq_of_relayouts {rows rows' : List (List Char)}
    (h : Relation.ReflTransGen Relayout rows rows') : sayings rows' = sayings rows := by
  induction h with
  | refl => rfl
  | tail _ hlast ih => rw [hlast.sayings_eq, ih]

/-- Sources whose texts differ in layout. -/
def Relaid (source source' : List UInt8) : Prop :=
  ∃ text text', Utf8.text? source = some text ∧ Utf8.text? source' = some text' ∧
    Relation.ReflTransGen Relayout (rows text) (rows text')

/-- Sources that differ in layout say the same. -/
theorem Relaid.text_solid {source source' : List UInt8} (h : Relaid source source') :
    (Lines.ofBytes source).intact = true ∧ (Lines.ofBytes source').intact = true ∧
      (solid (Lines.ofBytes source').lines).map Line.text =
        (solid (Lines.ofBytes source).lines).map Line.text := by
  obtain ⟨text, text', htext, htext', hrows⟩ := h
  have hsayings := sayings_eq_of_relayouts hrows
  obtain ⟨hintact, hlines⟩ := lines_of_text? htext
  obtain ⟨hintact', hlines'⟩ := lines_of_text? htext'
  exact ⟨hintact, hintact', by rw [hlines', hsayings, hlines]⟩

end Source

end IjvmAsm
