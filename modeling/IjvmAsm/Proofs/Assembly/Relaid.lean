import IjvmAsm.Proofs.Assembly.Shadow
import IjvmAsm.Proofs.Source.Rows

/-!
# Runs and layout

A line that says nothing does nothing in any block. So the lines that say something lead a run to
the same end whatever stands between them, and sources that differ in layout alone are assembled
alike.
-/

namespace IjvmAsm.Assembly

/-- Two runs that come to the same, line numbers aside: both end early for the same cause, or both
report the same and give the same program, which is rendered to the same bytes or fails alike. -/
inductive Outcome.Alike (o o' : Outcome) : Prop
  | halted {halt halt' : Halt} (h : o.result = .error halt) (h' : o'.result = .error halt')
      (cause : halt.unlined = halt'.unlined)
  | assembled {p p' : Program} (h : o.result = .ok p) (h' : o'.result = .ok p')
      (diagnostics : reports o.journal.toList = reports o'.journal.toList)
      (program : p.unlined = p'.unlined)
      (rendering : ∀ lenient withSymbols,
        (p.render lenient withSymbols).result.mapError EmissionError.unlined =
          (p'.render lenient withSymbols).result.mapError EmissionError.unlined)

namespace Progress

variable {s : Setup} {a b : Progress} {line line' : Source.Line}

theorem note_nil (a : Progress) : a.note [] = a := by
  rw [note, Array.appendList_nil]

theorem ne_closing_text (closing : Closing) : "" ≠ closing.text := by
  cases closing <;> decide

/-- A line that says nothing is at most remarked upon, whatever block it stands in. -/
theorem exists_step_of_isEmpty (s : Setup) (a : Progress) (h : line.text.isEmpty = true) :
    ∃ events, a.step s line = .ok (a.note events) ∧ reports events = [] := by
  obtain ⟨number, text⟩ := line
  obtain rfl := String.isEmpty_iff.1 h
  obtain ⟨program, closed, seen, block, journal⟩ := a
  cases block with
  | outside => exact ⟨_, rfl, rfl⟩
  | constants => exact ⟨[], congrArg _ (note_nil _).symm, rfl⟩
  | body m started =>
    exact ⟨[], congrArg Except.ok ((if_neg (ne_closing_text _)).trans (note_nil _).symm), rfl⟩
  | declarations m => exact ⟨[], rfl, rfl⟩
  | rejected closing within =>
    exact ⟨_, congrArg Except.ok (if_neg (ne_closing_text closing)), rfl⟩

/-- What is at most remarked upon keeps a run abreast of one to which nothing happens. -/
theorem abreast_note_of_shadow (h : a.shadow #[] = b.shadow #[]) {events : List Event}
    (hevents : reports events = []) : Abreast a (a.note events) b b :=
  ⟨h, ⟨[], [], (List.append_nil _).symm, (List.append_nil _).symm, rfl⟩, events, [],
    Array.toList_appendList, (List.append_nil _).symm, hevents⟩

end Progress

open Progress

/-- Lines lead a run where those among them lead it that say something. -/
theorem paired_of_solid {s : Setup} {a b : Progress} {lines lines' : List Source.Line}
    (h : a.shadow #[] = b.shadow #[])
    (htexts : (Source.solid lines).map Source.Line.text = lines'.map Source.Line.text) :
    Paired a b (readLines s a lines) (readLines s b lines') := by
  induction lines generalizing a b lines' with
  | nil =>
    obtain rfl := List.map_eq_nil_iff.1 htexts.symm
    exact .abreast (.start h)
  | cons line rest ih =>
    rw [Source.solid, List.filter_cons, ← Source.solid] at htexts
    cases hempty : line.text.isEmpty with
    | true =>
      obtain ⟨events, hstep, hevents⟩ := exists_step_of_isEmpty s a hempty
      rw [hempty] at htexts
      rw [readLines, hstep]
      exact .after (abreast_note_of_shadow h hevents) (ih h htexts)
    | false =>
      rw [hempty] at htexts
      obtain ⟨line', rest', rfl, htext, hrest⟩ := List.map_eq_cons_iff.1 htexts.symm
      exact (paired_of_shadow h htext.symm).readLines_cons fun a' b' h' => ih h' hrest.symm

theorem Block.closing?_unlined (block : Block) : block.unlined.closing? = block.closing? := by
  cases block <;> rfl

theorem Block.eq_outside_of_closing? {block : Block} (h : block.closing? = none) :
    block = outside := by
  cases block with
  | outside => rfl
  | _ => cases h

/-- Programs that are the same, line numbers aside, are linked and rendered alike. -/
theorem alike_of_abreast {s : Setup} {source source' : Bytes} {a b : Progress}
    (hread : readLines s {} (Source.Lines.ofBytes source).lines = .ok a)
    (hread' : readLines s {} (Source.Lines.ofBytes source').lines = .ok b)
    (hintact : (Source.Lines.ofBytes source).intact = true)
    (hintact' : (Source.Lines.ofBytes source').intact = true) (h : Abreast {} a {} b) :
    (run s source).Alike (run s source') := by
  have hclosing : a.block.closing? = b.block.closing? := by
    rw [← Block.closing?_unlined, ← Block.closing?_unlined b.block]
    exact congrArg (fun c : Progress => c.block.closing?) h.ahead
  cases hblock : a.block.closing? with
  | some closing =>
    rw [hblock] at hclosing
    have hhalt : (run s source).result = .error
        (.unexpectedEnd s.file (Source.Lines.ofBytes source).lines.length closing) := by
      simp only [run, hread, hintact, ↓reduceIte, finish, hblock]
    have hhalt' : (run s source').result = .error
        (.unexpectedEnd s.file (Source.Lines.ofBytes source').lines.length closing) := by
      simp only [run, hread', hintact', ↓reduceIte, finish, ← hclosing]
    exact .halted hhalt hhalt' rfl
  | none =>
    have houtside := Block.eq_outside_of_closing? hblock
    have houtside' := h.outside houtside
    obtain ⟨hsame, hlinked⟩ := Program.link_eq_of_unlined_eq h.program_unlined s.file
    obtain ⟨es, es', hes, hes', hnoticed⟩ := h.reports
    refine .assembled (run_of_readLines hread hintact houtside).1
      (run_of_readLines hread' hintact' houtside').1 ?_ hsame fun lenient withSymbols => ?_
    · rw [reports_of_readLines hread hintact houtside,
        reports_of_readLines hread' hintact' houtside', hes, hes', reports_append, reports_append,
        hnoticed, hlinked]
    · rw [← Program.result_render_unlined, hsame, Program.result_render_unlined]

/-- Layout changes nothing: sources that differ in layout are assembled alike. -/
theorem alike_of_relaid {source source' : Bytes} (s : Setup) (h : Source.Relaid source source') :
    (run s source).Alike (run s source') := by
  obtain ⟨hintact, hintact', htexts⟩ := h.text_solid
  have hpaired : Paired {} {} (readLines s {} (Source.Lines.ofBytes source).lines)
      (readLines s {} (Source.Lines.ofBytes source').lines) :=
    (paired_of_solid (b := {}) rfl htexts.symm).join (paired_of_solid rfl rfl)
  generalize hread : readLines s {} (Source.Lines.ofBytes source).lines = result at hpaired
  generalize hread' : readLines s {} (Source.Lines.ofBytes source').lines = result' at hpaired
  cases hpaired with
  | @ended abort abort' hcause =>
    have hhalt : (run s source).result = .error abort.halt := by simp only [run, hread]
    have hhalt' : (run s source').result = .error abort'.halt := by simp only [run, hread']
    exact .halted hhalt hhalt' hcause
  | abreast habreast => exact alike_of_abreast hread hread' hintact hintact' habreast

def lettered (texts : List String) : List (List Char) := texts.map String.toList

def bareText : String := ".main\nHALT\n.var\nw\n.end-var\n.end-main\n"

def dressedText : String := ".main\r\n\tHALT //stop\n.var\n\nw\n// none\n.end-var\n.end-main\n"

theorem relayouts_dressed : Relation.ReflTransGen Source.Relayout (Text.rows bareText)
    (Text.rows dressedText) := by
  have hbare : Text.rows bareText =
      lettered [".main", "HALT", ".var", "w", ".end-var", ".end-main", ""] := by decide
  have hdressed : Text.rows dressedText =
      lettered [".main\r", "\tHALT //stop", ".var", "", "w", "// none", ".end-var", ".end-main",
        ""] := by
    decide
  have hblank : ∀ c : Char, Text.isBlank c = true → Source.Blanks [c] :=
    fun c hc => List.forall_mem_singleton.2 hc
  have hnone : Source.Blanks [] := nofun
  have hreturned : Source.Relayout
      (lettered [".main", "HALT", ".var", "w", ".end-var", ".end-main", ""])
      (lettered [".main\r", "HALT", ".var", "w", ".end-var", ".end-main", ""]) :=
    .returned [] (lettered [".var", "w", ".end-var", ".end-main", ""]) ".main".toList "HALT".toList
  have hpadded : Source.Relayout
      (lettered [".main\r", "HALT", ".var", "w", ".end-var", ".end-main", ""])
      (lettered [".main\r", "\tHALT", ".var", "w", ".end-var", ".end-main", ""]) :=
    .padded (lettered [".main\r"]) (lettered [".var", "w", ".end-var", ".end-main", ""])
      "HALT".toList (hblank '\t' rfl) hnone
  have hcommented : Source.Relayout
      (lettered [".main\r", "\tHALT", ".var", "w", ".end-var", ".end-main", ""])
      (lettered [".main\r", "\tHALT //stop", ".var", "w", ".end-var", ".end-main", ""]) :=
    .commented (lettered [".main\r"]) (lettered [".var", "w", ".end-var", ".end-main", ""])
      "\tHALT".toList (hblank ' ' rfl) (List.cons_ne_nil _ _) "stop".toList
  have hspaced : Source.Relayout
      (lettered [".main\r", "\tHALT //stop", ".var", "w", ".end-var", ".end-main", ""])
      (lettered [".main\r", "\tHALT //stop", ".var", "", "w", ".end-var", ".end-main", ""]) :=
    .blankRow (lettered [".main\r", "\tHALT //stop", ".var"])
      (lettered ["w", ".end-var", ".end-main", ""]) hnone
  have hremarked : Source.Relayout
      (lettered [".main\r", "\tHALT //stop", ".var", "", "w", ".end-var", ".end-main", ""])
      (lettered [".main\r", "\tHALT //stop", ".var", "", "w", "// none", ".end-var", ".end-main",
        ""]) :=
    .commentRow (lettered [".main\r", "\tHALT //stop", ".var", "", "w"])
      (lettered [".end-var", ".end-main", ""]) hnone " none".toList
  rw [hbare, hdressed]
  exact .head hreturned (.head hpadded (.head hcommented (.head hspaced (.single hremarked))))

theorem relaid_dressed : Source.Relaid (Utf8.encode bareText) (Utf8.encode dressedText) :=
  ⟨bareText, dressedText, Utf8.text?_encode _, Utf8.text?_encode _, relayouts_dressed⟩

theorem alike_of_relaid_dressed :
    Source.Relaid (Utf8.encode bareText) (Utf8.encode dressedText) ∧
      ∀ s, (run s (Utf8.encode bareText)).Alike (run s (Utf8.encode dressedText)) :=
  ⟨relaid_dressed, fun s => alike_of_relaid s relaid_dressed⟩

end IjvmAsm.Assembly
