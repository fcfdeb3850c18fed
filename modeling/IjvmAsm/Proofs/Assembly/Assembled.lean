import IjvmAsm.Proofs.Assembly.Progress
import IjvmAsm.Proofs.Program.Linked
import IjvmAsm.Proofs.Program.Segments

/-!
# Assembled programs

What a run leaves in the program that it gives, whether or not errors were reported, and what it
leaves in one where none was.
-/

namespace IjvmAsm.Assembly

/-- What holds of a program that a run gives. -/
structure Assembled (s : Setup) (p : Program) : Prop where
  led : ∃ seen, Led seen p.methods.toList
  laidOut : ∀ m ∈ p.methods, m.LaidOut
  issued : ∀ m ∈ p.methods, ∀ i ∈ m.instructions, ∃ arguments,
    Issued s i.operation arguments ∧ i.arguments.length = arguments.length
  labelNames : ∀ m ∈ p.methods, ∀ l ∈ m.labels, Source.isIdentifier l.name = true

variable {s : Setup} {p : Program} {source : Bytes}

theorem Led.alike {seen : Bool} {ms ms' : List Method} (h : Led seen ms)
    (hall : List.Forall₂ Method.Alike ms ms') : Led seen ms' := by
  cases h with
  | nil =>
    cases hall
    exact .nil
  | cons hentry hothers =>
    obtain _ | ⟨hfirst, hrest⟩ := hall
    refine .cons (hfirst.isEntry.trans hentry) fun m hm => ?_
    obtain ⟨m', hm', halike⟩ := exists_of_mem_right hrest hm
    exact halike.isEntry.trans (hothers m' hm')

theorem assembled_of_run (h : (run s source).result = .ok p) : Assembled s p := by
  obtain ⟨a, hsound, hmethods, rfl, _⟩ := exists_sound_of_run h
  have halike := Program.forall₂_alike_link s.file a.program
  rw [← hmethods] at halike
  have hback : ∀ m ∈ (a.program.link s.file).1.methods, ∃ m', Grown s m' ∧ m'.Alike m := by
    intro m hm
    obtain ⟨m', hm', halike⟩ := exists_of_mem_right halike (Array.mem_toList_iff.2 hm)
    exact ⟨m', hsound.grown m' hm', halike⟩
  refine ⟨⟨_, hsound.led.alike halike⟩, fun m hm => ?_, fun m hm i hi => ?_, fun m hm => ?_⟩
  · obtain ⟨m', hgrown, halike⟩ := hback m hm
    exact hgrown.laidOut.alike halike
  · obtain ⟨m', hgrown, halike⟩ := hback m hm
    obtain ⟨i', hi', hialike⟩ :=
      exists_of_mem_right halike.instructions (Array.mem_toList_iff.2 hi)
    refine ⟨i'.arguments, ?_, hialike.arguments.length_eq.symm⟩
    rw [hialike.operation]
    exact hgrown.issued i' (Array.mem_toList_iff.1 hi')
  · obtain ⟨m', hgrown, halike⟩ := hback m hm
    rw [halike.labels]
    exact hgrown.labelNames

namespace Assembled

theorem found (h : Assembled s p) {m : Method} (hm : m ∈ p.methods) {i : Instruction}
    (hi : i ∈ m.instructions) : ∃ name, s.set.find? name = some i.operation := by
  obtain ⟨arguments, hissued, _⟩ := h.issued m hm i hi
  exact hissued.found

theorem text_eq_flatMap (h : Assembled s p) :
    p.text = p.methods.toList.flatMap Method.segmentBytes := by
  obtain ⟨seen, hled⟩ := h.led
  cases hms : p.methods.toList with
  | nil =>
    rw [Program.text, Program.others, hms]
    rfl
  | cons entry others =>
    rw [hms] at hled
    cases hled with
    | cons hentry hothers => exact hms ▸ Program.text_eq_flatMap hms hentry hothers

theorem length_encoding (h : Assembled s p)
    (harity : ∀ m ∈ p.methods, ∀ i ∈ m.instructions, i.HasArity) :
    ∀ m ∈ p.methods.toList, m.encoding.length = m.size := by
  intro m hm
  rw [Array.mem_toList_iff] at hm
  rw [Method.length_encoding (harity m hm), (h.laidOut m hm).size_eq]

/-- The text is as long as the program says if no instruction has too few or too many
arguments. -/
theorem length_text (h : Assembled s p)
    (harity : ∀ m ∈ p.methods, ∀ i ∈ m.instructions, i.HasArity) :
    p.text.length = p.size := by
  have hsegments : ∀ m ∈ p.methods.toList, m.segmentBytes.length = m.segmentSize :=
    fun m hm => Method.length_segmentBytes (h.length_encoding harity m hm)
  rw [h.text_eq_flatMap, List.length_flatMap, List.map_congr_left hsegments, Program.size_eq]

end Assembled

/-- What holds of a program too if the run reported no error. -/
structure Flawless (p : Program) : Prop where
  entry : ∃ m, p.methods[0]? = some m ∧ m.isEntry = true
  names : ∀ m ∈ p.methods, Source.isIdentifier m.name = true
  offsets : ∀ before m after, p.methods.toList = before ++ m :: after →
    m.offset = (before.map Method.size).sum + 4 * (before.length - 1)
  settled : p.awaitsLinking = false

theorem flawless_of_run (h : (run s source).result = .ok p) (herrors : (run s source).errors = 0) :
    Flawless p := by
  obtain ⟨a, hsound, hmethods, rfl, hcount⟩ := exists_sound_of_run h
  have hlink : (a.program.link s.file).2.errors = 0 := by omega
  have halike := Program.forall₂_alike_link s.file a.program
  obtain ⟨entry, rest, hrest, hentry, hcomplete⟩ := Program.exists_complete_of_errors hlink
  refine ⟨?_, fun m hm => ?_, fun _ _ _ => Program.offset_link_of_complete hrest hentry hcomplete,
    Program.awaitsLinking_link hrest hentry hlink⟩
  · rw [hrest] at halike
    generalize hlinked : (a.program.link s.file).1 = q at halike
    cases hms : q.methods.toList with
    | nil =>
      rw [hms] at halike
      cases halike
    | cons first others =>
      rw [hms] at halike
      obtain _ | ⟨hfirst, _⟩ := halike
      exact ⟨first, Program.getElem?_zero_of_toList hms, hfirst.isEntry.trans hentry⟩
  · obtain ⟨m', hm', halike⟩ := exists_of_mem_right halike (Array.mem_toList_iff.2 hm)
    rw [halike.name]
    exact hsound.named (by omega) m' (hmethods ▸ hm')

end IjvmAsm.Assembly
