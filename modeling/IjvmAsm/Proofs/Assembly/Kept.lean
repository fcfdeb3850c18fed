import IjvmAsm.Proofs.Assembly.Progress

/-!
# What lines keep

A property of methods that a method has when it is opened, and that the lines of a source and
further constants keep, is one of every method at any time of a run. Where the property does not
speak of lines, it is enough that changes and closing keep it.
-/

namespace IjvmAsm.Assembly

variable {s : Setup} {P : Array Constant → Method → Prop} {a a' : Progress} {line : Source.Line}
  {lines : List Source.Line}

/-- What the lines of a source keep of a method. The property may speak of the constants that have
been declared. -/
structure Held (s : Setup) (lines : List Source.Line) (P : Array Constant → Method → Prop) :
    Prop where
  build : ∀ constants name parameters line isEntry,
    P constants (.build name parameters line isEntry)
  turn : ∀ {line a m m'}, line ∈ lines → Turn s line a m m' → Grown s m →
    P a.program.constants m → P a.program.constants m'
  constant : ∀ {constants c m}, P constants m → P (constants.push c) m

namespace Held

theorem course (h : Held s lines P) (hline : line ∈ lines)
    (hgrown : ∀ m ∈ a.methods, Grown s m) (hkept : ∀ m ∈ a.methods, P a.program.constants m)
    {ms : List Method} (hcourse : Course s line a ms) : ∀ m ∈ ms, P a.program.constants m := by
  cases hcourse with
  | same => exact hkept
  | opened name parameters isEntry =>
    exact List.forall_mem_append.2 ⟨hkept, List.forall_mem_singleton.2 (h.build _ _ _ _ _)⟩
  | turned turn =>
    rw [turn.methods_eq, List.forall_mem_append, List.forall_mem_singleton] at hgrown hkept
    exact List.forall_mem_append.2
      ⟨hkept.1, List.forall_mem_singleton.2 (h.turn hline turn hgrown.2 hkept.2)⟩

theorem advance (h : Held s lines P) (hline : line ∈ lines) (hsound : Progress.Sound s a)
    (hkept : ∀ m ∈ a.methods, P a.program.constants m) (hadvance : Advance s line a a') :
    ∀ m ∈ a'.methods, P a'.program.constants m := by
  have hcourse := h.course hline hsound.grown hkept hadvance.course
  rcases hadvance.constants with hsame | ⟨c, _, hpush⟩
  · rwa [hsame]
  · rw [hpush]
    exact fun m hm => h.constant (hcourse m hm)

theorem readLines (h : Held s lines P) (hsolid : ∀ line ∈ lines, Text.StartsSolid line.text.toList)
    (hread : readLines s {} lines = .ok a) : ∀ m ∈ a.methods, P a.program.constants m := by
  refine (Progress.readLines_induction
    (P := fun a => Progress.Sound s a ∧ ∀ m ∈ a.methods, P a.program.constants m)
    ⟨Progress.sound_start s, nofun⟩ (fun line hline b b' hb hstep => ?_) hread).2
  obtain ⟨hadvance, herrors⟩ := Progress.advance_of_step hstep
  exact ⟨hb.1.advance (hsolid line hline) hadvance herrors, h.advance hline hb.1 hb.2 hadvance⟩

end Held

structure Kept (s : Setup) (P : Array Constant → Method → Prop) : Prop where
  build : ∀ constants name parameters line isEntry,
    P constants (.build name parameters line isEntry)
  change : ∀ {p m m'}, Change s p m m' → Grown s m → P p.constants m → P p.constants m'
  sealed : ∀ {constants m}, Grown s m → P constants m → P constants m.sealed
  constant : ∀ {constants c m}, P constants m → P (constants.push c) m

namespace Kept

theorem changes (h : Kept s P) {p : Program} {m m' : Method} (hchanges : Changes s p m m')
    (hgrown : Grown s m) (hkept : P p.constants m) : P p.constants m' := by
  induction hchanges with
  | refl => exact hkept
  | tail hbefore hchange ih => exact h.change hchange ((Changes.grows hbefore).grown hgrown) ih

theorem turn (h : Kept s P) (hsolid : Text.StartsSolid line.text.toList) {m m' : Method}
    (hturn : Turn s line a m m') (hgrown : Grown s m) (hkept : P a.program.constants m) :
    P a.program.constants m' := by
  cases hturn with
  | statement => exact h.changes (changes_statement line.number hsolid) hgrown hkept
  | slots _ names =>
    exact h.changes (changes_declareAll s a.program line.number m names) hgrown hkept
  | closing => exact h.sealed hgrown hkept

theorem held (h : Kept s P) (hsolid : ∀ line ∈ lines, Text.StartsSolid line.text.toList) :
    Held s lines P where
  build := h.build
  turn := fun hline => h.turn (hsolid _ hline)
  constant := h.constant

theorem readLines (h : Kept s P) (hsolid : ∀ line ∈ lines, Text.StartsSolid line.text.toList)
    (hread : readLines s {} lines = .ok a) : ∀ m ∈ a.methods, P a.program.constants m :=
  (h.held hsolid).readLines hsolid hread

end Kept

/-- Until methods are linked, all constants are declared ones. -/
theorem Progress.declared_of_readLines {lines : List Source.Line}
    (hread : readLines s {} lines = .ok a) : ∀ c ∈ a.program.constants, c.origin = .declared := by
  refine Progress.readLines_induction (P := fun a => ∀ c ∈ a.program.constants, c.origin = .declared)
    (fun c hc => absurd hc (Array.not_mem_empty c)) (fun line _ b b' hb hstep => ?_) hread
  rcases (Progress.advance_of_step hstep).1.constants with hsame | ⟨c, hdeclared, hpush⟩
  · rwa [hsame]
  · rw [hpush]
    intro c' hc'
    rcases Array.mem_push.1 hc' with hc' | rfl
    · exact hb c' hc'
    · exact hdeclared.declared

end IjvmAsm.Assembly
