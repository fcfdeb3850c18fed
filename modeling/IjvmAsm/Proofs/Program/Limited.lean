import IjvmAsm.Program.Emission
import Mathlib.Data.List.Basic
import Mathlib.Tactic.SplitIfs

/-!
# Outputs that run full

An output with a limit takes the writes of an emission in their order, up to the first one that
would pass the limit. If there is none, it gets what an output without a limit gets, and the
emission ends in the same way. Otherwise the emission fails for the output alone, whatever would
have ended it later, and what the output has got is the beginning of what it would have got.

This is so for every program. Images are written in pieces of four bytes at most, so that no more
than three bytes of the limit are left when an output refuses one.
-/

namespace IjvmAsm

namespace Emission

variable {e f : Emission} {limit : Nat} {out : Output}

/-- Emissions that follow each other: the second one begins only if the first one goes through. -/
theorem run_append (e f : Emission) : (e ++ f).run =
    if e.run.failure = none then
      ⟨e.run.bytes ++ f.run.bytes, e.run.events ++ f.run.events, f.run.failure⟩
    else e.run := by
  induction e with
  | nil => rfl
  | cons step rest ih =>
    cases step with
    | write bytes =>
      rw [List.cons_append, run, ih, run]
      by_cases hrest : (run rest).failure = none
      · simp only [if_pos hrest, List.append_assoc]
      · simp only [if_neg hrest]
    | note event =>
      rw [List.cons_append, run, ih, run]
      by_cases hrest : (run rest).failure = none
      · simp only [if_pos hrest, List.cons_append]
      · simp only [if_neg hrest]
    | fail error => rfl

/-- The output has got all that comes before some write, and has refused this one, which would have
passed the limit. -/
inductive CutOff (e : Emission) (limit : Nat) : Output → Prop
  | intro {before after : Emission} {bytes : Bytes} (split : e = before ++ .write bytes :: after)
      (through : before.run.failure = none) (fits : before.run.bytes.length ≤ limit)
      (passes : limit < before.run.bytes.length + bytes.length) :
      CutOff e limit ⟨before.run.bytes, before.run.events, some .outputFull⟩

/-- One more write that the output takes. -/
theorem CutOff.write {bytes : Bytes} (hfits : bytes.length ≤ limit)
    (h : CutOff e (limit - bytes.length) out) :
    CutOff (.write bytes :: e) limit { out with bytes := bytes ++ out.bytes } := by
  obtain @⟨before, after, refused, split, through, fits, passes⟩ := h
  have hlength : (run (.write bytes :: before)).bytes.length =
      bytes.length + before.run.bytes.length := List.length_append
  refine @CutOff.intro _ _ (.write bytes :: before) after refused ?_ through ?_ ?_
  · rw [split, List.cons_append]
  · omega
  · omega

theorem CutOff.note {event : Event} (h : CutOff e limit out) :
    CutOff (.note event :: e) limit { out with events := event :: out.events } := by
  obtain @⟨before, after, refused, split, through, fits, passes⟩ := h
  refine @CutOff.intro _ _ (.note event :: before) after refused ?_ through fits passes
  rw [split, List.cons_append]

/-- An output gets everything, or is cut off. -/
theorem runWithin_cases (e : Emission) (limit : Nat) :
    e.run.bytes.length ≤ limit ∧ e.runWithin limit = e.run ∨
      limit < e.run.bytes.length ∧ CutOff e limit (e.runWithin limit) := by
  induction e generalizing limit with
  | nil => exact .inl ⟨Nat.zero_le _, rfl⟩
  | cons step rest ih =>
    cases step with
    | fail error => exact .inl ⟨Nat.zero_le _, rfl⟩
    | note event =>
      rw [runWithin]
      rcases ih limit with ⟨hfits, hsame⟩ | ⟨hpasses, hcut⟩
      · exact .inl ⟨hfits, by rw [hsame, run]⟩
      · exact .inr ⟨hpasses, hcut.note⟩
    | write bytes =>
      have hlength : (run (.write bytes :: rest)).bytes.length =
          bytes.length + (run rest).bytes.length := List.length_append
      rw [runWithin]
      by_cases hroom : bytes.length ≤ limit
      · rw [if_pos hroom]
        rcases ih (limit - bytes.length) with ⟨hfits, hsame⟩ | ⟨hpasses, hcut⟩
        · exact .inl ⟨by omega, by rw [hsame, run]⟩
        · exact .inr ⟨by omega, hcut.write hroom⟩
      · rw [if_neg hroom]
        refine .inr ⟨by omega, ?_⟩
        have hpasses : limit < (run []).bytes.length + bytes.length := by simpa [run] using hroom
        exact @CutOff.intro _ _ [] rest bytes rfl rfl (Nat.zero_le _) hpasses

/-- What an output that is cut off has got is the beginning of the whole. -/
theorem CutOff.isPrefix (h : CutOff e limit out) : out.bytes <+: e.run.bytes ∧
    out.events <+: e.run.events ∧ out.bytes.length ≤ limit ∧ out.failure = some .outputFull := by
  obtain @⟨before, after, refused, split, through, fits, passes⟩ := h
  rw [split, run_append, if_pos through]
  exact ⟨List.prefix_append _ _, List.prefix_append _ _, fits, rfl⟩

/-- Where an output is cut off, the limit is nearly reached. -/
theorem CutOff.limit_lt (h : CutOff e limit out) {width : Nat}
    (hwidth : ∀ bytes, .write bytes ∈ e → bytes.length ≤ width) :
    limit < out.bytes.length + width := by
  obtain @⟨before, after, refused, split, through, fits, passes⟩ := h
  have hrefused : refused.length ≤ width := by
    apply hwidth
    rw [split]
    exact List.mem_append_right _ List.mem_cons_self
  exact Nat.lt_of_lt_of_le passes (Nat.add_le_add_left hrefused _)

/-- What ends an emission is one of its steps. -/
theorem fail_mem_of_run {error : EmissionError} (h : e.run.failure = some error) :
    .fail error ∈ e := by
  induction e with
  | nil => cases h
  | cons step rest ih =>
    cases step with
    | write bytes => exact List.mem_cons_of_mem _ (ih h)
    | note event => exact List.mem_cons_of_mem _ (ih h)
    | fail first =>
      cases h
      exact List.mem_cons_self

/-- What an output with a limit gets of an emission, and how it ends. An output without a limit is
never full. -/
structure Delivered (e : Emission) (limit : Nat) : Prop where
  own : e.run.failure ≠ some .outputFull
  whole : e.run.bytes.length ≤ limit → e.runWithin limit = e.run
  full : limit < e.run.bytes.length → (e.runWithin limit).result = .error .outputFull ∧
    (e.runWithin limit).bytes <+: e.run.bytes ∧ (e.runWithin limit).events <+: e.run.events ∧
    (e.runWithin limit).bytes.length ≤ limit ∧ CutOff e limit (e.runWithin limit)

theorem delivered (limit : Nat) (h : .fail .outputFull ∉ e) : e.Delivered limit where
  own := fun hfull => h (fail_mem_of_run hfull)
  whole := by
    intro hfits
    rcases runWithin_cases e limit with ⟨-, hsame⟩ | ⟨hpasses, -⟩
    · exact hsame
    · omega
  full := by
    intro hpasses
    rcases runWithin_cases e limit with ⟨hfits, -⟩ | ⟨-, hcut⟩
    · omega
    · obtain ⟨hbytes, hevents, hlength, hfailure⟩ := hcut.isPrefix
      refine ⟨?_, hbytes, hevents, hlength, hcut⟩
      rw [Output.result, hfailure]

end Emission

/-- A step of writing an image: it writes four bytes at most, and does not fail for the output. -/
def Step.Small : Step → Prop
  | .write bytes => bytes.length ≤ 4
  | .note _ => True
  | .fail error => error ≠ .outputFull

theorem OperandKind.size_le (wide : Bool) (kind : OperandKind) : kind.size wide ≤ 4 := by
  cases kind <;> cases wide <;> decide

theorem Instruction.small_of_mem {lenient : Bool} {method : String} {i : Instruction} {step : Step}
    (h : step ∈ i.emission lenient method) : step.Small := by
  rw [emission, List.mem_cons, ← List.map_uncurry_zip_eq_zipWith, List.mem_map] at h
  obtain rfl | ⟨⟨kind, argument⟩, -, rfl⟩ := h
  · exact (by decide : 1 ≤ 4)
  · have hwrite : ∀ value, (if kind.fits i.wide value then Step.write (kind.encode i.wide value)
        else .fail (.outOfRange value kind i.line)).Small := by
      intro value
      by_cases hfits : kind.fits i.wide value = true
      · rw [if_pos hfits, Step.Small, OperandKind.length_encode]
        exact kind.size_le i.wide
      · rw [if_neg hfits]
        exact nofun
    rw [Function.uncurry_apply_pair, argumentStep]
    cases argument with
    | resolved value => exact hwrite value
    | pending reference =>
      cases lenient with
      | true => exact hwrite 0
      | false => exact nofun

theorem Method.small_of_mem {lenient : Bool} {m : Method} {step : Step}
    (h : step ∈ m.emission lenient) : step.Small := by
  rw [emission, List.mem_cons, List.mem_flatMap] at h
  obtain rfl | ⟨i, -, hstep⟩ := h
  · trivial
  · exact Instruction.small_of_mem hstep

theorem Method.small_of_mem_header {m : Method} {step : Step} (h : step ∈ m.headerEmission) :
    step.Small := by
  rw [headerEmission] at h
  split_ifs at h
  · rw [List.mem_singleton.1 h]
    exact nofun
  · rw [List.mem_singleton.1 h]
    exact nofun
  · have hnumber : ∀ n, (Step.write (Bytes.ofNat 2 n)).Small := by
      intro n
      rw [Step.Small, Bytes.length_ofNat]
      decide
    rcases List.mem_pair.1 h with rfl | rfl
    · exact hnumber _
    · exact hnumber _

namespace Program

variable {p : Program} {lenient : Bool} {step : Step}

theorem small_of_mem_head (h : step ∈ p.headEmission) : step.Small := by
  have hnumber : ∀ n, (Step.write (Bytes.ofNat 4 n)).Small := by
    intro n
    exact Nat.le_of_eq (Bytes.length_ofNat 4 n)
  simp only [headEmission, List.mem_cons, List.mem_append, List.mem_map, List.not_mem_nil,
    or_false] at h
  obtain rfl | rfl | rfl | ⟨c, -, rfl⟩ | rfl | rfl := h
  all_goals exact hnumber _

theorem small_of_mem (h : step ∈ p.emission lenient) : step.Small := by
  rw [emission] at h
  cases hentry : p.entry? with
  | none =>
    rw [hentry] at h
    rw [List.mem_singleton.1 h]
    exact nofun
  | some entry =>
    simp only [hentry, List.mem_append, List.mem_flatMap, List.mem_singleton] at h
    obtain ((hhead | hentry) | ⟨m, -, hheader | hmethod⟩) | rfl := h
    · exact small_of_mem_head hhead
    · exact Method.small_of_mem hentry
    · exact Method.small_of_mem_header hheader
    · exact Method.small_of_mem hmethod
    · trivial

theorem fail_notMem_symbolEmission (p : Program) (error : EmissionError) :
    .fail error ∉ p.symbolEmission := by
  simp [symbolEmission, blockEmission]

/-- An output with a limit loses nothing of a program silently, be it the image or the symbols. -/
theorem delivered_within (p : Program) (lenient : Bool) (limit : Nat) :
    (p.emission lenient).Delivered limit ∧ p.symbolEmission.Delivered limit ∧
      (limit < (p.emission lenient).run.bytes.length →
        limit < ((p.emission lenient).runWithin limit).bytes.length + 4) := by
  have himage : (p.emission lenient).Delivered limit :=
    Emission.delivered limit fun hfull => small_of_mem hfull rfl
  refine ⟨himage, Emission.delivered limit (p.fail_notMem_symbolEmission _), fun hpasses => ?_⟩
  obtain ⟨-, -, -, -, hcut⟩ := himage.full hpasses
  exact hcut.limit_lt fun bytes hbytes => small_of_mem hbytes

end Program

end IjvmAsm
