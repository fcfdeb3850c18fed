import IjvmAsm.Proofs.Correspondence
import IjvmAsm.Proofs.Program.Placement

/-!
# Resolving references

Resolving a method reports no error if and only if every reference in it can be settled: a label of
the method that is near enough, or a name in the pool. Each reference has then become the value
that settles it. Resolving changes nothing but references, with or without errors.
-/

namespace IjvmAsm

/-- What an argument becomes: a value stays, a label becomes its distance from the instruction, and
a method the index of the first constant of that name. -/
inductive Settled (pool : Array Constant) (m : Method) (i : Instruction) :
    Argument → Argument → Prop
  | resolved (value : Int) : Settled pool m i (.resolved value) (.resolved value)
  | label {name : String} {l : Label} (found : m.findLabel? name = some l)
      (least : -0x8000 ≤ (l.offset : Int) - i.offset)
      (greatest : (l.offset : Int) - i.offset < 0x8000) :
      Settled pool m i (.pending (.label name)) (.resolved (l.offset - i.offset))
  | method {name : String} {index : Nat}
      (found : pool.findIdx? (fun c => c.name == name) = some index) :
      Settled pool m i (.pending (.method name)) (.resolved index)

theorem fitsSigned_sixteen_iff (n : Int) :
    fitsSigned 16 n = true ↔ -0x8000 ≤ n ∧ n < 0x8000 := fitsSigned_iff

theorem Settled.isPending_eq_false {pool : Array Constant} {m : Method} {i : Instruction}
    {a a' : Argument} (h : Settled pool m i a a') : a'.isPending = false := by
  cases h <;> rfl

namespace Scope

variable {s : Scope} {pool : Array Constant} {i : Instruction}

theorem quiet_resolve_iff (hpool : s.pool = some pool) (a : Argument) :
    Quiet (s.resolve i a).2.toList ↔ ∃ a', Settled pool s.method i a a' := by
  match a with
  | .resolved value => exact iff_of_true (by simp [resolve]) ⟨_, .resolved value⟩
  | .pending (.label name) =>
    simp only [resolve, distance]
    cases hl : s.method.findLabel? name with
    | none =>
      refine iff_of_false (by simp [settle, Problem.isError_event, Problem.severity]) ?_
      rintro ⟨_, h⟩
      cases h with
      | label found _ _ => simp [hl] at found
    | some l =>
      by_cases hfits : fitsSigned 16 ((l.offset : Int) - i.offset) = true
      · obtain ⟨hleast, hgreatest⟩ := (fitsSigned_sixteen_iff _).1 hfits
        exact iff_of_true (by simp [hfits, settle, Event.isError]) ⟨_, .label hl hleast hgreatest⟩
      · refine iff_of_false (by simp [hfits, settle, Problem.isError_event, Problem.severity]) ?_
        rintro ⟨_, h⟩
        cases h with
        | label found hleast hgreatest =>
          rw [hl, Option.some.injEq] at found
          subst found
          exact hfits ((fitsSigned_sixteen_iff _).2 ⟨hleast, hgreatest⟩)
  | .pending (.method name) =>
    simp only [resolve, hpool, methodIndex]
    cases hk : pool.findIdx? fun c => c.name == name with
    | none =>
      refine iff_of_false (by simp [settle, Problem.isError_event, Problem.severity]) ?_
      rintro ⟨_, h⟩
      cases h with
      | method found => simp [hk] at found
    | some index => exact iff_of_true (by simp [settle, Event.isError]) ⟨_, .method hk⟩

theorem resolve_eq_of_settled (hpool : s.pool = some pool) {a a' : Argument}
    (h : Settled pool s.method i a a') : (s.resolve i a).1 = a' := by
  cases h with
  | resolved value => rfl
  | label found hleast hgreatest =>
    have hfits := (fitsSigned_sixteen_iff _).2 ⟨hleast, hgreatest⟩
    simp [resolve, distance, found, hfits, settle]
  | method found => simp [resolve, hpool, methodIndex, found, settle]

theorem quiet_resolveInstruction_iff (s : Scope) (i : Instruction) :
    Quiet (s.resolveInstruction i).2 ↔ ∀ a ∈ i.arguments, Quiet (s.resolve i a).2.toList := by
  simp only [resolveInstruction, Quiet, List.mem_filterMap, List.mem_map, Option.mem_toList]
  constructor
  · intro h a ha e he
    exact h e ⟨_, ⟨a, ha, rfl⟩, he⟩
  · rintro h e ⟨_, ⟨a, ha, rfl⟩, he⟩
    exact h a ha e he

theorem quiet_resolveMethod_iff (hpool : s.pool = some pool) :
    Quiet s.resolveMethod.2 ↔
      ∀ i ∈ s.method.instructions, ∀ a ∈ i.arguments, ∃ a', Settled pool s.method i a a' := by
  simp only [resolveMethod, Array.toList_map, quiet_flatMap, List.forall_mem_map,
    Array.mem_toList_iff, quiet_resolveInstruction_iff, quiet_resolve_iff hpool]

/-- Where no error is reported, every argument has become what settles it. -/
theorem settled_resolveMethod (hpool : s.pool = some pool) (h : Quiet s.resolveMethod.2) :
    List.Forall₂
      (fun i i' : Instruction =>
        List.Forall₂ (Settled pool s.method i) i.arguments i'.arguments)
      s.method.instructions.toList s.resolveMethod.1.instructions.toList := by
  rw [quiet_resolveMethod_iff hpool] at h
  simp only [resolveMethod, Array.toList_map, List.map_map, List.forall₂_map_right_iff]
  refine List.forall₂_same.2 fun i hi => ?_
  simp only [Function.comp_apply, resolveInstruction, List.map_map, List.forall₂_map_right_iff]
  refine List.forall₂_same.2 fun a ha => ?_
  obtain ⟨a', ha'⟩ := h i (Array.mem_toList_iff.1 hi) a ha
  simpa [resolve_eq_of_settled hpool ha'] using ha'

end Scope

/-- An instruction that differs in references only. -/
structure Instruction.Alike (i i' : Instruction) : Prop where
  operation : i'.operation = i.operation
  line : i'.line = i.line
  wide : i'.wide = i.wide
  offset : i'.offset = i.offset
  arguments : List.Forall₂ (fun a a' => ∀ value, a = .resolved value → a' = a)
    i.arguments i'.arguments

structure Method.Alike (m m' : Method) : Prop where
  name : m'.name = m.name
  parameterCount : m'.parameterCount = m.parameterCount
  slots : m'.slots = m.slots
  labels : m'.labels = m.labels
  size : m'.size = m.size
  isEntry : m'.isEntry = m.isEntry
  line : m'.line = m.line
  widensNext : m'.widensNext = m.widensNext
  instructions : List.Forall₂ Instruction.Alike m.instructions.toList m'.instructions.toList

theorem Instruction.alike_self (i : Instruction) : i.Alike i :=
  ⟨rfl, rfl, rfl, rfl, List.forall₂_same.2 fun _ _ _ _ => rfl⟩

theorem Method.alike_self (m : Method) : m.Alike m :=
  ⟨rfl, rfl, rfl, rfl, rfl, rfl, rfl, rfl, List.forall₂_same.2 fun i _ => i.alike_self⟩

theorem Scope.alike_resolveInstruction (s : Scope) (i : Instruction) :
    i.Alike (s.resolveInstruction i).1 where
  operation := rfl
  line := rfl
  wide := rfl
  offset := rfl
  arguments := by
    simp only [resolveInstruction, List.map_map, List.forall₂_map_right_iff]
    refine List.forall₂_same.2 fun a _ value h => ?_
    rw [h]
    rfl

theorem Scope.alike_resolveMethod (file : String) (pool : Option (Array Constant)) (m : Method)
    (offset : Nat) : m.Alike (Scope.resolveMethod ⟨file, pool, { m with offset }⟩).1 where
  name := rfl
  parameterCount := rfl
  slots := rfl
  labels := rfl
  size := rfl
  isEntry := rfl
  line := rfl
  widensNext := rfl
  instructions := by
    simp only [resolveMethod, Array.toList_map, List.map_map, List.forall₂_map_right_iff]
    exact List.forall₂_same.2 fun i _ => Scope.alike_resolveInstruction _ i

end IjvmAsm
