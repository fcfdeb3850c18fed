import IjvmAsm.Proofs.Program.Linked

/-!
# What linking makes of references, whatever is wrong

Linking settles the references that it can and leaves the others as they are. So each argument of a
linked program has been settled, or it was pending and still is.
-/

namespace IjvmAsm

/-- What an argument becomes, whether or not it can be settled. -/
inductive Attempted (pool : Array Constant) (m : Method) (i : Instruction) :
    Argument → Argument → Prop
  | settled {a a' : Argument} (settled : Settled pool m i a a') : Attempted pool m i a a'
  | left (reference : Reference) : Attempted pool m i (.pending reference) (.pending reference)

variable {pool : Array Constant} {m : Method} {i : Instruction}

theorem attempted_offset_iff {offset : Nat} {a a' : Argument} :
    Attempted pool { m with offset } i a a' ↔ Attempted pool m i a a' := by
  constructor
  · rintro (h | reference)
    · exact .settled (settled_offset_iff.1 h)
    · exact .left reference
  · rintro (h | reference)
    · exact .settled (settled_offset_iff.2 h)
    · exact .left reference

theorem attempted_self (a : Argument) : Attempted pool m i a a := by
  cases a with
  | resolved value => exact .settled (.resolved value)
  | pending reference => exact .left reference

/-- A method the references of which linking has tried to settle. -/
def Method.Tried (pool : Array Constant) (m m' : Method) : Prop :=
  List.Forall₂ (fun i i' : Instruction => i.Alike i' ∧
    List.Forall₂ (Attempted pool m i) i.arguments i'.arguments)
    m.instructions.toList m'.instructions.toList

theorem Method.tried_self (pool : Array Constant) (m : Method) : m.Tried pool m :=
  List.forall₂_same.2 fun i _ =>
    ⟨i.alike_self, List.forall₂_same.2 fun a _ => attempted_self a⟩

theorem Method.tried_of_offset {offset : Nat} {m m' : Method}
    (h : Method.Tried pool { m with offset } m') : m.Tried pool m' :=
  List.Forall₂.imp (fun _ _ hi => ⟨hi.1, hi.2.imp fun _ _ => attempted_offset_iff.1⟩) h

namespace Scope

variable {s : Scope}

theorem attempted_resolve (hpool : s.pool = none ∨ s.pool = some pool) (a : Argument) :
    Attempted pool s.method i a (s.resolve i a).1 := by
  match a with
  | .resolved value => exact .settled (.resolved value)
  | .pending (.label name) =>
    simp only [resolve, distance]
    cases hl : s.method.findLabel? name with
    | none => exact .left _
    | some l =>
      dsimp only
      split_ifs with hfits
      · obtain ⟨hleast, hgreatest⟩ := (fitsSigned_sixteen_iff _).1 hfits
        exact .settled (.label hl hleast hgreatest)
      · exact .left _
  | .pending (.method name) =>
    simp only [resolve, methodIndex]
    rcases hpool with hpool | hpool
    · rw [hpool]
      exact .left _
    · simp only [hpool]
      cases hk : pool.findIdx? fun c => c.name == name with
      | none => exact .left _
      | some index => exact .settled (.method hk)

theorem tried_resolveMethod (hpool : s.pool = none ∨ s.pool = some pool) :
    s.method.Tried pool s.resolveMethod.1 := by
  rw [Method.Tried, resolveMethod]
  simp only [Array.toList_map, List.map_map, List.forall₂_map_right_iff]
  refine List.forall₂_same.2 fun i _ => ⟨s.alike_resolveInstruction i, ?_⟩
  simp only [Function.comp_apply, resolveInstruction, List.map_map, List.forall₂_map_right_iff]
  exact List.forall₂_same.2 fun a _ => attempted_resolve hpool a

end Scope

namespace Program

/-- What linking makes of the methods of a program, whatever is wrong. -/
theorem tried_link (file : String) (p : Program) :
    List.Forall₂ (Method.Tried (p.link file).1.constants) p.methods.toList
      (p.link file).1.methods.toList := by
  cases hentry? : p.entry? with
  | none =>
    rw [errors_link_of_no_entry hentry?]
    exact List.forall₂_same.2 fun m _ => m.tried_self _
  | some entry =>
    obtain ⟨rest, h, hentry⟩ := exists_rest_of_entry? hentry?
    have hconstants : (p.link file).1.constants = (p.layout file).pool := by
      rw [link_eq h hentry]
    have hpool (m : Method) : ((p.layout file).scope file m).pool = none ∨
        ((p.layout file).scope file m).pool = some (p.layout file).pool := by
      rw [Placement.scope]
      split_ifs
      · exact .inr rfl
      · exact .inl rfl
    rw [hconstants]
    exact forall₂_link_of_entry h hentry fun m offset =>
      Method.tried_of_offset (Scope.tried_resolveMethod (hpool { m with offset }))

end Program

end IjvmAsm
