import IjvmAsm.Proofs.Program.Anchored
import IjvmAsm.Proofs.Program.Linked

/-!
# Instructions and what linking makes of them

Linking that reports no error goes from instruction to instruction: each keeps its operation and
its place, and its arguments are settled.
-/

namespace IjvmAsm

structure Instruction.LinksTo (pool : Array Constant) (m : Method) (i i' : Instruction) : Prop where
  alike : i.Alike i'
  settled : List.Forall₂ (Settled pool m i) i.arguments i'.arguments

structure Method.LinksTo (pool : Array Constant) (m m' : Method) : Prop where
  alike : m.Alike m'
  instructions : List.Forall₂ (Instruction.LinksTo pool m) m.instructions.toList
    m'.instructions.toList

theorem Method.Alike.sizeBefore_eq {m m' : Method} (h : m.Alike m') (n : Nat) :
    m'.sizeBefore n = m.sizeBefore n := by
  have htake := List.forall₂_take n h.instructions
  have hsizes := map_eq_map_of_forall₂ (fun _ _ hi => hi.size_eq.symm) htake
  rw [sizeBefore, sizeBefore, hsizes]

theorem Method.Alike.emitted_eq {m m' : Method} (h : m.Alike m') : m'.emitted = m.emitted := by
  refine (map_eq_map_of_forall₂ (fun i i' hi => ?_) h.instructions).symm
  rw [hi.operation, hi.line]

namespace Program

variable {file : String} {p : Program}

theorem linksTo_link (herr : (p.link file).2.errors = 0) :
    List.Forall₂ (Method.LinksTo (p.link file).1.constants) p.methods.toList
      (p.link file).1.methods.toList := by
  obtain ⟨entry, rest, h, hentry, _⟩ := exists_complete_of_errors herr
  refine (forall₂_and (forall₂_alike_link file p) (settled_link h hentry herr)).imp ?_
  rintro m m' ⟨halike, hsettled⟩
  exact ⟨halike, (forall₂_and halike.instructions hsettled).imp fun _ _ hi => ⟨hi.1, hi.2⟩⟩

/-- Linking takes no constant away that the source declares, whatever is wrong. -/
theorem size_constants_le_link (hdeclared : ∀ c ∈ p.constants, c.origin = .declared) :
    p.constants.size ≤ (p.link file).1.constants.size := by
  cases hentry? : p.entry? with
  | none =>
    exact Nat.le_of_eq (by rw [errors_link_of_no_entry hentry?])
  | some entry =>
    obtain ⟨rest, h, hentry⟩ := exists_rest_of_entry? hentry?
    have hall : (p.constants.filter fun c => c.origin != .method) = p.constants := by
      rw [Array.filter_eq_self]
      intro c hc
      rw [hdeclared c hc]
      rfl
    have hpool : (p.link file).1.constants =
        (place file 0 entry.size (p.constants.filter fun c => c.origin != .method) rest).pool := by
      rw [link_of_entry h hentry, layout_eq h]
    have hprefix := prefix_pool_place file 0 entry.size p.constants rest
    rw [hpool, hall, ← Array.length_toList, ← Array.length_toList]
    exact hprefix.length_le

end Program

end IjvmAsm
