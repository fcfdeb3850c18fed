import IjvmAsm.Program.Link
import IjvmAsm.Proofs.Journal
import IjvmAsm.Proofs.Program.Shape
import Mathlib.Data.List.Forall2

/-!
# Placing methods

Methods are all placed if and only if their names differ from each other and from those of the
constants before them. Each then begins where the one before it ends, behind its own header, and
the pool has grown by one constant for each.
-/

namespace IjvmAsm

theorem Problem.isError_event (p : Problem) (file : String) (line : Nat) :
    (p.event file line).isError = (p.severity == .error) := rfl

def Method.constant (m : Method) : Constant := ⟨m.name, Int32.ofNat m.offset, m.line, .method⟩

/-- Methods that follow each other from an offset on, each behind a header. -/
def placedFrom (cursor : Nat) : List Method → List Method
  | [] => []
  | m :: rest =>
    { m with offset := cursor } :: placedFrom (cursor + m.size + Image.headerSize) rest

@[simp] theorem length_placedFrom (cursor : Nat) (ms : List Method) :
    (placedFrom cursor ms).length = ms.length := by
  induction ms generalizing cursor with
  | nil => rfl
  | cons m rest ih => simp [placedFrom, ih]

/-- A quantity that does not depend on the offset is the same for methods that have been placed. -/
theorem map_placedFrom {α : Type} {f : Method → α}
    (hf : ∀ m offset, f { m with offset } = f m) (cursor : Nat) (ms : List Method) :
    (placedFrom cursor ms).map f = ms.map f := by
  induction ms generalizing cursor with
  | nil => rfl
  | cons m rest ih => simp [placedFrom, ih, hf]

theorem map_name_placedFrom (cursor : Nat) (ms : List Method) :
    ((placedFrom cursor ms).map Method.constant).map Constant.name = ms.map Method.name := by
  rw [List.map_map]
  exact map_placedFrom (fun _ _ => rfl) cursor ms

theorem forall_mem_placedFrom {P : Method → Prop} (hP : ∀ m offset, P { m with offset } ↔ P m)
    (cursor : Nat) (ms : List Method) :
    (∀ m ∈ placedFrom cursor ms, P m) ↔ ∀ m ∈ ms, P m := by
  induction ms generalizing cursor with
  | nil => rfl
  | cons m rest ih => simp only [placedFrom, List.forall_mem_cons, ih, hP]

theorem forall₂_placedFrom {P : Method → Prop} {R : Method → Method → Prop}
    (hR : ∀ m offset, P m → R m { m with offset }) (cursor : Nat) {ms : List Method}
    (hP : ∀ m ∈ ms, P m) : List.Forall₂ R ms (placedFrom cursor ms) := by
  induction ms generalizing cursor with
  | nil => exact .nil
  | cons m rest ih =>
    obtain ⟨hm, hrest⟩ := List.forall_mem_cons.1 hP
    exact .cons (hR m cursor hm) (ih _ hrest)

theorem headedSize_placedFrom (cursor : Nat) (ms : List Method) :
    headedSize (placedFrom cursor ms) = headedSize ms := by
  induction ms generalizing cursor with
  | nil => rfl
  | cons m rest ih => simp [placedFrom, ih]

/-- A placed method begins behind all that stands before it. -/
theorem offset_of_placedFrom_eq {cursor : Nat} {ms before after : List Method} {m : Method}
    (h : placedFrom cursor ms = before ++ m :: after) :
    m.offset = cursor + headedSize before := by
  induction before generalizing cursor ms with
  | nil =>
    cases ms with
    | nil => simp [placedFrom] at h
    | cons first rest =>
      simp only [placedFrom, List.nil_append, List.cons.injEq] at h
      rw [← h.1]
      simp
  | cons b before ih =>
    cases ms with
    | nil => simp [placedFrom] at h
    | cons first rest =>
      simp only [placedFrom, List.cons_append, List.cons.injEq] at h
      obtain ⟨rfl, h⟩ := h
      rw [ih h]
      change cursor + first.size + Image.headerSize + headedSize before =
        cursor + (first.size + Image.headerSize + headedSize before)
      omega

theorem le_offset_of_mem_placedFrom {cursor : Nat} {ms : List Method} {m : Method}
    (h : m ∈ placedFrom cursor ms) : cursor ≤ m.offset := by
  obtain ⟨before, after, h⟩ := List.append_of_mem h
  rw [offset_of_placedFrom_eq h]
  exact Nat.le_add_right _ _

theorem offset_lt_of_mem_placedFrom {cursor : Nat} {ms : List Method} {m : Method}
    (h : m ∈ placedFrom cursor ms) : m.offset + m.size < cursor + headedSize ms := by
  obtain ⟨before, after, h⟩ := List.append_of_mem h
  have hsize := headedSize_placedFrom cursor ms
  rw [h, headedSize, List.map_append, List.sum_append, List.map_cons, List.sum_cons] at hsize
  have hoffset := offset_of_placedFrom_eq h
  simp only [Image.headerSize, headedSize] at hsize hoffset ⊢
  omega

theorem pairwise_offset_placedFrom (cursor : Nat) (ms : List Method) :
    (placedFrom cursor ms).Pairwise (·.offset < ·.offset) := by
  induction ms generalizing cursor with
  | nil => exact .nil
  | cons m rest ih =>
    refine .cons (fun other hother => ?_) (ih _)
    have hle := le_offset_of_mem_placedFrom hother
    simp only [Image.headerSize] at hle
    simp only
    omega

namespace Program

variable {file : String}

theorem complete_place_iff {index cursor : Nat} {pool : Array Constant} {ms : List Method} :
    (place file index cursor pool ms).complete = true ↔
      (ms.map Method.name).Nodup ∧ ∀ m ∈ ms, ∀ c ∈ pool, c.name ≠ m.name := by
  induction ms generalizing index cursor pool with
  | nil => simp [place]
  | cons m rest ih =>
    rw [place]
    cases hfind : pool.find? fun c => c.name == m.name with
    | some taken =>
      have hmem := Array.mem_of_find?_eq_some hfind
      have hname : taken.name = m.name := by simpa using Array.find?_some hfind
      simp only [Bool.false_eq_true, false_iff, not_and, not_forall]
      intro _
      exact ⟨m, List.mem_cons_self, taken, hmem, fun hne => hne hname⟩
    | none =>
      have hfresh : ∀ c ∈ pool, c.name ≠ m.name := by simpa using hfind
      simp only [ih, List.map_cons, List.nodup_cons, List.forall_mem_cons, Array.mem_push]
      constructor
      · rintro ⟨hnodup, hpool⟩
        refine ⟨⟨fun hm => ?_, hnodup⟩, hfresh, fun x hx c hc => hpool x hx c (.inl hc)⟩
        obtain ⟨x, hx, hxname⟩ := List.mem_map.1 hm
        exact hpool x hx _ (.inr rfl) hxname.symm
      · rintro ⟨⟨hm, hnodup⟩, _, hpool⟩
        refine ⟨hnodup, fun x hx c hc => ?_⟩
        rcases hc with hc | rfl
        · exact hpool x hx c hc
        · exact fun hxname => hm (List.mem_map.2 ⟨x, hx, hxname.symm⟩)

/-- The placing reports an error exactly where it stops. -/
theorem quiet_place_iff {index cursor : Nat} {pool : Array Constant} {ms : List Method} :
    Quiet (place file index cursor pool ms).events ↔
      (place file index cursor pool ms).complete = true := by
  induction ms generalizing index cursor pool with
  | nil => simp [place]
  | cons m rest ih =>
    rw [place]
    cases pool.find? fun c => c.name == m.name with
    | some taken => simp [Problem.isError_event, Problem.severity]
    | none => simpa [Event.isError] using ih

theorem place_of_complete {index cursor : Nat} {pool : Array Constant} {ms : List Method}
    (h : (place file index cursor pool ms).complete = true) :
    (place file index cursor pool ms).methods = placedFrom cursor ms ∧
      (place file index cursor pool ms).pool.toList =
        pool.toList ++ (placedFrom cursor ms).map Method.constant := by
  induction ms generalizing index cursor pool with
  | nil => simp [place, placedFrom]
  | cons m rest ih =>
    rw [place] at h ⊢
    cases hfind : pool.find? fun c => c.name == m.name with
    | some taken => simp [hfind] at h
    | none =>
      simp only [hfind] at h
      obtain ⟨hmethods, hpool⟩ := ih h
      simp only [hmethods, hpool, placedFrom, Array.toList_push, List.map_cons, List.append_assoc,
        List.cons_append, List.nil_append, true_and]
      rfl

/-- Whether or not all methods are placed, constants are only added behind the others. -/
theorem prefix_pool_place (file : String) (index cursor : Nat) (pool : Array Constant)
    (ms : List Method) : pool.toList <+: (place file index cursor pool ms).pool.toList := by
  induction ms generalizing index cursor pool with
  | nil => exact List.prefix_rfl
  | cons m rest ih =>
    rw [place]
    cases pool.find? fun c => c.name == m.name with
    | some taken => exact List.prefix_rfl
    | none =>
      refine List.IsPrefix.trans ?_ (ih _ _ _)
      rw [Array.toList_push]
      exact List.prefix_append _ _

/-- Whether or not all methods are placed, nothing but offsets changes. -/
theorem forall₂_place {R : Method → Method → Prop} (hrefl : ∀ m, R m m)
    (hoffset : ∀ m offset, R m { m with offset }) (index cursor : Nat) (pool : Array Constant)
    (ms : List Method) : List.Forall₂ R ms (place file index cursor pool ms).methods := by
  induction ms generalizing index cursor pool with
  | nil => exact .nil
  | cons m rest ih =>
    rw [place]
    cases pool.find? fun c => c.name == m.name with
    | some taken => exact List.forall₂_same.2 fun x _ => hrefl x
    | none => exact .cons (hoffset m _) (ih _ _ _)

end Program

end IjvmAsm
