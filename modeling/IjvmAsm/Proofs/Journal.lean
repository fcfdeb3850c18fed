import IjvmAsm.Event

/-!
# Errors in journals

A journal counts as many errors as it holds events that report one. A journal without errors is
made of parts without errors.
-/

namespace IjvmAsm

def Event.isError : Event → Bool
  | diagnostic d => d.isError
  | remark .. => false

def Quiet (events : List Event) : Prop := ∀ e ∈ events, e.isError = false

@[simp] theorem quiet_nil : Quiet [] := by simp [Quiet]

@[simp] theorem quiet_cons {e : Event} {events : List Event} :
    Quiet (e :: events) ↔ e.isError = false ∧ Quiet events := List.forall_mem_cons

@[simp] theorem quiet_append {xs ys : List Event} : Quiet (xs ++ ys) ↔ Quiet xs ∧ Quiet ys :=
  List.forall_mem_append

theorem quiet_flatMap {α : Type} {f : α → List Event} {xs : List α} :
    Quiet (xs.flatMap f) ↔ ∀ a ∈ xs, Quiet (f a) := by
  simp only [Quiet, List.mem_flatMap]
  constructor
  · intro h a ha e he
    exact h e ⟨a, ha, he⟩
  · rintro h e ⟨a, ha, he⟩
    exact h a ha e he

namespace Journal

theorem errors_eq_countP (j : Journal) : j.errors = j.toList.countP Event.isError := by
  rw [errors, diagnostics, Array.countP_filterMap, ← Array.countP_toList]
  congr 1
  funext e
  cases e <;> rfl

theorem errors_eq_zero_iff (j : Journal) : j.errors = 0 ↔ Quiet j.toList := by
  rw [errors_eq_countP, List.countP_eq_zero]
  simp only [Quiet, Bool.not_eq_true]

@[simp] theorem errors_append (j k : Journal) : Journal.errors (j ++ k) = j.errors + k.errors := by
  simp only [errors_eq_countP, Array.toList_append, List.countP_append]

theorem errors_appendList (j : Journal) (events : List Event) :
    Journal.errors (j ++ events) = j.errors + events.countP Event.isError := by
  simp only [errors_eq_countP, Array.toList_appendList, List.countP_append]

/-- What is appended to a journal that stays without errors reports none. -/
theorem quiet_of_errors_appendList {j : Journal} {events : List Event}
    (h : Journal.errors (j ++ events) = 0) : Quiet events := by
  rw [errors_appendList, Nat.add_eq_zero_iff, List.countP_eq_zero] at h
  intro e he
  rw [← Bool.not_eq_true]
  exact h.2 e he

theorem toList_diagnostics_appendList (j : Journal) (events : List Event) :
    (diagnostics (j ++ events)).toList =
      j.diagnostics.toList ++ events.filterMap Event.diagnostic? := by
  rw [diagnostics, diagnostics, Array.toList_filterMap, Array.toList_filterMap,
    Array.toList_appendList, List.filterMap_append]

theorem toList_diagnostics_append (j k : Journal) :
    (diagnostics (j ++ k)).toList = j.diagnostics.toList ++ k.diagnostics.toList := by
  simp only [diagnostics, Array.toList_filterMap, Array.toList_append, List.filterMap_append]

theorem diagnostics_push_remark (j : Journal) (level : Level) (text : String) :
    diagnostics (j.push (.remark level text)) = j.diagnostics := by
  rw [diagnostics, diagnostics, ← Array.toList_inj, Array.toList_filterMap, Array.toList_filterMap,
    Array.toList_push, List.filterMap_append]
  exact List.append_nil _

/-- Remarks add nothing to what has been diagnosed. -/
theorem diagnostics_appendList {j : Journal} {events : List Event}
    (h : events.filterMap Event.diagnostic? = []) : diagnostics (j ++ events) = j.diagnostics := by
  rw [← Array.toList_inj, toList_diagnostics_appendList, h, List.append_nil]

theorem errors_push (j : Journal) (e : Event) :
    Journal.errors (j.push e) = j.errors + List.countP Event.isError [e] := by
  simp only [errors_eq_countP, Array.toList_push, List.countP_append]

end Journal

end IjvmAsm
