import Mathlib.Data.List.Forall2

/-!
# Lists whose items correspond

What holds of two lists each item of which is in a relation to the item at its place in the other.
-/

namespace IjvmAsm

variable {α β γ : Type} {R : α → β → Prop}

theorem exists_of_mem_right {xs : List α} {ys : List β} {b : β} (h : List.Forall₂ R xs ys)
    (hb : b ∈ ys) : ∃ a ∈ xs, R a b := by
  induction h with
  | nil => cases hb
  | cons hab hrest ih =>
    rcases List.mem_cons.1 hb with rfl | hb
    · exact ⟨_, List.mem_cons_self, hab⟩
    · obtain ⟨a, ha, hr⟩ := ih hb
      exact ⟨a, List.mem_cons_of_mem _ ha, hr⟩

theorem exists_of_mem_left {xs : List α} {ys : List β} {a : α} (h : List.Forall₂ R xs ys)
    (ha : a ∈ xs) : ∃ b ∈ ys, R a b :=
  exists_of_mem_right (R := fun b a => R a b) h.flip ha

theorem exists_getElem?_of_forall₂ {xs : List α} {ys : List β} (h : List.Forall₂ R xs ys) {n : Nat}
    {x : α} (hx : xs[n]? = some x) : ∃ y, ys[n]? = some y ∧ R x y := by
  induction h generalizing n with
  | nil => cases hx
  | cons hfirst _ ih =>
    cases n with
    | zero =>
      cases hx
      exact ⟨_, rfl, hfirst⟩
    | succ n => exact ih hx

theorem exists_append_of_forall₂ {xs xs' : List α} {zs : List β}
    (h : List.Forall₂ R (xs ++ xs') zs) :
    ∃ ys ys', zs = ys ++ ys' ∧ List.Forall₂ R xs ys ∧ List.Forall₂ R xs' ys' :=
  ⟨_, _, (List.take_append_drop xs.length zs).symm, (List.forall₂_take_append _ _ _ h.flip).flip,
    (List.forall₂_drop_append _ _ _ h.flip).flip⟩

theorem forall₂_iff_map_eq_map {f : α → γ} {g : β → γ} {xs : List α} {ys : List β} :
    List.Forall₂ (fun x y => f x = g y) xs ys ↔ xs.map f = ys.map g := by
  rw [← List.forall₂_eq_eq_eq, List.forall₂_map_left_iff, List.forall₂_map_right_iff]

/-- Lists whose items agree in what is read of them give the same list of it. -/
theorem map_eq_map_of_forall₂ {f : α → γ} {g : β → γ} (hfg : ∀ x y, R x y → f x = g y)
    {xs : List α} {ys : List β} (h : List.Forall₂ R xs ys) : xs.map f = ys.map g :=
  forall₂_iff_map_eq_map.1 (h.imp hfg)

theorem forall₂_and {S : α → β → Prop} {xs : List α} {ys : List β} (hr : List.Forall₂ R xs ys)
    (hs : List.Forall₂ S xs ys) : List.Forall₂ (fun x y => R x y ∧ S x y) xs ys :=
  List.forall₂_iff_zip.2
    ⟨hr.length_eq, fun hmem => ⟨List.forall₂_zip hr hmem, List.forall₂_zip hs hmem⟩⟩

theorem forall₂_trans {S : β → γ → Prop} {T : α → γ → Prop}
    (hT : ∀ {x y z}, R x y → S y z → T x z) {xs : List α} {ys : List β} {zs : List γ}
    (hr : List.Forall₂ R xs ys) (hs : List.Forall₂ S ys zs) : List.Forall₂ T xs zs := by
  induction hr generalizing zs with
  | nil =>
    cases hs
    exact .nil
  | cons hfirst _ ih =>
    obtain _ | ⟨hsecond, hrest⟩ := hs
    exact .cons (hT hfirst hsecond) (ih hrest)

end IjvmAsm
