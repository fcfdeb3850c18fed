import IjvmAsm.Proofs.Text.Written
import Mathlib.Data.List.Forall2

/-!
# Trimming and splitting

What is left of a text when it is trimmed stands between blanks and has none at its ends. Splitting
a text at a character gives the pieces without that character which it parts.
-/

namespace IjvmAsm.Text

variable {cs : List Char} {text : String} {c : Char}

def Padded (cs : List Char) (text : String) : Prop :=
  ∃ front back, (∀ c ∈ front, isBlank c = true) ∧ (∀ c ∈ back, isBlank c = true) ∧
    cs = front ++ text.toList ++ back

/-- A text with blanks around it, and what is left of it without them. -/
structure Trimmed (cs : List Char) (text : String) : Prop where
  padded : Padded cs text
  first : StartsSolid text.toList
  last : StartsSolid text.toList.reverse

theorem startsSolid_dropWhile (cs : List Char) : StartsSolid (cs.dropWhile isBlank) := by
  intro c hc
  have hfirst := List.head?_dropWhile_not isBlank cs
  rw [hc] at hfirst
  exact hfirst

theorem trimmed_ofList (cs : List Char) : Trimmed cs (String.ofList (trimBlanks cs)) := by
  let inner := cs.dropWhile isBlank
  have hback : (inner.reverse.dropWhile isBlank).reverse ++
      (inner.reverse.takeWhile isBlank).reverse = inner := by
    rw [← List.reverse_append, List.takeWhile_append_dropWhile, List.reverse_reverse]
  have hfront : cs.takeWhile isBlank ++ inner = cs := List.takeWhile_append_dropWhile
  constructor
  · refine ⟨cs.takeWhile isBlank, (inner.reverse.takeWhile isBlank).reverse, ?_, ?_, ?_⟩
    · exact fun c hc => List.mem_takeWhile_imp hc
    · exact fun c hc => List.mem_takeWhile_imp (List.mem_reverse.1 hc)
    · rw [String.toList_ofList, trimBlanks, List.append_assoc, hback, hfront]
  · rw [String.toList_ofList]
    exact startsSolid_trimBlanks cs
  · rw [String.toList_ofList, trimBlanks, List.reverse_reverse]
    exact startsSolid_dropWhile _

theorem Trimmed.ofList_trimBlanks (h : Trimmed cs text) :
    String.ofList (trimBlanks cs) = text := by
  obtain ⟨front, back, hfront, hback, rfl⟩ := h.padded
  rw [trimBlanks_append_right hback, trimBlanks_append_left hfront,
    trimBlanks_eq_self h.first h.last, String.ofList_toList]

/-- Nothing is left of a text if it is blank, and only then. -/
theorem isEmpty_trimBlanks_iff :
    (trimBlanks cs).isEmpty = true ↔ ∀ c ∈ cs, isBlank c = true := by
  rw [List.isEmpty_iff]
  constructor
  · intro hnil
    obtain ⟨front, back, hfront, hback, hsplit⟩ := (trimmed_ofList cs).padded
    rw [hsplit, String.toList_ofList, hnil, List.append_nil]
    exact fun c hc => (List.mem_append.1 hc).elim (hfront c) (hback c)
  · exact trimBlanks_of_blank

theorem isEmpty_trimBlanks_of_solid (h : ∃ c ∈ cs, isBlank c = false) :
    (trimBlanks cs).isEmpty = false := by
  rw [← Bool.not_eq_true, isEmpty_trimBlanks_iff]
  intro hblank
  obtain ⟨c, hc, hsolid⟩ := h
  rw [hblank c hc] at hsolid
  cases hsolid

theorem splitAt_eq_splitOn (c : Char) (cs : List Char) : splitAt (· == c) cs = cs.splitOn c := by
  induction cs with
  | nil => rfl
  | cons d rest ih =>
    rw [List.splitOn, List.splitOnP_cons_eq_if_modifyHead, ← List.splitOn, ← ih, splitAt]
    by_cases hd : (d == c) = true
    · rw [if_pos hd, if_pos hd]
    · rw [if_neg hd, if_neg hd]
      obtain ⟨piece, pieces, hsplit⟩ := List.exists_cons_of_ne_nil (splitAt_ne_nil (· == c) rest)
      rw [hsplit]
      rfl

theorem splitAt_intercalate {pieces : List (List Char)} (hne : pieces ≠ [])
    (hpieces : ∀ piece ∈ pieces, c ∉ piece) :
    splitAt (· == c) ([c].intercalate pieces) = pieces := by
  rw [splitAt_eq_splitOn, List.splitOn_intercalate c hpieces hne]

theorem intercalate_splitAt (c : Char) (cs : List Char) :
    [c].intercalate (splitAt (· == c) cs) = cs := by
  rw [splitAt_eq_splitOn, List.intercalate_splitOn]

theorem intercalate_cons (c : Char) (first : List Char) (more : List (List Char)) :
    [c].intercalate (first :: more) = first ++ more.flatMap (c :: ·) := by
  induction more generalizing first with
  | nil => rw [List.intercalate_singleton, List.flatMap_nil, List.append_nil]
  | cons next more ih =>
    rw [List.intercalate_cons_cons, ih, List.flatMap_cons, List.append_assoc]
    rfl

theorem mem_intercalate_iff {pieces : List (List Char)} {d : Char} (hd : d ≠ c) :
    d ∈ [c].intercalate pieces ↔ ∃ piece ∈ pieces, d ∈ piece := by
  cases pieces with
  | nil => simp
  | cons first more =>
    rw [intercalate_cons, List.mem_append, List.mem_flatMap]
    simp only [List.mem_cons, hd, false_or, exists_eq_or_imp]

end IjvmAsm.Text
