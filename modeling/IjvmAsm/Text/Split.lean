/-!
# Parts of texts

Cutting a list at the first element with a property, and splitting it at every such element.
Joining the pieces with what separated them gives the list back.

Blanks are the characters with the Unicode property `White_Space`: a text is trimmed of them, and
split at them into words. Two slashes begin a comment, which runs to the end of its line; there is
no quoting, and slashes inside quotes begin one too.
-/

namespace IjvmAsm.Text

variable {α : Type}

def cutAt (p : α → Bool) : List α → Option (List α × List α)
  | [] => none
  | a :: rest =>
    if p a then some ([], rest)
    else (cutAt p rest).map fun (before, after) => (a :: before, after)

theorem cutAt_eq_none_iff {p : α → Bool} {xs : List α} :
    cutAt p xs = none ↔ ∀ a ∈ xs, p a = false := by
  induction xs with
  | nil => simp [cutAt]
  | cons a rest ih => by_cases h : p a <;> simp [cutAt, h, ih]

theorem cutAt_eq_some {p : α → Bool} {xs before after : List α}
    (h : cutAt p xs = some (before, after)) :
    (∃ a, p a = true ∧ xs = before ++ a :: after) ∧ ∀ b ∈ before, p b = false := by
  induction xs generalizing before after with
  | nil => simp [cutAt] at h
  | cons a rest ih =>
    by_cases ha : p a
    · simp only [cutAt, ha, ↓reduceIte, Option.some.injEq, Prod.mk.injEq] at h
      obtain ⟨rfl, rfl⟩ := h
      exact ⟨⟨a, ha, rfl⟩, by simp⟩
    · simp only [cutAt, ha, Bool.false_eq_true, ↓reduceIte, Option.map_eq_some_iff,
        Prod.mk.injEq, Prod.exists] at h
      obtain ⟨before', after', h, rfl, rfl⟩ := h
      obtain ⟨⟨b, hb, rfl⟩, hall⟩ := ih h
      exact ⟨⟨b, hb, rfl⟩, by simpa [ha] using hall⟩

theorem length_after_cutAt {p : α → Bool} {xs before after : List α}
    (h : cutAt p xs = some (before, after)) : after.length < xs.length := by
  obtain ⟨⟨a, _, rfl⟩, _⟩ := cutAt_eq_some h
  simp only [List.length_append, List.length_cons]
  omega

/-- The pieces between the elements satisfying `p`; there is always one more than there are
such elements. -/
def splitAt (p : α → Bool) : List α → List (List α)
  | [] => [[]]
  | a :: rest =>
    if p a then [] :: splitAt p rest
    else match splitAt p rest with
      | [] => [[a]]
      | piece :: pieces => (a :: piece) :: pieces

theorem splitAt_ne_nil (p : α → Bool) (xs : List α) : splitAt p xs ≠ [] := by
  cases xs with
  | nil => simp [splitAt]
  | cons a rest =>
    by_cases h : p a
    · simp [splitAt, h]
    · simp only [splitAt, h, Bool.false_eq_true, ↓reduceIte]
      split <;> simp

def isBlank (c : Char) : Bool :=
  let n := c.toNat
  (0x09 ≤ n && n ≤ 0x0D) || n == 0x20 || n == 0x85 || n == 0xA0 || n == 0x1680 ||
    (0x2000 ≤ n && n ≤ 0x200A) || n == 0x2028 || n == 0x2029 || n == 0x202F || n == 0x205F ||
    n == 0x3000

def trimBlanks (cs : List Char) : List Char :=
  ((cs.dropWhile isBlank).reverse.dropWhile isBlank).reverse

def words (cs : List Char) : List (List Char) :=
  (splitAt isBlank cs).filter fun word => !word.isEmpty

end IjvmAsm.Text

namespace IjvmAsm

def beforeComment : List Char → List Char
  | [] => []
  | c :: rest =>
    if c = '/' ∧ rest.head? = some '/' then [] else c :: beforeComment rest

end IjvmAsm
