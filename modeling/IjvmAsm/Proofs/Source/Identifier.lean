import IjvmAsm.Assembly.Statement
import IjvmAsm.Proofs.Source.Word

/-!
# Identifiers

No character of an identifier is a blank, a quote, a comma, a colon or anything else that means
something in a line. So an identifier is a word, and a label in front of a statement is split off
as it was written.
-/

namespace IjvmAsm

namespace Source

variable {name : String} {c : Char}

theorem isNameChar_of_mem (h : isIdentifier name = true) (hc : c ∈ name.toList) :
    isNameChar c = true := by
  unfold isIdentifier at h
  cases hname : name.toList with
  | nil =>
    rw [hname] at hc
    cases hc
  | cons first rest =>
    rw [hname] at h hc
    rw [Bool.and_eq_true, List.all_eq_true] at h
    rcases List.mem_cons.1 hc with rfl | hc
    · simp only [isNameChar, Char.isAlphanum, h.1, Bool.true_or]
    · exact h.2 c hc

theorem notMem_of_isIdentifier (h : isIdentifier name = true) (hc : isNameChar c = false) :
    c ∉ name.toList := by
  intro hmem
  rw [isNameChar_of_mem h hmem] at hc
  cases hc

theorem isBlank_of_isNameChar (h : isNameChar c = true) : Text.isBlank c = false := by
  have hrange : 45 ≤ c.toNat ∧ c.toNat ≤ 122 := by
    change ((((decide (65 ≤ c.val ∧ c.val ≤ 90) ||
      (decide (97 ≤ c.val) && decide (c.val ≤ 122))) ||
        (decide (48 ≤ c.val) && decide (c.val ≤ 57))) || c == '_') || c == '-') = true at h
    simp only [Bool.or_eq_true, Bool.and_eq_true, decide_eq_true_eq, beq_iff_eq,
      UInt32.le_iff_toNat_le] at h
    change ((((65 ≤ c.toNat ∧ c.toNat ≤ 90) ∨ (97 ≤ c.toNat ∧ c.toNat ≤ 122)) ∨
      (48 ≤ c.toNat ∧ c.toNat ≤ 57)) ∨ _) ∨ _ at h
    rcases h with (h | rfl) | rfl
    · omega
    · decide
    · decide
  simp only [Text.isBlank, Bool.or_eq_false_iff, Bool.and_eq_false_iff, decide_eq_false_iff_not,
    beq_eq_false_iff_ne]
  omega

theorem exists_head_of_isIdentifier (h : isIdentifier name = true) :
    ∃ c rest, name.toList = c :: rest ∧ c.isAlpha = true := by
  unfold isIdentifier at h
  cases hname : name.toList with
  | nil => rw [hname] at h; cases h
  | cons c rest =>
    rw [hname, Bool.and_eq_true] at h
    exact ⟨c, rest, rfl, h.1⟩

end Source

namespace Assembly

theorem looksLikeLabel_of_isIdentifier {name : String} (h : Source.isIdentifier name = true) :
    looksLikeLabel name.toList = true := by
  obtain ⟨first, rest, hcons, hfirst⟩ := Source.exists_head_of_isIdentifier h
  have hall : ∀ c ∈ name.toList, (!(Text.isBlank c || c == '\'' || c == '"' || c == '`')) = true := by
    intro c hc
    have hsolid := Source.isBlank_of_isNameChar (Source.isNameChar_of_mem h hc)
    have hquotes : c ≠ '\'' ∧ c ≠ '"' ∧ c ≠ '`' := by
      refine ⟨?_, ?_, ?_⟩ <;> rintro rfl <;>
        exact Source.notMem_of_isIdentifier h (by decide) hc
    simp [hsolid, hquotes]
  have hhash : name.toList.head? ≠ some '#' := by
    rw [hcons, List.head?_cons]
    rintro ⟨⟩
    cases hfirst
  have hempty : name.toList.isEmpty = false := by rw [hcons]; rfl
  simp only [looksLikeLabel, hempty, bne_iff_ne.2 hhash, Bool.not_false, Bool.true_and,
    List.all_eq_true]
  exact hall

/-- A label in front of a text is split off as it was written, and the blanks around the colon and
behind the text are dropped. -/
theorem splitLabel_ofList {name : String} {blanks rest : List Char}
    (h : Source.isIdentifier name = true) (hblanks : ∀ c ∈ blanks, Text.isBlank c = true) :
    splitLabel (String.ofList (name.toList ++ blanks ++ ':' :: rest)) =
      some (name, String.ofList (Text.trimBlanks rest)) := by
  have hcolon : ':' ∉ name.toList ++ blanks := by
    intro hc
    rcases List.mem_append.1 hc with hc | hc
    · exact Source.notMem_of_isIdentifier h (by decide) hc
    · cases hblanks _ hc
  have hname : Text.trimBlanks (name.toList ++ blanks) = name.toList := by
    have hsolid : ∀ c ∈ name.toList, Text.isBlank c = false :=
      fun c hc => Source.isBlank_of_isNameChar (Source.isNameChar_of_mem h hc)
    rw [Text.trimBlanks_append_right hblanks]
    exact Text.trimBlanks_eq_self (fun c hc => hsolid c (List.mem_of_head? hc))
      fun c hc => hsolid c (List.mem_reverse.1 (List.mem_of_head? hc))
  rw [splitLabel, String.toList_ofList, Text.cutAt_first hcolon]
  simp only [hname, looksLikeLabel_of_isIdentifier h, ↓reduceIte, String.ofList_toList]

theorem splitLabel_label {name text : String} (h : Source.isIdentifier name = true)
    (hfirst : Text.StartsSolid text.toList) (hlast : Text.StartsSolid text.toList.reverse) :
    splitLabel (name ++ ": " ++ text) = some (name, text) := by
  have htext : (name ++ ": " ++ text).toList =
      name.toList ++ [] ++ ':' :: ' ' :: text.toList := by
    rw [String.toList_append, String.toList_append, List.append_nil, List.append_assoc]
    rfl
  have hnone : ∀ c ∈ ([] : List Char), Text.isBlank c = true := nofun
  have hrest : Text.trimBlanks (' ' :: text.toList) = text.toList :=
    Text.trimBlanks_eq_self hfirst hlast
  rw [← String.ofList_toList (s := name ++ ": " ++ text), htext, splitLabel_ofList h hnone, hrest,
    String.ofList_toList]

end Assembly

end IjvmAsm
