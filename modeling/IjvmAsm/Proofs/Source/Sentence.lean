import IjvmAsm.Proofs.Text.Decimal
import IjvmAsm.Source.Line

/-!
# Sentences

A line of items with single spaces between them is split into these items, be it into tokens or
into words. Identifiers, mnemonics and numerals are items: they are made of characters that can
stand in names. A line of such characters and of marks that begin no comment is read as it is
written.
-/

namespace IjvmAsm

namespace Source

structure Item (text : String) : Prop where
  nonempty : text.toList ≠ []
  named : ∀ c ∈ text.toList, isNameChar c = true

def sentence (first : String) (more : List String) : String :=
  first ++ String.join (more.map fun text => " " ++ text)

theorem item_of_isIdentifier {name : String} (h : isIdentifier name = true) : Item name := by
  obtain ⟨c, rest, hname, _⟩ := exists_head_of_isIdentifier h
  exact ⟨by rw [hname]; exact List.cons_ne_nil _ _, fun c => isNameChar_of_mem h⟩

namespace Item

variable {text : String}

theorem solid (h : Item text) : ∀ c ∈ text.toList, Text.isBlank c = false :=
  fun c hc => isBlank_of_isNameChar (h.named c hc)

theorem notMem (h : Item text) {c : Char} (hc : isNameChar c = false) : c ∉ text.toList := by
  intro hmem
  rw [h.named c hmem] at hc
  cases hc

theorem isWord (h : Item text) : IsWord text.toList := by
  cases htext : text.toList with
  | nil => exact absurd htext h.nonempty
  | cons c rest =>
    refine .bare ?_ (htext ▸ h.solid)
    rintro rfl
    exact h.notMem (c := '\'') (by decide) (htext ▸ List.mem_cons_self)

theorem startsSolid (h : Item text) : Text.StartsSolid text.toList :=
  fun c hc => h.solid c (List.mem_of_head? hc)

theorem endsSolid (h : Item text) : Text.StartsSolid text.toList.reverse :=
  fun c hc => h.solid c (List.mem_reverse.1 (List.mem_of_head? hc))

/-- An item is a word of its own. -/
theorem words (h : Item text) : Text.words text.toList = [text.toList] :=
  Text.words_of_solid h.nonempty h.solid

end Item

variable {first : String} {more : List String}

theorem toList_sentence (first : String) (more : List String) :
    (sentence first more).toList = first.toList ++ more.flatMap fun text => ' ' :: text.toList := by
  simp only [sentence, String.toList_append, String.toList_join, List.flatMap_map]
  rfl

theorem parted_sentence (hfirst : Item first) (hmore : ∀ text ∈ more, Item text) :
    Parted (sentence first more).toList ((first :: more).map String.toList) := by
  rw [toList_sentence]
  induction more generalizing first with
  | nil =>
    rw [List.flatMap_nil, List.append_nil]
    exact .of_isWord hfirst.isWord
  | cons text texts ih =>
    obtain ⟨htext, htexts⟩ := List.forall_mem_cons.1 hmore
    rw [List.flatMap_cons, List.cons_append]
    exact (ih htext htexts).append_cons hfirst.isWord (by decide)

theorem tokensOf_sentence (hfirst : Item first) (hmore : ∀ text ∈ more, Item text) :
    tokensOf (sentence first more) = first :: more := by
  rw [tokensOf, (parted_sentence hfirst hmore).tokens_eq, List.map_map]
  refine (List.map_congr_left fun text _ => ?_).trans (List.map_id _)
  exact String.ofList_toList

theorem startsSolid_sentence (hfirst : Item first) : Text.StartsSolid (sentence first more).toList := by
  intro c hc
  rw [toList_sentence, List.head?_append_of_ne_nil _ hfirst.nonempty] at hc
  exact hfirst.startsSolid c hc

theorem endsSolid_sentence (hfirst : Item first) (hmore : ∀ text ∈ more, Item text) :
    Text.StartsSolid (sentence first more).toList.reverse := by
  rw [toList_sentence]
  rcases List.eq_nil_or_concat' more with rfl | ⟨texts, text, rfl⟩
  · rw [List.flatMap_nil, List.append_nil]
    exact hfirst.endsSolid
  · have hlast : Item text := hmore text (List.mem_append_right _ List.mem_cons_self)
    have hne : text.toList.reverse ≠ [] := by
      rw [ne_eq, List.reverse_eq_nil_iff]
      exact hlast.nonempty
    intro c hc
    rw [List.flatMap_append, List.flatMap_singleton, List.reverse_append, List.reverse_append,
      List.reverse_cons, List.append_assoc, List.append_assoc, List.head?_append_of_ne_nil _ hne] at hc
    exact hlast.endsSolid c hc

def isLineChar (c : Char) : Bool :=
  isNameChar c || c == ' ' || c == '.' || c == ':' || c == ',' || c == '(' || c == ')'

theorem isLineChar_of_isNameChar {c : Char} (h : isNameChar c = true) : isLineChar c = true := by
  simp only [isLineChar, h, Bool.true_or]

theorem Item.line (h : Item first) : ∀ c ∈ first.toList, isLineChar c = true :=
  fun c hc => isLineChar_of_isNameChar (h.named c hc)

theorem isLineChar_of_mem_sentence (hfirst : Item first) (hmore : ∀ text ∈ more, Item text)
    {c : Char} (h : c ∈ (sentence first more).toList) : isNameChar c = true ∨ c = ' ' := by
  rw [toList_sentence, List.mem_append, List.mem_flatMap] at h
  rcases h with h | ⟨text, htext, h⟩
  · exact .inl (hfirst.named c h)
  · rcases List.mem_cons.1 h with rfl | h
    · exact .inr rfl
    · exact .inl ((hmore text htext).named c h)

/-- A line that is read as it is written. -/
structure Written (text : String) : Prop where
  clean : Line.clean text = text
  unbroken : '\n' ∉ text.toList ∧ '\r' ∉ text.toList

theorem map_text_numbered {texts : List String} (h : ∀ text ∈ texts, Written text) (last : Nat) :
    (numbered last texts).map Line.text = texts := by
  induction texts generalizing last with
  | nil => rfl
  | cons text rest ih =>
    obtain ⟨htext, hrest⟩ := List.forall_mem_cons.1 h
    rw [numbered, List.map_cons, ih hrest, htext.clean]

/-- Lines that are read as they are written are the lines of their source. -/
theorem ofBytes_unlines {texts : List String} (h : ∀ text ∈ texts, Written text) :
    (Lines.ofBytes (Text.unlines texts)).intact = true ∧
      (Lines.ofBytes (Text.unlines texts)).lines.map Line.text = texts := by
  rw [Lines.ofBytes, Text.ofBytes_unlines fun text htext => (h text htext).unbroken]
  exact ⟨rfl, map_text_numbered h 0⟩

end Source

namespace Assembly

variable {first : String} {more : List String}

/-- No label stands in front of a sentence. -/
theorem splitLabel_sentence (hfirst : Source.Item first) (hmore : ∀ text ∈ more, Source.Item text) :
    splitLabel (Source.sentence first more) = none := by
  have hcolon : ':' ∉ (Source.sentence first more).toList := by
    intro hc
    rcases Source.isLineChar_of_mem_sentence hfirst hmore hc with hname | hspace
    · revert hname
      decide
    · revert hspace
      decide
  rw [splitLabel, Text.cutAt_of_notMem hcolon]

end Assembly

end IjvmAsm
