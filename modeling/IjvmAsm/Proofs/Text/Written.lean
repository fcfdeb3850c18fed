import IjvmAsm.Proofs.Text.Utf8
import IjvmAsm.Text.Split
import IjvmAsm.Text.Lines
import Mathlib.Data.List.Chain
import Mathlib.Data.List.Infix
import Mathlib.Data.List.TakeWhile
import Mathlib.Tactic.SplitIfs

/-!
# Texts that are read as they are written

Trimming leaves a text alone that begins and ends without blanks, and dropping comments one without
two slashes side by side. Lines that are written one below the other are the lines that are read.
-/

namespace IjvmAsm.Text

theorem toNat_toUpper (c : Char) :
    c.toUpper.toNat = if 97 ≤ c.toNat ∧ c.toNat ≤ 122 then c.toNat - 32 else c.toNat := by
  have hlow : 'a'.val ≤ c.val ↔ 97 ≤ c.toNat := Iff.rfl
  have hhigh : c.val ≤ 'z'.val ↔ c.toNat ≤ 122 := Iff.rfl
  unfold Char.toUpper
  simp only [hlow, hhigh]
  split_ifs with h
  · change (c.val + ('A'.val - 'a'.val)).toNat = _
    have hval : c.val.toNat = c.toNat := rfl
    have hshift : ('A'.val - 'a'.val).toNat = 2 ^ 32 - 32 := by decide
    rw [UInt32.toNat_add, hshift, hval]
    omega
  · rfl

theorem toUpper_eq_iff {c d : Char} (hd : d.toNat < 65) : c.toUpper = d ↔ c = d := by
  rw [← Char.toNat_inj, ← Char.toNat_inj, toNat_toUpper]
  split_ifs with h <;> omega

theorem isBlank_toUpper (c : Char) : isBlank c.toUpper = isBlank c := by
  unfold isBlank
  simp only [toNat_toUpper]
  split_ifs with h
  · rw [Bool.eq_iff_iff]
    simp only [Bool.or_eq_true, Bool.and_eq_true, decide_eq_true_eq, beq_iff_eq]
    omega
  · rfl

theorem toUpper_toUpper (c : Char) : c.toUpper.toUpper = c.toUpper := by
  rw [← Char.toNat_inj, toNat_toUpper c.toUpper, toNat_toUpper]
  split_ifs <;> omega

def StartsSolid (cs : List Char) : Prop := ∀ c, cs.head? = some c → isBlank c = false

theorem startsSolid_trimBlanks (cs : List Char) : StartsSolid (trimBlanks cs) := by
  intro c hc
  have hprefix : trimBlanks cs <+: cs.dropWhile isBlank := by
    have hsuffix := List.dropWhile_suffix (l := (cs.dropWhile isBlank).reverse) isBlank
    rw [trimBlanks, ← List.reverse_suffix, List.reverse_reverse]
    exact hsuffix
  obtain ⟨rest, hrest⟩ := hprefix
  have hhead : (cs.dropWhile isBlank).head? = some c := by
    rw [← hrest, List.head?_append, hc, Option.some_or]
  have hfirst := List.head?_dropWhile_not isBlank cs
  rw [hhead] at hfirst
  exact hfirst

theorem trimBlanks_eq_self {cs : List Char} (hfirst : StartsSolid cs)
    (hlast : StartsSolid cs.reverse) : trimBlanks cs = cs := by
  have hdrop : ∀ ds : List Char, StartsSolid ds → ds.dropWhile isBlank = ds := by
    intro ds hds
    cases ds with
    | nil => rfl
    | cons d rest => rw [List.dropWhile_cons, hds d rfl]; rfl
  rw [trimBlanks, hdrop cs hfirst, hdrop _ hlast, List.reverse_reverse]

theorem trimBlanks_append_left {blanks : List Char} (h : ∀ c ∈ blanks, isBlank c = true)
    (cs : List Char) : trimBlanks (blanks ++ cs) = trimBlanks cs := by
  rw [trimBlanks, List.dropWhile_append_of_pos h, trimBlanks]

theorem trimBlanks_append_right {blanks : List Char} (h : ∀ c ∈ blanks, isBlank c = true)
    (cs : List Char) : trimBlanks (cs ++ blanks) = trimBlanks cs := by
  have hreverse : ∀ c ∈ blanks.reverse, isBlank c = true :=
    fun c hc => h c (List.mem_reverse.1 hc)
  have hblanks : blanks.dropWhile isBlank = [] := List.dropWhile_eq_nil_iff.2 h
  rw [trimBlanks, trimBlanks, List.dropWhile_append]
  split_ifs with hempty
  · rw [hblanks, List.isEmpty_iff.1 hempty]
  · rw [List.reverse_append, List.dropWhile_append_of_pos hreverse]

theorem trimBlanks_of_blank {blanks : List Char} (h : ∀ c ∈ blanks, isBlank c = true) :
    trimBlanks blanks = [] := trimBlanks_append_right h []

/-- A solid character at the beginning is not trimmed away. -/
theorem head?_trimBlanks {c : Char} {cs : List Char} (hsolid : isBlank c = false) :
    (trimBlanks (c :: cs)).head? = some c := by
  have hdrop : (c :: cs).dropWhile isBlank = c :: cs := by
    rw [List.dropWhile_cons, hsolid]
    rfl
  have hlast : ([c] : List Char).dropWhile isBlank = [c] := by
    rw [List.dropWhile_cons, hsolid]
    rfl
  rw [trimBlanks, hdrop, List.reverse_cons, List.dropWhile_append, hlast]
  split_ifs
  · rfl
  · rw [List.reverse_append]
    rfl

def Commentless (cs : List Char) : Prop := cs.IsChain fun c d => ¬ (c = '/' ∧ d = '/')

theorem commentless_of_notMem {cs : List Char} (h : '/' ∉ cs) : Commentless cs := by
  induction cs with
  | nil => exact .nil
  | cons c rest ih =>
    rw [List.mem_cons, not_or] at h
    exact List.isChain_cons.2 ⟨fun d _ hslash => h.1 hslash.1.symm, ih h.2⟩

theorem beforeComment_eq_self {cs : List Char} (h : Commentless cs) : beforeComment cs = cs := by
  induction cs with
  | nil => rfl
  | cons c rest ih =>
    obtain ⟨hhead, hrest⟩ := List.isChain_cons.1 h
    rw [beforeComment, if_neg fun hslash => hhead _ hslash.2 ⟨hslash.1, rfl⟩, ih hrest]

theorem commentless_beforeComment (cs : List Char) : Commentless (beforeComment cs) := by
  induction cs with
  | nil => exact .nil
  | cons c rest ih =>
    rw [beforeComment]
    split_ifs with hhead
    · exact .nil
    · refine List.isChain_cons.2 ⟨fun d hd hslash => hhead ⟨hslash.1, ?_⟩, ih⟩
      cases rest with
      | nil => cases hd
      | cons d' more =>
        rw [beforeComment] at hd
        split_ifs at hd
        · cases hd
        · cases hd
          rw [hslash.2, List.head?_cons]

/-- No comment begins where two texts meet at some other character. -/
theorem Commentless.append_cons {front back : List Char} (hfront : Commentless front)
    (hback : Commentless back) {c : Char} (hc : c ≠ '/') : Commentless (front ++ c :: back) := by
  refine List.IsChain.append hfront (List.isChain_cons.2 ⟨?_, hback⟩) ?_
  · rintro d _ ⟨rfl, _⟩
    exact hc rfl
  · rintro b _ d hd ⟨_, rfl⟩
    cases hd
    exact hc rfl

theorem Commentless.part {cs part : List Char} (h : Commentless cs) (hpart : part <:+: cs) :
    Commentless part := by
  obtain ⟨front, back, rfl⟩ := hpart
  exact (List.IsChain.left_of_append h).right_of_append

theorem Commentless.toUpper {cs : List Char} (h : Commentless cs) :
    Commentless (cs.map Char.toUpper) := by
  refine List.isChain_map_of_isChain _ (fun c d hcd hslash => hcd ?_) h
  rw [toUpper_eq_iff (by decide), toUpper_eq_iff (by decide)] at hslash
  exact hslash

theorem mem_splitAt {α : Type} {p : α → Bool} {xs piece : List α} (h : piece ∈ splitAt p xs) :
    (∀ a ∈ piece, p a = false) ∧ piece <:+: xs := by
  have hhead : ∀ xs : List α, ∃ first more, splitAt p xs = first :: more ∧
      (∀ a ∈ first, p a = false) ∧ first <+: xs ∧
      ∀ piece ∈ more, (∀ a ∈ piece, p a = false) ∧ piece <:+: xs := by
    intro xs
    induction xs with
    | nil => exact ⟨[], [], rfl, nofun, List.prefix_refl _, nofun⟩
    | cons a rest ih =>
      obtain ⟨first, more, hsplit, hsolid, hprefix, hmore⟩ := ih
      have hstep : ∀ piece ∈ more, (∀ a ∈ piece, p a = false) ∧ piece <:+: a :: rest :=
        fun piece hpiece => ⟨(hmore piece hpiece).1, (hmore piece hpiece).2.trans
          (List.suffix_cons a rest).isInfix⟩
      rw [splitAt, hsplit]
      by_cases ha : p a = true
      · refine ⟨[], first :: more, if_pos ha, nofun, List.nil_prefix, ?_⟩
        refine List.forall_mem_cons.2 ⟨⟨hsolid, ?_⟩, hstep⟩
        exact hprefix.isInfix.trans (List.suffix_cons a rest).isInfix
      · refine ⟨a :: first, more, if_neg ha, ?_, ?_, hstep⟩
        · exact List.forall_mem_cons.2 ⟨Bool.eq_false_iff.2 ha, hsolid⟩
        · exact List.cons_prefix_cons.2 ⟨rfl, hprefix⟩
  obtain ⟨first, more, hsplit, hsolid, hprefix, hmore⟩ := hhead xs
  rw [hsplit] at h
  rcases List.mem_cons.1 h with rfl | h
  · exact ⟨hsolid, hprefix.isInfix⟩
  · exact hmore piece h

theorem mem_words {cs word : List Char} (h : word ∈ words cs) :
    word ≠ [] ∧ (∀ c ∈ word, isBlank c = false) ∧ word <:+: cs := by
  obtain ⟨hmem, hempty⟩ := List.mem_filter.1 h
  refine ⟨?_, mem_splitAt hmem⟩
  rintro rfl
  cases hempty

theorem cutAt_append_cons {α : Type} {p : α → Bool} {before after : List α} {a : α}
    (hbefore : ∀ b ∈ before, p b = false) (ha : p a = true) :
    cutAt p (before ++ a :: after) = some (before, after) := by
  induction before with
  | nil => simp [cutAt, ha]
  | cons b rest ih =>
    obtain ⟨hb, hrest⟩ := List.forall_mem_cons.1 hbefore
    rw [List.cons_append, cutAt, hb, ih hrest]
    rfl

def unlines (texts : List String) : List UInt8 :=
  texts.flatMap fun text => Utf8.encode text ++ [0x0A]

theorem splitAt_append_cons {α : Type} {p : α → Bool} {before after : List α} {a : α}
    (hbefore : ∀ b ∈ before, p b = false) (ha : p a = true) :
    splitAt p (before ++ a :: after) = before :: splitAt p after := by
  induction before with
  | nil => rw [List.nil_append, splitAt, if_pos ha]
  | cons b rest ih =>
    obtain ⟨hb, hrest⟩ := List.forall_mem_cons.1 hbefore
    rw [List.cons_append, splitAt, ih hrest, if_neg (by simp [hb])]

section Item

variable {α : Type} [BEq α] [LawfulBEq α] {a : α} {xs before after : List α}

theorem beq_eq_false_of_notMem (h : a ∉ xs) : ∀ b ∈ xs, (b == a) = false := by
  intro b hb
  rw [beq_eq_false_iff_ne]
  rintro rfl
  exact h hb

theorem cutAt_of_notMem (h : a ∉ xs) : cutAt (· == a) xs = none :=
  cutAt_eq_none_iff.2 (beq_eq_false_of_notMem h)

/-- A text is cut where an item stands for the first time. -/
theorem cutAt_first (h : a ∉ before) :
    cutAt (· == a) (before ++ a :: after) = some (before, after) :=
  cutAt_append_cons (beq_eq_false_of_notMem h) (beq_self_eq_true a)

theorem splitAt_first (h : a ∉ before) :
    splitAt (· == a) (before ++ a :: after) = before :: splitAt (· == a) after :=
  splitAt_append_cons (beq_eq_false_of_notMem h) (beq_self_eq_true a)

end Item

/-- A text without blanks is a word. -/
theorem words_of_solid {word : List Char} (hne : word ≠ [])
    (hsolid : ∀ c ∈ word, isBlank c = false) : words word = [word] := by
  have hsplit : ∀ cs : List Char, (∀ c ∈ cs, isBlank c = false) → splitAt isBlank cs = [cs] := by
    intro cs hcs
    induction cs with
    | nil => rfl
    | cons c rest ih =>
      obtain ⟨hc, hrest⟩ := List.forall_mem_cons.1 hcs
      rw [splitAt, ih hrest, if_neg (by simp [hc])]
  rw [words, hsplit word hsolid, List.filter_cons_of_pos (by simpa using hne), List.filter_nil]

/-- The first word of a text, and those behind the blank that ends it. -/
theorem words_append_cons {word : List Char} (hne : word ≠ [])
    (hsolid : ∀ c ∈ word, isBlank c = false) {c : Char} (hc : isBlank c = true)
    (rest : List Char) : words (word ++ c :: rest) = word :: words rest := by
  rw [words, splitAt_append_cons hsolid hc, List.filter_cons_of_pos (by simpa using hne), words]

/-- Pieces that each have a line feed behind them are lines but for their carriage returns. -/
theorem byteLines_flatMap {pieces : List (List UInt8)} (h : ∀ piece ∈ pieces, 0x0A ∉ piece) :
    byteLines (pieces.flatMap (· ++ [0x0A])) = pieces.map dropReturn := by
  unfold byteLines
  induction pieces with
  | nil => rfl
  | cons piece rest ih =>
    obtain ⟨hpiece, hrest⟩ := List.forall_mem_cons.1 h
    rw [List.flatMap_cons, List.append_assoc, List.singleton_append, splitAt_first hpiece]
    obtain ⟨first, more, hsplit⟩ := List.exists_cons_of_ne_nil
      (splitAt_ne_nil (· == 0x0A) (rest.flatMap (· ++ [0x0A])))
    rw [hsplit, closeLines, ← hsplit, ih hrest, List.map_cons]
    exact List.cons_ne_nil _ _

theorem decode_encode (texts : List String) :
    Lines.decode (texts.map Utf8.encode) = ⟨texts, true⟩ := by
  induction texts with
  | nil => rfl
  | cons text rest ih => rw [List.map_cons, Lines.decode, Utf8.text?_encode, ih]

theorem feed_notMem_encode {text : String} (h : '\n' ∉ text.toList) : 0x0A ∉ Utf8.encode text :=
  Utf8.notMem_encode (by decide) h

theorem ofBytes_unlines {texts : List String}
    (h : ∀ text ∈ texts, '\n' ∉ text.toList ∧ '\r' ∉ text.toList) :
    Lines.ofBytes (unlines texts) = ⟨texts, true⟩ := by
  have hkept : ∀ text ∈ texts, dropReturn (Utf8.encode text) = Utf8.encode text := by
    intro text htext
    rw [dropReturn, if_neg]
    intro hlast
    exact Utf8.notMem_encode (by decide) (h text htext).2 (List.mem_of_getLast? hlast)
  have hlines : byteLines (unlines texts) = texts.map Utf8.encode := by
    have hpieces : unlines texts = (texts.map Utf8.encode).flatMap (· ++ [0x0A]) := by
      rw [List.flatMap_map, unlines]
    rw [hpieces, byteLines_flatMap (List.forall_mem_map.2 fun text htext =>
      feed_notMem_encode (h text htext).1), List.map_map]
    exact List.map_congr_left hkept
  rw [Lines.ofBytes, hlines, decode_encode]

/-- Any lines without line feeds can be written, each with a carriage return and a line feed behind
it. -/
theorem exists_ofBytes {texts : List String} (h : ∀ text ∈ texts, '\n' ∉ text.toList) :
    ∃ bytes, Lines.ofBytes bytes = ⟨texts, true⟩ := by
  let returned : String → List UInt8 := fun text => Utf8.encode text ++ [0x0D]
  have hnofeed : ∀ text ∈ texts, 0x0A ∉ returned text := by
    intro text htext hfeed
    rcases List.mem_append.1 hfeed with hfeed | hfeed
    · exact feed_notMem_encode (h text htext) hfeed
    · cases List.mem_singleton.1 hfeed
  have hdropped : dropReturn ∘ returned = Utf8.encode := by
    funext text
    have hlast : (returned text).getLast? = some 0x0D := List.getLast?_concat
    rw [Function.comp_apply, dropReturn, if_pos hlast, List.dropLast_concat]
  refine ⟨(texts.map returned).flatMap (· ++ [0x0A]), ?_⟩
  rw [Lines.ofBytes, byteLines_flatMap (List.forall_mem_map.2 hnofeed), List.map_map, hdropped,
    decode_encode]

theorem feed_notMem_closeLines {pieces : List (List UInt8)} (h : ∀ piece ∈ pieces, 0x0A ∉ piece) :
    ∀ line ∈ closeLines pieces, 0x0A ∉ line := by
  have hdrop : ∀ piece : List UInt8, 0x0A ∉ piece → 0x0A ∉ dropReturn piece := by
    intro piece hpiece hfeed
    unfold dropReturn at hfeed
    split_ifs at hfeed
    · exact hpiece (List.mem_of_mem_dropLast hfeed)
    · exact hpiece hfeed
  induction pieces using closeLines.induct with
  | case1 => exact nofun
  | case2 last hempty => simp only [closeLines, hempty, ↓reduceIte, List.not_mem_nil, false_implies,
      implies_true]
  | case3 last hempty =>
    simp only [closeLines, hempty, Bool.false_eq_true, ↓reduceIte]
    exact h
  | case4 piece rest hrest ih =>
    obtain ⟨hpiece, hmore⟩ := List.forall_mem_cons.1 h
    rw [closeLines]
    · exact List.forall_mem_cons.2 ⟨hdrop piece hpiece, ih hmore⟩
    · exact hrest

/-- No line that is read holds a line feed. -/
theorem feed_notMem_readable {bytes : List UInt8} {text : String}
    (h : text ∈ (Lines.ofBytes bytes).readable) : '\n' ∉ text.toList := by
  have hlines : ∀ line ∈ byteLines bytes, 0x0A ∉ line :=
    feed_notMem_closeLines fun piece hpiece hfeed => by
      have hsplit := (mem_splitAt hpiece).1 0x0A hfeed
      cases hsplit
  rw [Lines.ofBytes] at h
  generalize byteLines bytes = lines at h hlines
  induction lines with
  | nil => cases h
  | cons line rest ih =>
    obtain ⟨hline, hrest⟩ := List.forall_mem_cons.1 hlines
    rw [Lines.decode] at h
    cases htext : Utf8.text? line with
    | none =>
      rw [htext] at h
      cases h
    | some decoded =>
      rw [htext] at h
      rcases List.mem_cons.1 h with rfl | h
      · obtain rfl := Utf8.text?_eq_some_iff.1 htext
        intro hfeed
        refine hline (List.mem_flatMap.2 ⟨'\n', hfeed, ?_⟩)
        exact List.mem_singleton.2 rfl
      · exact ih h hrest

end IjvmAsm.Text
