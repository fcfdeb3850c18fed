import IjvmAsm.Proofs.Text.Written
import IjvmAsm.Source.Token

/-!
# Words

A word can be written before other tokens and is a token of its own there: it holds no
blanks, or stands between single quotes. Putting a word in capitals leaves it a word.
-/

namespace IjvmAsm

namespace Source

inductive IsWord : List Char → Prop
  | bare {c : Char} {rest : List Char} (unquoted : c ≠ '\'')
      (solid : ∀ d ∈ c :: rest, Text.isBlank d = false) : IsWord (c :: rest)
  | quoted {body : List Char} (inside : '\'' ∉ body) : IsWord ('\'' :: (body ++ ['\'']))

theorem IsWord.exists_head {w : List Char} (h : IsWord w) :
    ∃ c rest, w = c :: rest ∧ Text.isBlank c = false := by
  cases h with
  | bare unquoted solid => exact ⟨_, _, rfl, solid _ List.mem_cons_self⟩
  | quoted inside => exact ⟨_, _, rfl, by decide⟩

theorem IsWord.toUpper {w : List Char} (h : IsWord w) : IsWord (w.map Char.toUpper) := by
  have hquote : ∀ c : Char, c.toUpper = '\'' ↔ c = '\'' := fun c => Text.toUpper_eq_iff (by decide)
  cases h with
  | bare unquoted solid =>
    refine .bare (by rwa [ne_eq, hquote]) ?_
    rw [← List.map_cons, List.forall_mem_map]
    intro d hd
    rw [Text.isBlank_toUpper, solid d hd]
  | @quoted body inside =>
    rw [List.map_cons, List.map_append]
    refine .quoted fun hmem => ?_
    obtain ⟨c, hc, hupper⟩ := List.mem_map.1 hmem
    rw [hquote] at hupper
    exact inside (hupper ▸ hc)

namespace Scan

variable {held body rest : List Char}

/-- A token that is not quoted runs up to the next blank, or to the end. -/
theorem run_bare_append (hbody : ∀ c ∈ body, Text.isBlank c = false)
    (hrest : ∀ c, rest.head? = some c → Text.isBlank c = true) :
    (bare held).run (body ++ rest) = (held.reverse ++ body) :: between.run rest := by
  induction body generalizing held with
  | nil =>
    rw [List.nil_append, List.append_nil]
    cases rest with
    | nil => rfl
    | cons c rest =>
      have hc := hrest c rfl
      rw [run_bare_cons, if_pos hc, run_between_cons, if_pos hc]
  | cons c body ih =>
    obtain ⟨hc, hbody⟩ := List.forall_mem_cons.1 hbody
    rw [List.cons_append, run_bare_cons, if_neg (by simp [hc]), ih hbody, List.reverse_cons,
      List.append_assoc, List.singleton_append]

theorem run_quoted_append (hbody : '\'' ∉ body) :
    (quoted held).run (body ++ '\'' :: rest) =
      (held.reverse ++ (body ++ ['\''])) :: between.run rest := by
  induction body generalizing held with
  | nil => rw [List.nil_append, run_quoted_cons, if_pos rfl, List.reverse_cons, List.nil_append]
  | cons c body ih =>
    rw [List.mem_cons, not_or] at hbody
    rw [List.cons_append, run_quoted_cons, if_neg (Ne.symm hbody.1), ih hbody.2, List.reverse_cons,
      List.append_assoc, List.singleton_append, List.cons_append]

theorem run_quoted_unclosed (hbody : '\'' ∉ body) :
    (quoted held).run body = [held.reverse ++ body] := by
  induction body generalizing held with
  | nil => exact congrArg (fun w => [w]) (List.append_nil _).symm
  | cons c body ih =>
    rw [List.mem_cons, not_or] at hbody
    rw [run_quoted_cons, if_neg (Ne.symm hbody.1), ih hbody.2, List.reverse_cons, List.append_assoc,
      List.singleton_append]

end Scan

/-- How a text falls into tokens. Blanks stand between words, and need not stand behind one that is
quoted; only the last token can be a quote that is not closed. -/
inductive Parted : List Char → List (List Char) → Prop
  | blanks {gap : List Char} (blank : ∀ c ∈ gap, Text.isBlank c = true) : Parted gap []
  | word (gap : List Char) {w rest : List Char} {ws : List (List Char)}
      (blank : ∀ c ∈ gap, Text.isBlank c = true) (word : IsWord w)
      (bounded : w.head? ≠ some '\'' → ∀ c, rest.head? = some c → Text.isBlank c = true)
      (more : Parted rest ws) : Parted (gap ++ (w ++ rest)) (w :: ws)
  | unclosed (gap : List Char) {body : List Char} (blank : ∀ c ∈ gap, Text.isBlank c = true)
      (inside : '\'' ∉ body) : Parted (gap ++ '\'' :: body) ['\'' :: body]

namespace Parted

variable {cs w : List Char} {ws : List (List Char)} {b : Char}

theorem cons_blank (h : Parted cs ws) (hb : Text.isBlank b = true) : Parted (b :: cs) ws := by
  cases h with
  | blanks blank => exact .blanks (List.forall_mem_cons.2 ⟨hb, blank⟩)
  | word gap blank word bounded more =>
    exact .word (b :: gap) (List.forall_mem_cons.2 ⟨hb, blank⟩) word bounded more
  | unclosed gap blank inside =>
    exact .unclosed (b :: gap) (List.forall_mem_cons.2 ⟨hb, blank⟩) inside

/-- A word stands in front of others and is parted from them by a blank. -/
theorem append_cons (h : Parted cs ws) (hw : IsWord w) (hb : Text.isBlank b = true) :
    Parted (w ++ b :: cs) (w :: ws) := by
  refine .word [] nofun hw (fun _ c hc => ?_) (h.cons_blank hb)
  cases hc
  exact hb

theorem of_isWord (hw : IsWord w) : Parted w [w] := by
  have h : Parted ([] ++ (w ++ [])) [w] :=
    .word [] nofun hw (fun _ _ hc => nomatch hc) (.blanks nofun)
  rwa [List.nil_append, List.append_nil] at h

/-- A text can be parted in one way only. -/
theorem tokens_eq (h : Parted cs ws) : tokens cs = ws := by
  have hgap : ∀ gap cs : List Char, (∀ c ∈ gap, Text.isBlank c = true) →
      tokens (gap ++ cs) = tokens cs := by
    intro gap cs hblank
    induction gap with
    | nil => rfl
    | cons c gap ih =>
      obtain ⟨hc, hblank⟩ := List.forall_mem_cons.1 hblank
      rw [List.cons_append, tokens, Scan.run_between_cons, if_pos hc]
      exact ih hblank
  have hquote : Text.isBlank '\'' = false := by decide
  induction h with
  | @blanks gap blank =>
    rw [← List.append_nil gap, hgap gap [] blank]
    rfl
  | word gap blank word bounded more ih =>
    rw [hgap _ _ blank, ← ih]
    cases word with
    | @bare c body unquoted solid =>
      obtain ⟨hc, hbody⟩ := List.forall_mem_cons.1 solid
      have hrest := bounded fun hhead => unquoted (Option.some.inj hhead)
      rw [tokens, List.cons_append, Scan.run_between_cons, if_neg (by simp [hc]), if_neg unquoted,
        Scan.run_bare_append hbody hrest]
      rfl
    | @quoted body inside =>
      rw [tokens, List.cons_append, Scan.run_between_cons, if_neg (by simp [hquote]), if_pos rfl,
        List.append_assoc, List.singleton_append, Scan.run_quoted_append inside]
      rfl
  | unclosed gap blank inside =>
    rw [hgap _ _ blank, tokens, Scan.run_between_cons, if_neg (by simp [hquote]), if_pos rfl,
      Scan.run_quoted_unclosed inside]
    rfl

/-- Every text can be parted. -/
theorem exists_parted (cs : List Char) : ∃ ws, Parted cs ws := by
  -- What stands behind a word is shorter than the text, but need not be its tail.
  induction hlength : cs.length using Nat.strong_induction_on generalizing cs with
  | _ length ih =>
    cases cs with
    | nil => exact ⟨[], .blanks nofun⟩
    | cons c rest =>
      rw [List.length_cons] at hlength
      by_cases hblank : Text.isBlank c = true
      · obtain ⟨ws, hws⟩ := ih rest.length (by omega) rest rfl
        exact ⟨ws, hws.cons_blank hblank⟩
      by_cases hquote : c = '\''
      · subst hquote
        by_cases hclosed : '\'' ∈ rest
        · obtain ⟨body, more, rfl, hinside⟩ := List.eq_append_cons_of_mem hclosed
          rw [List.length_append, List.length_cons] at hlength
          obtain ⟨ws, hws⟩ := ih more.length (by omega) more rfl
          have h := Parted.word [] nofun (.quoted hinside) (fun hne => absurd rfl hne) hws
          rw [List.nil_append, List.cons_append, List.append_assoc, List.singleton_append] at h
          exact ⟨_, h⟩
        · exact ⟨_, .unclosed [] nofun hclosed⟩
      · let solid : Char → Bool := fun c => !Text.isBlank c
        have hsplit : rest.takeWhile solid ++ rest.dropWhile solid = rest :=
          List.takeWhile_append_dropWhile
        have hle : (rest.dropWhile solid).length ≤ rest.length :=
          (List.dropWhile_sublist solid).length_le
        obtain ⟨ws, hws⟩ := ih (rest.dropWhile solid).length (by omega) _ rfl
        have hword : IsWord (c :: rest.takeWhile solid) := by
          refine .bare hquote (List.forall_mem_cons.2 ⟨Bool.eq_false_iff.2 hblank, fun d hd => ?_⟩)
          simpa [solid] using List.mem_takeWhile_imp hd
        have h := Parted.word [] nofun hword (fun _ d hd => ?_) hws
        · rw [List.nil_append, List.cons_append, hsplit] at h
          exact ⟨_, h⟩
        · have hfirst := List.head?_dropWhile_not solid rest
          rw [hd] at hfirst
          simpa [solid] using hfirst

end Parted

theorem parted_tokens (cs : List Char) : Parted cs (tokens cs) := by
  obtain ⟨ws, h⟩ := Parted.exists_parted cs
  rwa [h.tokens_eq]

theorem tokens_ne_nil {c : Char} (hc : Text.isBlank c = false) (cs : List Char) :
    tokens (c :: cs) ≠ [] := by
  intro hnil
  have hparted := parted_tokens (c :: cs)
  rw [hnil] at hparted
  generalize htext : c :: cs = text at hparted
  cases hparted with
  | blanks blank =>
    rw [blank c (htext ▸ List.mem_cons_self)] at hc
    cases hc

theorem tokens_append_cons {w : List Char} (h : IsWord w) {b : Char}
    (hb : Text.isBlank b = true) (rest : List Char) :
    tokens (w ++ b :: rest) = w :: tokens rest :=
  ((parted_tokens rest).append_cons h hb).tokens_eq

/-- A token with another behind it is a word. -/
theorem isWord_of_tokens {cs w w' : List Char} {ws : List (List Char)}
    (h : tokens cs = w :: w' :: ws) : IsWord w := by
  have hparted := parted_tokens cs
  rw [h] at hparted
  cases hparted with
  | word gap blank word bounded more => exact word

/-- Only a token that begins with a quote can hold a blank. -/
theorem quoted_or_solid_of_mem_tokens {cs w : List Char} (h : w ∈ tokens cs) :
    w.head? = some '\'' ∨ ∀ c ∈ w, Text.isBlank c = false := by
  have hparted := parted_tokens cs
  generalize tokens cs = ws at h hparted
  induction hparted with
  | blanks blank => cases h
  | word gap blank word bounded more ih =>
    rcases List.mem_cons.1 h with rfl | h
    · cases word with
      | bare unquoted solid => exact .inr solid
      | quoted inside => exact .inl rfl
    · exact ih h
  | unclosed gap blank inside =>
    rw [List.mem_singleton.1 h]
    exact .inl rfl

/-- The first token begins where the text does, if that is no blank. -/
theorem head?_of_tokens {c : Char} {cs w : List Char} {ws : List (List Char)}
    (hc : Text.isBlank c = false) (h : tokens (c :: cs) = w :: ws) : w.head? = some c := by
  have hfirst : ∀ gap rest : List Char, (∀ d ∈ gap, Text.isBlank d = true) →
      gap ++ rest = c :: cs → rest.head? = some c := by
    intro gap rest hblank heq
    cases gap with
    | nil => exact congrArg List.head? heq
    | cons d gap =>
      cases heq
      rw [hblank c List.mem_cons_self] at hc
      cases hc
  have hparted := parted_tokens (c :: cs)
  rw [h] at hparted
  generalize htext : c :: cs = text at hparted
  cases hparted with
  | word gap blank word bounded more =>
    have hhead := hfirst _ _ blank htext.symm
    obtain ⟨d, body, rfl, _⟩ := word.exists_head
    exact hhead
  | unclosed gap blank inside => exact hfirst _ _ blank htext.symm

end Source

end IjvmAsm
