import IjvmAsm.Proofs.Source.Word
import Mathlib.Data.List.Pairwise

/-!
# Where tokens stand

The tokens of a text are stretches of it that follow one another, and all that stands outside them
is blank. Written one behind the other with single blanks between them, they are the same tokens.
-/

namespace IjvmAsm.Source

structure Span where
  start : Nat
  stop : Nat

namespace Span

def part (s : Span) (cs : List Char) : List Char := (cs.take s.stop).drop s.start

def Holds (s : Span) (n : Nat) : Prop := s.start ≤ n ∧ n < s.stop

def Closed (s : Span) (cs : List Char) : Prop :=
  ∃ body, '\'' ∉ body ∧ s.part cs = '\'' :: (body ++ ['\''])

/-- How far a token goes, and what it can hold. -/
inductive Shaped (cs : List Char) (s : Span) : Prop
  | closed (h : s.Closed cs)
  | unclosed {body : List Char} (inside : '\'' ∉ body) (part : s.part cs = '\'' :: body)
      (last : s.stop = cs.length)
  | bare (unquoted : (s.part cs).head? ≠ some '\'')
      (solid : ∀ c ∈ s.part cs, Text.isBlank c = false)
      (back : s.stop = cs.length ∨ ∃ c, cs[s.stop]? = some c ∧ Text.isBlank c = true)

variable {s : Span} {cs : List Char}

def behind (front w : List Char) : Span := ⟨front.length, front.length + w.length⟩

theorem start_behind (front w : List Char) : (behind front w).start = front.length := rfl

theorem stop_behind (front w : List Char) : (behind front w).stop = (front ++ w).length :=
  List.length_append.symm

theorem part_behind (front w rest : List Char) :
    (behind front w).part (front ++ w ++ rest) = w := by
  rw [part, start_behind, stop_behind, List.take_left, List.drop_left]

theorem getElem?_behind (front w rest : List Char) :
    (front ++ w ++ rest)[(behind front w).stop]? = rest.head? := by
  rw [stop_behind, List.getElem?_append_right (Nat.le_refl _), Nat.sub_self,
    List.head?_eq_getElem?]

theorem head?_part (h : s.start < s.stop) : (s.part cs).head? = cs[s.start]? := by
  rw [part, List.head?_drop, List.getElem?_take_of_lt h]

end Span

/-- Stretches from a place on that follow one another, with nothing but blanks outside them. -/
structure Spread (cs : List Char) (n : Nat) (spans : List Span) : Prop where
  bounds : ∀ s ∈ spans, n ≤ s.start ∧ s.start < s.stop ∧ s.stop ≤ cs.length
  ordered : spans.Pairwise fun s s' => s.stop ≤ s'.start
  outside : ∀ k c, n ≤ k → cs[k]? = some c → (∀ s ∈ spans, ¬ s.Holds k) → Text.isBlank c = true

namespace Spread

variable {cs : List Char} {n : Nat} {spans : List Span} {s s' : Span}

theorem cons (h : Spread cs s.stop spans) (hstart : n ≤ s.start) (hnonempty : s.start < s.stop)
    (hstop : s.stop ≤ cs.length)
    (hgap : ∀ k c, n ≤ k → k < s.start → cs[k]? = some c → Text.isBlank c = true) :
    Spread cs n (s :: spans) where
  bounds := by
    intro s' hs'
    rcases List.mem_cons.1 hs' with rfl | hs'
    · exact ⟨hstart, hnonempty, hstop⟩
    · obtain ⟨hbehind, hrest⟩ := h.bounds s' hs'
      exact ⟨by omega, hrest⟩
  ordered := List.pairwise_cons.2 ⟨fun s' hs' => (h.bounds s' hs').1, h.ordered⟩
  outside := by
    intro k c hk hc houtside
    obtain ⟨hfirst, hmore⟩ := List.forall_mem_cons.1 houtside
    by_cases hfront : k < s.start
    · exact hgap k c hk hfront hc
    · refine h.outside k c ?_ hc hmore
      by_contra hback
      exact hfirst ⟨by omega, by omega⟩

theorem apart (h : Spread cs n spans) (hs : s ∈ spans) (hs' : s' ∈ spans) (hne : s ≠ s') :
    s.stop ≤ s'.start ∨ s'.stop ≤ s.start := by
  have hsymm : Std.Symm fun s s' : Span => s.stop ≤ s'.start ∨ s'.stop ≤ s.start :=
    ⟨fun _ _ => Or.symm⟩
  have hapart : spans.Pairwise fun s s' => s.stop ≤ s'.start ∨ s'.stop ≤ s.start :=
    h.ordered.imp Or.inl
  exact hapart.forall hs hs' hne

/-- A token that is not quoted begins where the text does, behind a blank or behind a quoted
token. -/
theorem front (h : Spread cs n spans) (hshaped : ∀ s ∈ spans, s.Shaped cs) (hs : s ∈ spans)
    (hunquoted : (s.part cs).head? ≠ some '\'') :
    s.start = n ∨ (∃ c, cs[s.start - 1]? = some c ∧ Text.isBlank c = true) ∨
      ∃ s' ∈ spans, s'.stop = s.start ∧ s'.Closed cs := by
  obtain ⟨hstart, hnonempty, hstop⟩ := h.bounds s hs
  by_cases hfirst : s.start = n
  · exact .inl hfirst
  have hlt : s.start - 1 < cs.length := by omega
  have hbefore : cs[s.start - 1]? = some cs[s.start - 1] := List.getElem?_eq_getElem hlt
  by_cases hblank : Text.isBlank cs[s.start - 1] = true
  · exact .inr (.inl ⟨_, hbefore, hblank⟩)
  -- What is no blank stands in some token, which then ends where this one begins.
  obtain ⟨s', hs', hholds⟩ : ∃ s' ∈ spans, s'.Holds (s.start - 1) := by
    by_contra hnone
    apply hblank
    apply h.outside _ _ (by omega) hbefore
    exact fun s' hs' hholds => hnone ⟨s', hs', hholds⟩
  obtain ⟨hfrom, hto⟩ := hholds
  have hmeet : s'.stop = s.start := by
    have hne : s' ≠ s := by
      rintro rfl
      omega
    have hapart := h.apart hs' hs hne
    omega
  refine .inr (.inr ⟨s', hs', hmeet, ?_⟩)
  cases hshaped s' hs' with
  | closed hclosed => exact hclosed
  | unclosed inside part last => omega
  | bare unquoted solid back =>
    exfalso
    rcases back with hend | ⟨c, hc, hblank⟩
    · omega
    rw [hmeet, ← Span.head?_part hnonempty] at hc
    cases hshaped s hs with
    | closed hclosed =>
      obtain ⟨body, _, hpart⟩ := hclosed
      exact hunquoted (by rw [hpart]; rfl)
    | unclosed inside hpart last => exact hunquoted (by rw [hpart]; rfl)
    | bare unquoted solid back =>
      rw [solid c (List.mem_of_head? hc)] at hblank
      cases hblank

/-- Blanks up to the end of the text. -/
theorem nil {front gap : List Char} (hblank : ∀ c ∈ gap, Text.isBlank c = true) :
    Spread (front ++ gap) front.length [] := by
  refine ⟨nofun, .nil, fun k c hk hc _ => ?_⟩
  rw [List.getElem?_append_right hk] at hc
  exact hblank c (List.mem_of_getElem? hc)

/-- Blanks, and a token behind them. -/
theorem append {front gap w rest : List Char} (hblank : ∀ c ∈ gap, Text.isBlank c = true)
    (hne : w ≠ []) (h : Spread (front ++ gap ++ w ++ rest) (front ++ gap ++ w).length spans) :
    Spread (front ++ gap ++ w ++ rest) front.length (.behind (front ++ gap) w :: spans) := by
  have hpos := List.length_pos_iff.2 hne
  have hlength : (front ++ gap ++ w ++ rest).length = (front ++ gap ++ w).length + rest.length :=
    List.length_append
  rw [← Span.stop_behind] at h
  apply h.cons
  · rw [Span.start_behind, List.length_append]
    exact Nat.le_add_right _ _
  · exact Nat.lt_add_of_pos_right hpos
  · rw [Span.stop_behind, hlength]
    exact Nat.le_add_right _ _
  · intro k c hfrom hto hc
    rw [Span.start_behind, List.length_append] at hto
    rw [List.append_assoc, List.append_assoc, List.getElem?_append_right hfrom,
      List.getElem?_append_left (by omega)] at hc
    exact hblank c (List.mem_of_getElem? hc)

end Spread

/-- The tokens of a text that stands behind another, as stretches of both together. -/
theorem Parted.exists_spans {cs : List Char} {ws : List (List Char)} (h : Parted cs ws)
    (front : List Char) : ∃ spans : List Span, ws = spans.map (·.part (front ++ cs)) ∧
      Spread (front ++ cs) front.length spans ∧ ∀ s ∈ spans, s.Shaped (front ++ cs) := by
  induction h generalizing front with
  | @blanks gap blank => exact ⟨[], rfl, .nil blank, nofun⟩
  | @word gap w rest ws blank word bounded more ih =>
    obtain ⟨spans, hws, hspread, hshaped⟩ := ih (front ++ gap ++ w)
    have htext : front ++ (gap ++ (w ++ rest)) = front ++ gap ++ w ++ rest := by
      simp only [List.append_assoc]
    have hpart := Span.part_behind (front ++ gap) w rest
    have hne : w ≠ [] := by
      obtain ⟨c, body, rfl, _⟩ := word.exists_head
      exact List.cons_ne_nil c body
    rw [htext]
    refine ⟨.behind (front ++ gap) w :: spans, ?_, hspread.append blank hne,
      List.forall_mem_cons.2 ⟨?_, hshaped⟩⟩
    · rw [List.map_cons, hpart, hws]
    · cases word with
      | quoted inside => exact .closed ⟨_, inside, hpart⟩
      | @bare c body unquoted solid =>
        have hunquoted : (c :: body).head? ≠ some '\'' :=
          fun hhead => unquoted (Option.some.inj hhead)
        refine .bare (by rwa [hpart]) (by rwa [hpart]) ?_
        rw [Span.getElem?_behind]
        cases rest with
        | nil =>
          left
          rw [Span.stop_behind, List.append_nil]
        | cons d rest => exact .inr ⟨d, rfl, bounded hunquoted d rfl⟩
  | @unclosed gap body blank inside =>
    have hpart := Span.part_behind (front ++ gap) ('\'' :: body) []
    have hlast : Spread (front ++ gap ++ '\'' :: body ++ [])
        (front ++ gap ++ '\'' :: body).length [] := .nil nofun
    have hspread := hlast.append blank (List.cons_ne_nil _ _)
    rw [List.append_nil] at hpart hspread
    rw [← List.append_assoc]
    refine ⟨[.behind (front ++ gap) ('\'' :: body)], ?_, hspread, List.forall_mem_singleton.2 ?_⟩
    · rw [List.map_singleton, hpart]
    · exact .unclosed inside hpart (Span.stop_behind _ _)

/-- Tokens with single blanks between them fall into the same tokens. -/
theorem Parted.joined {cs : List Char} {ws : List (List Char)} (h : Parted cs ws) :
    Parted ([' '].intercalate ws) ws := by
  induction h with
  | blanks blank => exact .blanks nofun
  | unclosed gap blank inside =>
    rw [List.intercalate_singleton]
    exact .unclosed [] nofun inside
  | @word gap w rest ws blank word bounded more ih =>
    cases ws with
    | nil =>
      rw [List.intercalate_singleton]
      exact .of_isWord word
    | cons w' ws =>
      rw [List.intercalate_cons_cons, List.append_assoc, List.singleton_append]
      exact ih.append_cons word (by decide)

/-- The tokens of a text are stretches of it, which follow one another with nothing but blanks
outside them. One that begins with a quote goes to the next quote, or else to the end; any other
holds no blank and stands between blanks, quoted tokens and the ends of the text. Written with
single blanks between them they are the same tokens. -/
theorem tokensOf_lossless (text : String) :
    (∃ spans : List Span,
      tokensOf text = spans.map (fun s => String.ofList (s.part text.toList)) ∧
      Spread text.toList 0 spans ∧ (∀ s ∈ spans, s.Shaped text.toList) ∧
      ∀ s ∈ spans, (s.part text.toList).head? ≠ some '\'' →
        s.start = 0 ∨ (∃ c, text.toList[s.start - 1]? = some c ∧ Text.isBlank c = true) ∨
          ∃ s' ∈ spans, s'.stop = s.start ∧ s'.Closed text.toList) ∧
    tokensOf (" ".intercalate (tokensOf text)) = tokensOf text := by
  have hparted := parted_tokens text.toList
  constructor
  · obtain ⟨spans, hws, hspread, hshaped⟩ := hparted.exists_spans []
    refine ⟨spans, ?_, hspread, hshaped, fun s hs => hspread.front hshaped hs⟩
    rw [tokensOf, hws, List.map_map]
    rfl
  · have htokens : (tokensOf text).map String.toList = tokens text.toList := by
      rw [tokensOf, List.map_map]
      exact (List.map_congr_left fun w _ => String.toList_ofList).trans (List.map_id _)
    rw [tokensOf, String.toList_intercalate, htokens]
    rw [show " ".toList = [' '] from rfl, hparted.joined.tokens_eq, tokensOf]

example : tokensOf "a'b 'c d'e '" = ["a'b", "'c d'", "e", "'"] := by decide

end IjvmAsm.Source
