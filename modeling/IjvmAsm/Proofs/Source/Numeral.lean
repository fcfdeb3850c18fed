import IjvmAsm.Proofs.Source.Quotation
import IjvmAsm.Proofs.Text.Decimal
import Mathlib.Data.Nat.Digits.Defs

/-!
# What integer literals stand for

A literal is an optional sign in front of the digits of a base: behind a mark that announces the
base, where underscores may part the digits, behind a zero for base eight, or in base ten. It is
read as the number that its digits stand for, if that is one of so many bits. The others are
refused: a literal out of range as such, or as a negative one where that is why, and a token that
is no literal as such, unless its first digits alone stand for too large a number.
-/

namespace IjvmAsm.Literal

/-- The characters are digits of the base, the first one the most significant, and stand for the
value. -/
def Valued (base : Nat) (cs : List Char) (value : Nat) : Prop :=
  ∃ ds, List.Forall₂ (fun c d => IsDigit c d ∧ d < base) cs ds ∧
    Nat.ofDigits base ds.reverse = value

def marks : List (Char × Nat) :=
  [('x', 16), ('X', 16), ('o', 8), ('O', 8), ('b', 2), ('B', 2)]

/-- What stands behind a sign, the base that it is written in, and what has to be its digits. -/
inductive Spelled : List Char → Nat → List Char → Prop
  | based {mark : Char} {base : Nat} {body : List Char} (known : (mark, base) ∈ marks)
      (doubled : ¬ ['_', '_'] <:+: body) (last : ¬ ['_'] <:+ body) :
      Spelled ('0' :: mark :: body) base (body.filter (· ≠ '_'))
  | octal {c : Char} {rest : List Char} (unmarked : ∀ base, (c, base) ∉ marks)
      (parted : '_' ∉ c :: rest) : Spelled ('0' :: c :: rest) 8 (c :: rest)
  | decimal {body : List Char} (zero : body.head? = some '0' → body = ['0'])
      (parted : '_' ∉ body) : Spelled body 10 body

inductive Sign : List Char → Int → List Char → Prop
  | minus {body : List Char} : Sign ('-' :: body) (-1) body
  | plus {body : List Char} : Sign ('+' :: body) 1 body
  | none {body : List Char} (minus : body.head? ≠ some '-') (plus : body.head? ≠ some '+') :
      Sign body 1 body

/-- The token is a literal that stands for the integer. -/
def Denotes (token : List Char) (n : Int) : Prop :=
  ∃ sign body base digits value, Sign token sign body ∧ Spelled body base digits ∧
    digits ≠ [] ∧ Valued base digits value ∧ sign * value = n

/-- The first digits of the token alone stand for a number of more than 128 bits. -/
def Overflows (token : List Char) : Prop :=
  ∃ sign body base digits lead value, Sign token sign body ∧ Spelled body base digits ∧
    lead <+: digits ∧ Valued base lead value ∧ 2 ^ 128 ≤ value

/-- Why a token is no natural number of so many bits: it is one below zero, it is too large, its
first digits alone are, or it is no number at all. -/
inductive NotNatural (bits : Nat) (token : String) : LiteralError → Prop
  | negative {n : Int} (denotes : Denotes token.toList n) (held : -2 ^ 127 < n) (below : n < 0) :
      NotNatural bits token (.negative token)
  | outOfRange {n : Int} (denotes : Denotes token.toList n)
      (outside : n ≤ -2 ^ 127 ∨ 2 ^ bits ≤ n) : NotNatural bits token (.outOfRange token)
  | overflows (number : ∀ n, ¬ Denotes token.toList n) (overflows : Overflows token.toList) :
      NotNatural bits token (.outOfRange token)
  | invalid (number : ∀ n, ¬ Denotes token.toList n) (overflows : ¬ Overflows token.toList) :
      NotNatural bits token (.invalid token)

/-- The token stands for the number: a character between quotes for its code, and a token that does
not begin with a quote for the integer that it is a literal of. -/
inductive Means (token : String) : Int → Prop
  | character {c : Char} (quoted : token.toList = ['\'', c, '\'']) (ascii : c.toNat < 128) :
      Means token c.toNat
  | number {n : Int} (bare : token.toList.head? ≠ some '\'') (denotes : Denotes token.toList n) :
      Means token n

variable {base value d : Nat} {c : Char} {cs ds rest body lead : List Char}

/-! ### Digits -/

theorem digit?_eq_some_iff (hbase : base ≤ 16) :
    digit? base c = some d ↔ IsDigit c d ∧ d < base := by
  rw [← digit?_sixteen_eq_some_iff]
  unfold digit?
  simp only [Option.ite_none_right_eq_some, Option.some.injEq]
  split_ifs
  all_goals omega

theorem valued_nil : Valued base [] 0 := ⟨[], .nil, rfl⟩

theorem Valued.eq_zero (h : Valued base [] value) : value = 0 := by
  obtain ⟨_, ⟨⟩, rfl⟩ := h
  rfl

theorem Valued.cons (hd : IsDigit c d ∧ d < base) (h : Valued base rest value) :
    Valued base (c :: rest) (base ^ rest.length * d + value) := by
  obtain ⟨ds, hdigits, rfl⟩ := h
  refine ⟨d :: ds, .cons hd hdigits, ?_⟩
  rw [Nat.ofDigits_reverse_cons, hdigits.length_eq, Nat.add_comm]

/-- The characters are digits, or there is a first one among them that is none. -/
theorem valued_or_stop (base : Nat) (cs : List Char) : (∃ value, Valued base cs value) ∨
    ∃ lead c rest value, cs = lead ++ c :: rest ∧ Valued base lead value ∧
      ∀ d, ¬ (IsDigit c d ∧ d < base) := by
  induction cs with
  | nil => exact .inl ⟨0, valued_nil⟩
  | cons c cs ih =>
    by_cases hc : ∃ d, IsDigit c d ∧ d < base
    · obtain ⟨d, hd⟩ := hc
      rcases ih with ⟨value, h⟩ | ⟨lead, e, rest, value, rfl, h, he⟩
      · exact .inl ⟨_, h.cons hd⟩
      · exact .inr ⟨c :: lead, e, rest, _, rfl, h.cons hd, he⟩
    · exact .inr ⟨[], c, cs, 0, rfl, valued_nil, not_exists.1 hc⟩

/-- Digits behind a number that has been read so far: reading stops where the number gets too
large, and it does not get smaller again. -/
theorem positional_of_forall₂ (hpos : 0 < base) (hbase : base ≤ 16) {ds : List Nat}
    (h : List.Forall₂ (fun c d => IsDigit c d ∧ d < base) cs ds) (hvalue : value < 2 ^ 128) :
    positional base value cs =
      if 2 ^ 128 ≤ base ^ ds.length * value + Nat.ofDigits base ds.reverse
      then .error .outOfRange
      else .ok (base ^ ds.length * value + Nat.ofDigits base ds.reverse) := by
  induction h generalizing value with
  | nil =>
    rw [List.length_nil, Nat.pow_zero, Nat.one_mul, List.reverse_nil, Nat.ofDigits_nil,
      Nat.add_zero, if_neg (Nat.not_le.2 hvalue), positional]
  | @cons c d cs ds hd _ ih =>
    have hsum : base ^ (d :: ds).length * value + Nat.ofDigits base (d :: ds).reverse =
        base ^ ds.length * (value * base + d) + Nat.ofDigits base ds.reverse := by
      rw [Nat.ofDigits_reverse_cons, List.length_cons]
      ring
    have hgrows : value * base + d ≤ base ^ ds.length * (value * base + d) :=
      Nat.le_mul_of_pos_left _ (Nat.pow_pos hpos)
    rw [hsum, positional, (digit?_eq_some_iff hbase).2 hd]
    dsimp only [Nat.pow_eq]
    split_ifs with hnext hall hall
    · rfl
    · omega
    · rw [ih (Nat.not_le.1 hnext), if_pos hall]
    · rw [ih (Nat.not_le.1 hnext), if_neg hall]

theorem Valued.positional_eq (h : Valued base cs value) (hpos : 0 < base) (hbase : base ≤ 16) :
    positional base 0 cs = if 2 ^ 128 ≤ value then .error .outOfRange else .ok value := by
  obtain ⟨ds, hdigits, rfl⟩ := h
  have hread := positional_of_forall₂ hpos hbase hdigits (Nat.two_pow_pos 128)
  rwa [Nat.mul_zero, Nat.zero_add] at hread

theorem positional_stop (hbase : base ≤ 16) (hc : ∀ d, ¬ (IsDigit c d ∧ d < base)) :
    positional base value (c :: rest) = .error .invalid := by
  rw [positional]
  cases hdigit : digit? base c with
  | none => rfl
  | some d => exact absurd ((digit?_eq_some_iff hbase).1 hdigit) (hc d)

theorem positional_eq_ok_iff (hpos : 0 < base) (hbase : base ≤ 16) :
    positional base 0 cs = .ok value ↔ Valued base cs value ∧ value < 2 ^ 128 := by
  constructor
  · intro h
    rcases valued_or_stop base cs with ⟨value', hvalued⟩ | ⟨lead, c, rest, value', rfl, hlead, hc⟩
    · rw [hvalued.positional_eq hpos hbase] at h
      split_ifs at h with hlarge
      cases h
      exact ⟨hvalued, Nat.not_le.1 hlarge⟩
    · rw [positional_append, hlead.positional_eq hpos hbase] at h
      split_ifs at h
      · cases h
      · rw [Except.bind, positional_stop hbase hc] at h
        cases h
  · rintro ⟨hvalued, hlt⟩
    rw [hvalued.positional_eq hpos hbase, if_neg (Nat.not_le.2 hlt)]

theorem positional_eq_outOfRange_iff (hpos : 0 < base) (hbase : base ≤ 16) :
    positional base 0 cs = .error .outOfRange ↔
      ∃ lead value, lead <+: cs ∧ Valued base lead value ∧ 2 ^ 128 ≤ value := by
  constructor
  · intro h
    rcases valued_or_stop base cs with ⟨value, hvalued⟩ | ⟨lead, c, rest, value, rfl, hlead, hc⟩
    · rw [hvalued.positional_eq hpos hbase] at h
      split_ifs at h with hlarge
      exact ⟨cs, value, List.prefix_rfl, hvalued, hlarge⟩
    · rw [positional_append, hlead.positional_eq hpos hbase] at h
      split_ifs at h with hlarge
      · exact ⟨lead, value, List.prefix_append _ _, hlead, hlarge⟩
      · rw [Except.bind, positional_stop hbase hc] at h
        cases h
  · rintro ⟨lead, value, ⟨rest, rfl⟩, hlead, hlarge⟩
    rw [positional_append, hlead.positional_eq hpos hbase, if_pos hlarge]
    rfl

/-! ### Bases -/

theorem hasDoubled_iff : hasDoubled cs = true ↔ ['_', '_'] <:+: cs := by
  fun_induction hasDoubled cs with
  | case1 rest => exact ⟨fun _ => ⟨[], rest, rfl⟩, fun _ => rfl⟩
  | case2 c rest hne ih =>
    rw [ih, List.infix_cons_iff]
    refine ⟨.inr, fun h => h.resolve_left ?_⟩
    rintro ⟨tail, htail⟩
    cases htail
    exact hne _ rfl rfl
  | case3 => decide

theorem ungroup_eq_ok_iff : ungroup body = .ok ds ↔
    ¬ ['_', '_'] <:+: body ∧ ¬ ['_'] <:+ body ∧ body.filter (· ≠ '_') = ds := by
  have hlast : ['_'] <:+ body ↔ body.getLast? = some '_' := by
    rw [List.getLast?_eq_some_iff]
    exact exists_congr fun _ => eq_comm
  rw [ungroup, hlast, ← hasDoubled_iff]
  split_ifs with h
  · exact ⟨nofun, fun hgrouped => absurd h (by tauto)⟩
  · rw [not_or] at h
    exact ⟨fun hok => ⟨h.2, h.1, Except.ok.inj hok⟩, fun hgrouped => congrArg _ hgrouped.2.2⟩

theorem plain_eq_ok_iff : plain body = .ok ds ↔ '_' ∉ body ∧ body = ds := by
  rw [plain]
  split_ifs with h
  · refine iff_of_false (fun hok => ?_) fun hplain => hplain.1 h
    cases hok
  · exact ⟨fun hok => ⟨h, Except.ok.inj hok⟩, fun hplain => congrArg _ hplain.2⟩

theorem map_eq_ok_iff {ε α β : Type} {x : Except ε α} {f : α → β} {b : β} :
    x.map f = .ok b ↔ ∃ a, x = .ok a ∧ f a = b := by
  cases x with
  | error e => exact ⟨nofun, nofun⟩
  | ok a =>
    constructor
    · rintro ⟨⟩
      exact ⟨a, rfl, rfl⟩
    · rintro ⟨_, ⟨⟩, rfl⟩
      rfl

theorem digits_of_mark {mark : Char} (h : (mark, base) ∈ marks) :
    digits ('0' :: mark :: body) = (ungroup body).map (base, ·) := by
  simp only [marks, List.mem_cons, Prod.mk.injEq, List.not_mem_nil, or_false] at h
  rcases h with ⟨rfl, rfl⟩ | ⟨rfl, rfl⟩ | ⟨rfl, rfl⟩ | ⟨rfl, rfl⟩ | ⟨rfl, rfl⟩ | ⟨rfl, rfl⟩
  all_goals rfl

theorem digits_of_zero (h : ∀ base, (c, base) ∉ marks) :
    digits ('0' :: c :: rest) = (plain (c :: rest)).map (8, ·) := by
  have hne : ∀ mark ∈ marks.map Prod.fst, c ≠ mark := by
    rw [List.forall_mem_map]
    rintro ⟨_, base⟩ hmark rfl
    exact h base hmark
  unfold digits
  split
  case h_7 d _ _ _ _ _ _ _ heq =>
    cases heq
    rfl
  case h_8 _ _ _ _ _ _ hzero => exact absurd rfl (hzero c rest)
  all_goals rename_i heq
  all_goals
    cases heq
    exact absurd rfl (hne _ (by decide))

/-- There are three shapes of what stands behind a sign. -/
theorem shape_cases (body : List Char) :
    (∃ mark base rest, body = '0' :: mark :: rest ∧ (mark, base) ∈ marks) ∨
    (∃ c rest, body = '0' :: c :: rest ∧ ∀ base, (c, base) ∉ marks) ∨
    (body.head? = some '0' → body = ['0']) := by
  rcases body with _ | ⟨zero, _ | ⟨c, rest⟩⟩
  · exact .inr (.inr nofun)
  · exact .inr (.inr fun h => congrArg (fun d => [d]) (Option.some.inj h))
  · by_cases hzero : zero = '0'
    · subst hzero
      by_cases hmark : ∃ base, (c, base) ∈ marks
      · obtain ⟨base, hmark⟩ := hmark
        exact .inl ⟨c, base, rest, rfl, hmark⟩
      · exact .inr (.inl ⟨c, rest, rfl, not_exists.1 hmark⟩)
    · exact .inr (.inr fun h => absurd (Option.some.inj h) hzero)

theorem digits_eq_ok_iff : digits body = .ok (base, ds) ↔ Spelled body base ds := by
  constructor
  · intro h
    rcases shape_cases body with ⟨mark, _, rest, rfl, hmark⟩ | ⟨c, rest, rfl, hmark⟩ | hzero
    · rw [digits_of_mark hmark, map_eq_ok_iff] at h
      obtain ⟨_, hgroup, ⟨⟩⟩ := h
      obtain ⟨hdoubled, hlast, rfl⟩ := ungroup_eq_ok_iff.1 hgroup
      exact .based hmark hdoubled hlast
    · rw [digits_of_zero hmark, map_eq_ok_iff] at h
      obtain ⟨_, hplain, ⟨⟩⟩ := h
      obtain ⟨hparted, rfl⟩ := plain_eq_ok_iff.1 hplain
      exact .octal hmark hparted
    · rw [digits_of_head? hzero, map_eq_ok_iff] at h
      obtain ⟨_, hplain, ⟨⟩⟩ := h
      obtain ⟨hparted, rfl⟩ := plain_eq_ok_iff.1 hplain
      exact .decimal hzero hparted
  · intro h
    cases h with
    | based known doubled last =>
      rw [digits_of_mark known, ungroup_eq_ok_iff.2 ⟨doubled, last, rfl⟩, Except.map]
    | octal unmarked parted =>
      rw [digits_of_zero unmarked, plain_eq_ok_iff.2 ⟨parted, rfl⟩, Except.map]
    | decimal zero parted =>
      rw [digits_of_head? zero, plain_eq_ok_iff.2 ⟨parted, rfl⟩, Except.map]

theorem eq_invalid_of_digits {e : Fault} (h : digits body = .error e) : e = .invalid := by
  unfold digits ungroup plain at h
  split at h
  all_goals
    split_ifs at h
    all_goals cases h
    rfl

theorem Spelled.bounds (h : Spelled body base ds) : 0 < base ∧ base ≤ 16 := by
  cases h with
  | based known _ _ =>
    have hall : ∀ entry ∈ marks, 0 < entry.2 ∧ entry.2 ≤ 16 := by decide
    exact hall _ known
  | octal _ _ => decide
  | decimal _ _ => decide

/-! ### Numbers without a sign -/

theorem magnitude_of_spelled (h : Spelled body base ds) :
    magnitude body = if ds = [] then .error .invalid else
      (positional base 0 ds).bind fun value =>
        if 2 ^ 127 ≤ value then .error .outOfRange else .ok value := by
  unfold magnitude
  simp only [digits_eq_ok_iff.2 h, bind, Except.bind, List.isEmpty_iff]
  split_ifs
  · rfl
  · cases positional base 0 ds with
    | error e => rfl
    | ok value =>
      dsimp only [Nat.pow_eq]
      split_ifs <;> rfl

theorem magnitude_of_not_spelled (h : ∀ base ds, ¬ Spelled body base ds) :
    magnitude body = .error .invalid := by
  unfold magnitude
  cases hdigits : digits body with
  | error e =>
    rw [eq_invalid_of_digits hdigits]
    rfl
  | ok pair => exact absurd (digits_eq_ok_iff.1 hdigits) (h pair.1 pair.2)

theorem exists_spelled_of_magnitude {result : Except Fault Nat} (h : magnitude body = result)
    (hresult : result ≠ .error .invalid) : ∃ base ds, Spelled body base ds ∧ ds ≠ [] ∧
      ((positional base 0 ds).bind fun value =>
        if 2 ^ 127 ≤ value then .error .outOfRange else .ok value) = result := by
  by_cases hbody : ∃ base ds, Spelled body base ds
  · obtain ⟨base, ds, hbody⟩ := hbody
    rw [magnitude_of_spelled hbody] at h
    split_ifs at h with hempty
    · exact absurd h.symm hresult
    · exact ⟨base, ds, hbody, hempty, h⟩
  · rw [magnitude_of_not_spelled fun base ds h => hbody ⟨base, ds, h⟩] at h
    exact absurd h.symm hresult

theorem magnitude_eq_ok_iff : magnitude body = .ok value ↔
    ∃ base ds, Spelled body base ds ∧ ds ≠ [] ∧ Valued base ds value ∧ value < 2 ^ 127 := by
  constructor
  · intro h
    obtain ⟨base, ds, hbody, hne, h⟩ := exists_spelled_of_magnitude h nofun
    obtain ⟨hpos, hbase⟩ := hbody.bounds
    cases hread : positional base 0 ds with
    | error e =>
      rw [hread] at h
      cases h
    | ok read =>
      rw [hread, Except.bind] at h
      split_ifs at h with hlarge
      cases h
      exact ⟨base, ds, hbody, hne, ((positional_eq_ok_iff hpos hbase).1 hread).1,
        Nat.not_le.1 hlarge⟩
  · rintro ⟨base, ds, hbody, hne, hvalued, hlt⟩
    obtain ⟨hpos, hbase⟩ := hbody.bounds
    rw [magnitude_of_spelled hbody, if_neg hne,
      (positional_eq_ok_iff hpos hbase).2 ⟨hvalued, by omega⟩, Except.bind,
      if_neg (Nat.not_le.2 hlt)]

theorem magnitude_eq_outOfRange_iff : magnitude body = .error .outOfRange ↔
    ∃ base ds, Spelled body base ds ∧
      ((∃ lead value, lead <+: ds ∧ Valued base lead value ∧ 2 ^ 128 ≤ value) ∨
        ∃ value, Valued base ds value ∧ 2 ^ 127 ≤ value) := by
  constructor
  · intro h
    obtain ⟨base, ds, hbody, -, h⟩ := exists_spelled_of_magnitude h nofun
    obtain ⟨hpos, hbase⟩ := hbody.bounds
    refine ⟨base, ds, hbody, ?_⟩
    cases hread : positional base 0 ds with
    | error e =>
      rw [hread] at h
      cases h
      exact .inl ((positional_eq_outOfRange_iff hpos hbase).1 hread)
    | ok value =>
      rw [hread, Except.bind] at h
      split_ifs at h with hlarge
      exact .inr ⟨value, ((positional_eq_ok_iff hpos hbase).1 hread).1, hlarge⟩
  · rintro ⟨base, ds, hbody, hlarge⟩
    obtain ⟨hpos, hbase⟩ := hbody.bounds
    have hne : ds ≠ [] := by
      rintro rfl
      rcases hlarge with ⟨lead, value, hlead, hvalued, hlarge⟩ | ⟨value, hvalued, hlarge⟩
      · obtain rfl := List.prefix_nil.1 hlead
        rw [hvalued.eq_zero] at hlarge
        exact absurd hlarge (Nat.not_le.2 (Nat.two_pow_pos 128))
      · rw [hvalued.eq_zero] at hlarge
        exact absurd hlarge (Nat.not_le.2 (Nat.two_pow_pos 127))
    rw [magnitude_of_spelled hbody, if_neg hne]
    rcases hlarge with hlead | ⟨value, hvalued, hlarge⟩
    · rw [(positional_eq_outOfRange_iff hpos hbase).2 hlead, Except.bind]
    · rw [hvalued.positional_eq hpos hbase]
      split_ifs
      · rfl
      · rw [Except.bind, if_pos hlarge]

/-! ### Signs -/

theorem exists_sign (token : List Char) : ∃ sign body, Sign token sign body := by
  rcases token with _ | ⟨c, rest⟩
  · exact ⟨1, [], .none nofun nofun⟩
  · by_cases hminus : c = '-'
    · subst hminus
      exact ⟨-1, rest, .minus⟩
    · by_cases hplus : c = '+'
      · subst hplus
        exact ⟨1, rest, .plus⟩
      · exact ⟨1, c :: rest, .none (by simpa using hminus) (by simpa using hplus)⟩

theorem integer_of_sign {token : List Char} {sign : Int} (h : Sign token sign body) :
    integer token = (magnitude body).map fun value : Nat => sign * (value : Int) := by
  have hone : (fun value : Nat => (1 : Int) * value) = Int.ofNat := by
    funext value
    rw [Int.one_mul, Int.ofNat_eq_natCast]
  cases h with
  | minus =>
    simp only [integer, Int.neg_mul, Int.one_mul]
    cases magnitude body <;> rfl
  | plus => rw [hone, integer]
  | none minus plus =>
    rw [hone]
    unfold integer
    split
    · exact absurd rfl minus
    · exact absurd rfl plus
    · rfl

theorem Sign.natAbs_mul {token : List Char} {sign : Int} (h : Sign token sign body)
    (value : Nat) : (sign * value).natAbs = value := by
  have hsign : sign.natAbs = 1 := by
    cases h <;> rfl
  rw [Int.natAbs_mul, hsign, Nat.one_mul, Int.natAbs_natCast]

theorem integer_eq_ok_iff {token : List Char} {n : Int} :
    integer token = .ok n ↔ Denotes token n ∧ n.natAbs < 2 ^ 127 := by
  constructor
  · intro h
    obtain ⟨sign, body, hsign⟩ := exists_sign token
    rw [integer_of_sign hsign, map_eq_ok_iff] at h
    obtain ⟨value, hmagnitude, rfl⟩ := h
    obtain ⟨base, ds, hbody, hne, hvalued, hlt⟩ := magnitude_eq_ok_iff.1 hmagnitude
    refine ⟨⟨sign, body, base, ds, value, hsign, hbody, hne, hvalued, rfl⟩, ?_⟩
    rwa [hsign.natAbs_mul]
  · rintro ⟨⟨sign, body, base, ds, value, hsign, hbody, hne, hvalued, rfl⟩, hlt⟩
    rw [hsign.natAbs_mul] at hlt
    rw [integer_of_sign hsign, magnitude_eq_ok_iff.2 ⟨base, ds, hbody, hne, hvalued, hlt⟩,
      Except.map]

theorem integer_eq_outOfRange_iff {token : List Char} : integer token = .error .outOfRange ↔
    Overflows token ∨ ∃ n, Denotes token n ∧ 2 ^ 127 ≤ n.natAbs := by
  constructor
  · intro h
    obtain ⟨sign, body, hsign⟩ := exists_sign token
    rw [integer_of_sign hsign] at h
    cases hmagnitude : magnitude body with
    | ok value =>
      rw [hmagnitude] at h
      cases h
    | error e =>
      rw [hmagnitude] at h
      cases h
      obtain ⟨base, ds, hbody, hlarge⟩ := magnitude_eq_outOfRange_iff.1 hmagnitude
      rcases hlarge with ⟨lead, value, hlead, hvalued, hlarge⟩ | ⟨value, hvalued, hlarge⟩
      · exact .inl ⟨sign, body, base, ds, lead, value, hsign, hbody, hlead, hvalued, hlarge⟩
      · refine .inr ⟨_, ⟨sign, body, base, ds, value, hsign, hbody, ?_, hvalued, rfl⟩, ?_⟩
        · rintro rfl
          rw [hvalued.eq_zero] at hlarge
          exact absurd hlarge (Nat.not_le.2 (Nat.two_pow_pos 127))
        · rwa [hsign.natAbs_mul]
  · rintro (⟨sign, body, base, ds, lead, value, hsign, hbody, hlead, hvalued, hlarge⟩ |
      ⟨_, ⟨sign, body, base, ds, value, hsign, hbody, hne, hvalued, rfl⟩, hlarge⟩)
    · rw [integer_of_sign hsign, magnitude_eq_outOfRange_iff.2
        ⟨base, ds, hbody, .inl ⟨lead, value, hlead, hvalued, hlarge⟩⟩, Except.map]
    · rw [hsign.natAbs_mul] at hlarge
      rw [integer_of_sign hsign, magnitude_eq_outOfRange_iff.2
        ⟨base, ds, hbody, .inr ⟨value, hvalued, hlarge⟩⟩, Except.map]

/-! ### Ranges -/

section

variable {bits : Nat} {token : String} {n : Int}

theorem natAbs_lt_iff : n.natAbs < 2 ^ 127 ↔ -2 ^ 127 < n ∧ n < 2 ^ 127 := by
  omega

theorem natAbs_lt_of_fitsUnsigned (hbits : bits ≤ 64) (h : fitsUnsigned bits n = true) :
    n.natAbs < 2 ^ 127 := by
  obtain ⟨hleast, hgreatest⟩ := fitsUnsigned_iff.1 h
  have hmono : (2 : Int) ^ bits ≤ 2 ^ 64 := by
    exact_mod_cast Nat.pow_le_pow_right (by decide : 0 < 2) hbits
  omega

theorem signed_of_integer (h : integer token.toList = .ok n) :
    signed bits token =
      if fitsSigned bits n then .ok n else .error (.outOfRange token) := by
  rw [signed, integer?, h]
  rfl

theorem unsigned_of_integer (h : integer token.toList = .ok n) :
    unsigned bits token =
      if n < 0 then .error (.negative token)
      else if fitsUnsigned bits n then .ok n.toNat else .error (.outOfRange token) := by
  rw [unsigned, integer?, h]
  rfl

theorem both_of_integer {fault : Fault} (h : integer token.toList = .error fault) :
    signed bits token = .error (fault.about token) ∧
      unsigned bits token = .error (fault.about token) := by
  rw [signed, unsigned, integer?, h]
  exact ⟨rfl, rfl⟩

theorem signed_eq_ok_iff (hbits : bits ≤ 64) : signed bits token = .ok n ↔
    Denotes token.toList n ∧ -2 ^ (bits - 1) ≤ n ∧ n < 2 ^ (bits - 1) := by
  rw [← fitsSigned_iff]
  constructor
  · intro h
    cases hread : integer token.toList with
    | error fault =>
      rw [(both_of_integer hread).1] at h
      cases h
    | ok value =>
      rw [signed_of_integer hread] at h
      split_ifs at h with hfits
      cases h
      exact ⟨(integer_eq_ok_iff.1 hread).1, hfits⟩
  · rintro ⟨hdenotes, hfits⟩
    have hread := integer_eq_ok_iff.2 ⟨hdenotes, natAbs_lt_of_fitsSigned hbits hfits⟩
    rw [signed_of_integer hread, if_pos hfits]

theorem unsigned_eq_ok_iff (hbits : bits ≤ 64) {k : Nat} : unsigned bits token = .ok k ↔
    Denotes token.toList k ∧ k < 2 ^ bits := by
  constructor
  · intro h
    cases hread : integer token.toList with
    | error fault =>
      rw [(both_of_integer hread).2] at h
      cases h
    | ok value =>
      rw [unsigned_of_integer hread] at h
      split_ifs at h with hneg hfits
      cases h
      obtain ⟨hleast, hgreatest⟩ := fitsUnsigned_iff.1 hfits
      rw [Int.toNat_of_nonneg hleast]
      exact ⟨(integer_eq_ok_iff.1 hread).1, (Int.toNat_lt hleast).2 hgreatest⟩
  · rintro ⟨hdenotes, hlt⟩
    have hfits : fitsUnsigned bits k = true :=
      fitsUnsigned_iff.2 ⟨Int.natCast_nonneg k, Int.ofNat_lt.2 hlt⟩
    have hread := integer_eq_ok_iff.2 ⟨hdenotes, natAbs_lt_of_fitsUnsigned hbits hfits⟩
    rw [unsigned_of_integer hread, if_neg (Int.not_lt.2 (Int.natCast_nonneg k)), if_pos hfits,
      Int.toNat_natCast]

theorem character_eq_ok_iff : character token = .ok n ↔
    ∃ c : Char, token.toList = ['\'', c, '\''] ∧ c.toNat < 128 ∧ c.toNat = n := by
  unfold character
  split
  next c htoken =>
    simp only [htoken, List.cons.injEq, and_true, true_and, exists_eq_left']
    split_ifs with hascii <;> simp [hascii]
  next hother =>
    refine ⟨nofun, ?_⟩
    rintro ⟨c, htoken, -⟩
    exact absurd htoken (hother c)

/-- A character has no more than eight bits. -/
theorem characterOrSigned_eq_ok_iff (hleast : 8 ≤ bits) (hbits : bits ≤ 64) :
    characterOrSigned bits token = .ok n ↔
      Means token n ∧ -2 ^ (bits - 1) ≤ n ∧ n < 2 ^ (bits - 1) := by
  unfold characterOrSigned
  split_ifs with hquote
  · rw [character_eq_ok_iff]
    constructor
    · rintro ⟨c, hquoted, hascii, rfl⟩
      have hpow : (128 : Int) ≤ 2 ^ (bits - 1) :=
        pow_le_pow_right₀ (by decide : (1 : Int) ≤ 2) (by omega : 7 ≤ bits - 1)
      exact ⟨.character hquoted hascii, by omega, by omega⟩
    · rintro ⟨hmeans, -⟩
      cases hmeans with
      | character quoted ascii => exact ⟨_, quoted, ascii, rfl⟩
      | number bare => exact absurd hquote bare
  · rw [signed_eq_ok_iff hbits]
    refine and_congr_left fun _ => ⟨.number hquote, fun hmeans => ?_⟩
    cases hmeans with
    | character quoted =>
      rw [quoted] at hquote
      exact absurd rfl hquote
    | number _ denotes => exact denotes

/-- What cannot be held while it is read is out of range. -/
theorem integer_of_large (h : Denotes token.toList n) (hlarge : ¬ n.natAbs < 2 ^ 127) :
    integer token.toList = .error .outOfRange :=
  integer_eq_outOfRange_iff.2 (.inr ⟨n, h, Nat.not_lt.1 hlarge⟩)

theorem signed_of_outside (h : Denotes token.toList n)
    (hout : ¬ (-2 ^ (bits - 1) ≤ n ∧ n < 2 ^ (bits - 1))) :
    signed bits token = .error (.outOfRange token) := by
  rw [← fitsSigned_iff] at hout
  by_cases hsmall : n.natAbs < 2 ^ 127
  · rw [signed_of_integer (integer_eq_ok_iff.2 ⟨h, hsmall⟩), if_neg hout]
  · exact (both_of_integer (integer_of_large h hsmall)).1

theorem unsigned_of_outside (h : Denotes token.toList n) (hout : ¬ (0 ≤ n ∧ n < 2 ^ bits)) :
    unsigned bits token =
      .error (if -2 ^ 127 < n ∧ n < 0 then .negative token else .outOfRange token) := by
  rw [← fitsUnsigned_iff] at hout
  by_cases hsmall : n.natAbs < 2 ^ 127
  · have hleast := (natAbs_lt_iff.1 hsmall).1
    rw [unsigned_of_integer (integer_eq_ok_iff.2 ⟨h, hsmall⟩), if_neg hout]
    simp only [hleast, true_and]
    split_ifs <;> rfl
  · have hleast : ¬ (-2 ^ 127 < n ∧ n < 0) := by
      rw [natAbs_lt_iff] at hsmall
      omega
    rw [if_neg hleast]
    exact (both_of_integer (integer_of_large h hsmall)).2

theorem refused_of_not_denotes (h : ∀ n, ¬ Denotes token.toList n) :
    ∃ e, signed bits token = .error e ∧ unsigned bits token = .error e ∧
      (e = .outOfRange token ∧ Overflows token.toList ∨
        e = .invalid token ∧ ¬ Overflows token.toList) := by
  have hrange : integer token.toList = .error .outOfRange ↔ Overflows token.toList := by
    rw [integer_eq_outOfRange_iff]
    exact or_iff_left fun ⟨n, hn, _⟩ => h n hn
  cases hread : integer token.toList with
  | ok value => exact absurd (integer_eq_ok_iff.1 hread).1 (h value)
  | error fault =>
    obtain ⟨hsigned, hunsigned⟩ := both_of_integer hread
    refine ⟨_, hsigned, hunsigned, ?_⟩
    rw [← hrange, hread]
    cases fault with
    | invalid => exact .inr ⟨rfl, nofun⟩
    | outOfRange => exact .inl ⟨rfl, rfl⟩

theorem notNatural_of_unsigned (hbits : bits ≤ 64) {e : LiteralError}
    (h : unsigned bits token = .error e) : NotNatural bits token e := by
  by_cases hnumber : ∃ n, Denotes token.toList n
  · obtain ⟨n, hdenotes⟩ := hnumber
    have hout : ¬ (0 ≤ n ∧ n < 2 ^ bits) := by
      rintro ⟨hleast, hgreatest⟩
      lift n to Nat using hleast
      rw [(unsigned_eq_ok_iff hbits).2 ⟨hdenotes, by exact_mod_cast hgreatest⟩] at h
      cases h
    rw [unsigned_of_outside hdenotes hout] at h
    split_ifs at h with hbelow
    · cases h
      exact .negative hdenotes hbelow.1 hbelow.2
    · cases h
      exact .outOfRange hdenotes (by omega)
  · rw [not_exists] at hnumber
    obtain ⟨e', -, hread, hcause⟩ := @refused_of_not_denotes bits token hnumber
    rw [hread] at h
    cases h
    rcases hcause with ⟨rfl, hoverflows⟩ | ⟨rfl, hoverflows⟩
    · exact .overflows hnumber hoverflows
    · exact .invalid hnumber hoverflows

theorem unsigned_of_notNatural {e : LiteralError} (h : NotNatural bits token e) :
    unsigned bits token = .error e := by
  cases h with
  | negative denotes held below =>
    rw [unsigned_of_outside denotes (by omega), if_pos ⟨held, below⟩]
  | outOfRange denotes outside =>
    have hpos : (0 : Int) < 2 ^ bits := Int.pow_pos (by decide)
    rw [unsigned_of_outside denotes (by omega), if_neg (by omega)]
  | overflows number overflows =>
    obtain ⟨_, -, hread, ⟨rfl, -⟩ | ⟨rfl, hnone⟩⟩ := @refused_of_not_denotes bits token number
    · exact hread
    · exact absurd overflows hnone
  | invalid number overflows =>
    obtain ⟨_, -, hread, ⟨rfl, hsome⟩ | ⟨rfl, -⟩⟩ := @refused_of_not_denotes bits token number
    · exact absurd hsome overflows
    · exact hread

end

/-- A token that stands for an integer is read as that integer, if it has so many bits. One that
stands for another integer is out of range, or negative where none should be, if it is so little
below zero that its value can be held. Any other token is invalid, or out of range if its first
digits alone are. -/
theorem parsed_as_denoted {bits : Nat} (hbits : bits ≤ 64) (token : String) :
    (∀ n, signed bits token = .ok n ↔
      Denotes token.toList n ∧ -2 ^ (bits - 1) ≤ n ∧ n < 2 ^ (bits - 1)) ∧
    (∀ n, unsigned bits token = .ok n ↔ Denotes token.toList n ∧ n < 2 ^ bits) ∧
    (∀ n, Denotes token.toList n →
      (¬ (-2 ^ (bits - 1) ≤ n ∧ n < 2 ^ (bits - 1)) →
        signed bits token = .error (.outOfRange token)) ∧
      (¬ (0 ≤ n ∧ n < 2 ^ bits) → unsigned bits token =
        .error (if -2 ^ 127 < n ∧ n < 0 then .negative token else .outOfRange token))) ∧
    ((∀ n, ¬ Denotes token.toList n) →
      ∃ e, signed bits token = .error e ∧ unsigned bits token = .error e ∧
        (e = .outOfRange token ∧ Overflows token.toList ∨
          e = .invalid token ∧ ¬ Overflows token.toList)) :=
  ⟨fun _ => signed_eq_ok_iff hbits, fun _ => unsigned_eq_ok_iff hbits,
    fun _ h => ⟨signed_of_outside h, unsigned_of_outside h⟩, refused_of_not_denotes⟩

/-- The token `-0x_80` stands for -128, which has eight bits with a sign and none without. -/
theorem parsed_minus_hex : signed 8 "-0x_80" = .ok (-128) ∧
    unsigned 8 "-0x_80" = .error (.negative "-0x_80") := by
  have hdenotes : Denotes "-0x_80".toList (-128) := by
    refine ⟨-1, "0x_80".toList, 16, ['8', '0'], 128, .minus,
      .based (by decide) (by decide) (by decide), by decide, ⟨[8, 0], ?_, by decide⟩, by decide⟩
    exact .cons ⟨.inl (by decide), by decide⟩ (.cons ⟨.inl (by decide), by decide⟩ .nil)
  obtain ⟨hsigned, -, hout, -⟩ := parsed_as_denoted (show 8 ≤ 64 by decide) "-0x_80"
  exact ⟨(hsigned _).2 ⟨hdenotes, by decide⟩, (hout _ hdenotes).2 (by decide)⟩

end IjvmAsm.Literal
