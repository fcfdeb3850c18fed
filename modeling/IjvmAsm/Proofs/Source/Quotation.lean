import IjvmAsm.Source.Quoted
import Mathlib.Tactic.SplitIfs

/-!
# What quoted strings stand for

A raw string stands for its characters. A string between double quotes is made of items, each of
which stands for a byte: a character that is neither a quote nor a backslash, an escape of one
character, or a numeric escape with two hexadecimal digits. Strings that are made like this are
read as what they stand for, and others are not, but for one more kind of item that is read: a
numeric escape with a plus sign in the place of its first digit.
-/

namespace IjvmAsm

namespace Literal

def IsDigit (c : Char) (value : Nat) : Prop :=
  "0123456789abcdef".toList[value]? = some c ∨ "0123456789ABCDEF".toList[value]? = some c

variable {c : Char} {value : Nat}

theorem IsDigit.bounds (h : IsDigit c value) : value < 16 ∧ c.toNat < 128 := by
  have hlower : "0123456789abcdef".toList.all (fun c => c.toNat < 128) = true := by decide
  have hupper : "0123456789ABCDEF".toList.all (fun c => c.toNat < 128) = true := by decide
  rw [List.all_eq_true] at hlower hupper
  rcases h with h | h
  · exact ⟨(List.getElem?_eq_some_iff.1 h).1,
      of_decide_eq_true (hlower c (List.mem_of_getElem? h))⟩
  · exact ⟨(List.getElem?_eq_some_iff.1 h).1,
      of_decide_eq_true (hupper c (List.mem_of_getElem? h))⟩

theorem bounds_of_digit? (h : digit? 16 c = some value) : value < 16 ∧ c.toNat < 128 := by
  have hle : ∀ {d : Char}, c ≤ d → c.toNat ≤ d.toNat := fun hle => hle
  unfold digit? at h
  dsimp only at h
  split_ifs at h with hdecimal hlt hlower _ hupper
  all_goals cases h
  · refine ⟨hlt, ?_⟩
    rw [Char.isDigit, Bool.and_eq_true, decide_eq_true_eq, decide_eq_true_eq] at hdecimal
    exact Nat.lt_of_le_of_lt (hle hdecimal.2) (by decide)
  · exact ⟨‹_›, Nat.lt_of_le_of_lt (hle hlower.2) (by decide)⟩
  · exact ⟨‹_›, Nat.lt_of_le_of_lt (hle hupper.2) (by decide)⟩
  · omega

theorem digit?_sixteen_eq_some_iff : digit? 16 c = some value ↔ IsDigit c value := by
  have hall : ∀ n < 128, ∀ value < 16,
      digit? 16 (Char.ofNat n) = some value ↔ IsDigit (Char.ofNat n) value := by
    unfold IsDigit
    decide +kernel
  have hchar : value < 16 ∧ c.toNat < 128 → (digit? 16 c = some value ↔ IsDigit c value) := by
    rintro ⟨hvalue, hascii⟩
    have h := hall c.toNat hascii value hvalue
    rwa [Char.ofNat_toNat] at h
  exact ⟨fun h => (hchar (bounds_of_digit? h)).1 h, fun h => (hchar h.bounds).2 h⟩

theorem not_isDigit_plus : ¬ IsDigit '+' value := by
  intro h
  have hnone : digit? 16 '+' = none := by decide
  rw [digit?_sixteen_eq_some_iff.2 h] at hnone
  cases hnone

end Literal

namespace Source.Quoted

/-- The characters that may stand behind a backslash, numeric escapes aside, and their bytes. -/
def escapes : List (Char × UInt8) :=
  [('n', 10), ('t', 9), ('r', 13), ('0', 0), ('\\', 92), ('"', 34), ('\'', 39)]

/-- What may stand between double quotes, and the byte that it stands for. -/
inductive Item : List Char → UInt8 → Prop
  | plain {c : Char} (ascii : c.toNat < 128) (quote : c ≠ '"') (backslash : c ≠ '\\') :
      Item [c] (UInt8.ofNat c.toNat)
  | escape {c : Char} {b : UInt8} (known : (c, b) ∈ escapes) : Item ['\\', c] b
  | numeric {c d : Char} {high low : Nat} (first : Literal.IsDigit c high)
      (second : Literal.IsDigit d low) : Item ['\\', 'x', c, d] (UInt8.ofNat (16 * high + low))

/-- A numeric escape with a plus sign and one digit. -/
inductive SignedItem : List Char → UInt8 → Prop
  | intro {d : Char} {low : Nat} (digit : Literal.IsDigit d low) :
      SignedItem ['\\', 'x', '+', d] (UInt8.ofNat low)

def Readable (cs : List Char) (b : UInt8) : Prop := Item cs b ∨ SignedItem cs b

inductive Spells (P : List Char → UInt8 → Prop) : List Char → List UInt8 → Prop
  | nil : Spells P [] []
  | cons {cs ds : List Char} {b : UInt8} {bytes : List UInt8} (first : P cs b)
      (rest : Spells P ds bytes) : Spells P (cs ++ ds) (b :: bytes)

/-- A raw string, or a string of items of a kind, and the bytes that it stands for. -/
inductive Denotes (P : List Char → UInt8 → Prop) : List Char → List UInt8 → Prop
  | raw {body : List Char} (ascii : ∀ c ∈ body, c.toNat < 128) (closed : '`' ∉ body) :
      Denotes P ('`' :: (body ++ ['`'])) (body.map fun c => UInt8.ofNat c.toNat)
  | quoted {body : List Char} {bytes : List UInt8} (items : Spells P body bytes) :
      Denotes P ('"' :: (body ++ ['"'])) bytes

inductive SpellsSigned : List Char → List UInt8 → Prop
  | here {cs ds : List Char} {b : UInt8} {bytes : List UInt8} (first : SignedItem cs b)
      (rest : Spells Readable ds bytes) : SpellsSigned (cs ++ ds) (b :: bytes)
  | later {cs ds : List Char} {b : UInt8} {bytes : List UInt8} (first : Item cs b)
      (rest : SpellsSigned ds bytes) : SpellsSigned (cs ++ ds) (b :: bytes)

/-- A quoted string with a signed item in it, and the bytes that it is read as. -/
inductive DenotesSigned : List Char → List UInt8 → Prop
  | quoted {body : List Char} {bytes : List UInt8} (items : SpellsSigned body bytes) :
      DenotesSigned ('"' :: (body ++ ['"'])) bytes

variable {c : Char} {b : UInt8} {cs ds rest : List Char} {bytes : List UInt8}

theorem escape?_eq_some_iff : escape? c = some b ↔ (c, b) ∈ escapes := by
  constructor
  · intro h
    unfold escape? at h
    split at h
    all_goals cases h
    all_goals decide
  · intro h
    simp only [escapes, List.mem_cons, Prod.mk.injEq, List.not_mem_nil, or_false] at h
    rcases h with ⟨rfl, rfl⟩ | ⟨rfl, rfl⟩ | ⟨rfl, rfl⟩ | ⟨rfl, rfl⟩ | ⟨rfl, rfl⟩ | ⟨rfl, rfl⟩ |
      ⟨rfl, rfl⟩
    all_goals rfl

theorem asciiByte_eq_ok_iff : asciiByte c = .ok b ↔ c.toNat < 128 ∧ b = UInt8.ofNat c.toNat := by
  unfold asciiByte
  split_ifs with h
  · simp only [Except.ok.injEq, h, true_and, eq_comm]
  · exact ⟨nofun, fun hascii => absurd hascii.1 h⟩

theorem numericByte_eq_ok_iff {d : Char} :
    numericByte c d = .ok b ↔ Readable ['\\', 'x', c, d] b := by
  constructor
  · intro h
    unfold numericByte at h
    dsimp only at h
    split at h
    case h_2 => cases h
    case h_1 first second =>
      cases h
      have hlow := Literal.digit?_sixteen_eq_some_iff.1 second
      split_ifs at first with hplus
      · cases first
        subst hplus
        rw [Nat.zero_mul, Nat.zero_add]
        exact .inr ⟨hlow⟩
      · rw [Nat.mul_comm]
        exact .inl (.numeric (Literal.digit?_sixteen_eq_some_iff.1 first) hlow)
  · rintro (h | h)
    · cases h with
      | numeric first second =>
        have hplus : c ≠ '+' := by
          rintro rfl
          exact Literal.not_isDigit_plus first
        simp only [numericByte, if_neg hplus, Literal.digit?_sixteen_eq_some_iff.2 first,
          Literal.digit?_sixteen_eq_some_iff.2 second, Nat.mul_comm]
    · cases h with
      | intro digit =>
        simp only [numericByte, ↓reduceIte, Literal.digit?_sixteen_eq_some_iff.2 digit,
          Nat.zero_mul, Nat.zero_add]

theorem ne_x_of_escape? (h : escape? c = some b) : c ≠ 'x' := by
  rintro rfl
  cases h

theorem items_numeric {whole : String} {d : Char} (h : numericByte c d = .ok b) :
    items whole ('\\' :: 'x' :: c :: d :: rest) =
      (items whole rest).map fun x => (b :: x.1, x.2) := by
  rw [items, h]
  cases items whole rest <;> rfl

theorem items_escape {whole : String} (h : escape? c = some b) :
    items whole ('\\' :: c :: rest) = (items whole rest).map fun x => (b :: x.1, x.2) := by
  have hx := ne_x_of_escape? h
  rw [items.eq_5 whole c rest (fun _ _ _ hc _ => hx hc) hx, h]
  cases items whole rest <;> rfl

theorem items_plain {whole : String} (quote : c ≠ '"') (backslash : c ≠ '\\')
    (h : asciiByte c = .ok b) :
    items whole (c :: rest) = (items whole rest).map fun x => (b :: x.1, x.2) := by
  rw [items.eq_7 whole c rest quote (fun _ _ _ hc _ => backslash hc)
    (fun _ hc _ => backslash hc) (fun _ _ hc _ => backslash hc) (fun hc _ => backslash hc), h]
  cases items whole rest <;> rfl

/-- An item is read off the characters, whatever stands behind it. -/
theorem items_append (h : Readable cs b) (whole : String) (rest : List Char) :
    items whole (cs ++ rest) = (items whole rest).map fun x => (b :: x.1, x.2) := by
  rcases h with (⟨ascii, quote, backslash⟩ | ⟨known⟩ | ⟨first, second⟩) | hsigned
  · exact items_plain quote backslash (asciiByte_eq_ok_iff.2 ⟨ascii, rfl⟩)
  · exact items_escape (escape?_eq_some_iff.2 known)
  · exact items_numeric (numericByte_eq_ok_iff.2 (.inl (.numeric first second)))
  · obtain ⟨digit⟩ := hsigned
    exact items_numeric (numericByte_eq_ok_iff.2 (.inr ⟨digit⟩))

theorem items_of_spells (h : Spells Readable cs bytes) (whole : String) (rest : List Char) :
    items whole (cs ++ '"' :: rest) = .ok (bytes, rest) := by
  induction h with
  | nil => rfl
  | cons first _ ih =>
    rw [List.append_assoc, items_append first, ih]
    rfl

/-- What is left to read behind an item that has been read. -/
theorem spells_cons {whole : String} (first : Readable cs b)
    (ih : ∀ {bytes}, items whole ds = .ok (bytes, rest) →
      ∃ body, ds = body ++ '"' :: rest ∧ Spells Readable body bytes)
    (h : items whole (cs ++ ds) = .ok (bytes, rest)) :
    ∃ body, cs ++ ds = body ++ '"' :: rest ∧ Spells Readable body bytes := by
  rw [items_append first] at h
  cases hrest : items whole ds with
  | error e =>
    rw [hrest] at h
    cases h
  | ok x =>
    rw [hrest] at h
    cases h
    obtain ⟨body, rfl, hbody⟩ := ih hrest
    exact ⟨cs ++ body, (List.append_assoc ..).symm, .cons first hbody⟩

/-- What is read up to the closing quote is items. -/
theorem spells_of_items {whole : String} (h : items whole cs = .ok (bytes, rest)) :
    ∃ body, cs = body ++ '"' :: rest ∧ Spells Readable body bytes := by
  induction cs using items.induct generalizing bytes with
  | case1 => cases h
  | case2 =>
    cases h
    exact ⟨[], rfl, .nil⟩
  | case3 c d ds ih =>
    cases hb : numericByte c d with
    | error e =>
      rw [items, hb] at h
      cases h
    | ok b => exact spells_cons (numericByte_eq_ok_iff.1 hb) ih h
  | case4 digits hshort =>
    rw [items.eq_4 _ _ hshort] at h
    cases h
  | case5 c ds hnumeric hx hunknown =>
    rw [items.eq_5 _ _ _ hnumeric hx, hunknown] at h
    cases h
  | case6 c ds _ _ b hb ih =>
    exact spells_cons (.inl (.escape (escape?_eq_some_iff.1 hb))) ih h
  | case7 => cases h
  | case8 c ds quote hnumeric hshort hescape hlone ih =>
    have backslash : c ≠ '\\' := by
      rintro rfl
      cases ds with
      | nil => exact hlone rfl rfl
      | cons d ds => exact hescape d ds rfl rfl
    cases hb : asciiByte c with
    | error e =>
      rw [items.eq_7 _ _ _ quote hnumeric hshort hescape hlone, hb] at h
      cases h
    | ok b =>
      obtain ⟨ascii, rfl⟩ := asciiByte_eq_ok_iff.1 hb
      exact spells_cons (.inl (.plain ascii quote backslash)) ih h

theorem mapM_asciiByte_eq_ok_iff : cs.mapM asciiByte = .ok bytes ↔
    (∀ c ∈ cs, c.toNat < 128) ∧ bytes = cs.map fun c => UInt8.ofNat c.toNat := by
  induction cs generalizing bytes with
  | nil => simp [pure, Except.pure, eq_comm]
  | cons c cs ih =>
    rw [List.mapM_cons, List.forall_mem_cons, List.map_cons]
    constructor
    · intro h
      cases hb : asciiByte c with
      | error e =>
        rw [hb] at h
        cases h
      | ok b =>
        cases hcs : cs.mapM asciiByte with
        | error e =>
          rw [hb, hcs] at h
          cases h
        | ok rest =>
          rw [hb, hcs] at h
          cases h
          obtain ⟨hascii, rfl⟩ := asciiByte_eq_ok_iff.1 hb
          obtain ⟨hall, rfl⟩ := ih.1 hcs
          exact ⟨⟨hascii, hall⟩, rfl⟩
    · rintro ⟨⟨hascii, hall⟩, rfl⟩
      rw [asciiByte_eq_ok_iff.2 ⟨hascii, rfl⟩, ih.2 ⟨hall, rfl⟩]
      rfl

theorem raw_eq_ok_iff {whole : String} {body : List Char} : raw whole body = .ok bytes ↔
    ∃ cs, body = cs ++ ['`'] ∧ '`' ∉ cs ∧ (∀ c ∈ cs, c.toNat < 128) ∧
      bytes = cs.map fun c => UInt8.ofNat c.toNat := by
  unfold raw
  constructor
  · intro h
    split_ifs at h with hclosed
    obtain ⟨hascii, rfl⟩ := mapM_asciiByte_eq_ok_iff.1 h
    obtain ⟨cs, rfl⟩ := List.getLast?_eq_some_iff.1 hclosed.1
    rw [List.dropLast_concat] at *
    exact ⟨cs, rfl, hclosed.2, hascii, rfl⟩
  · rintro ⟨cs, rfl, hclosed, hascii, rfl⟩
    rw [List.dropLast_concat, List.getLast?_concat, if_pos ⟨rfl, hclosed⟩]
    exact mapM_asciiByte_eq_ok_iff.2 ⟨hascii, rfl⟩

theorem decode_eq_ok_iff {text : String} :
    decode text = .ok bytes ↔ Denotes Readable text.toList bytes := by
  unfold decode
  constructor
  · intro h
    split at h
    case h_1 body htext =>
      obtain ⟨cs, rfl, hclosed, hascii, rfl⟩ := raw_eq_ok_iff.1 h
      rw [htext]
      exact .raw hascii hclosed
    case h_2 body htext =>
      split at h
      case h_1 => cases h
      case h_2 read rest hread =>
        split_ifs at h with hrest
        cases h
        obtain ⟨body, rfl, hbody⟩ := spells_of_items hread
        rw [htext, List.isEmpty_iff.1 hrest]
        exact .quoted hbody
    case h_3 => cases h
  · intro h
    generalize htext : text.toList = cs at h
    cases h with
    | raw ascii closed => exact raw_eq_ok_iff.2 ⟨_, rfl, closed, ascii, rfl⟩
    | quoted items => simp only [items_of_spells items, List.isEmpty_nil, ↓reduceIte]

/-! ### The documented strings among them -/

theorem Spells.mono {P Q : List Char → UInt8 → Prop} (hPQ : ∀ {cs b}, P cs b → Q cs b)
    (h : Spells P cs bytes) : Spells Q cs bytes := by
  induction h with
  | nil => exact .nil
  | cons first _ ih => exact .cons (hPQ first) ih

def width : List Char → Nat
  | '\\' :: 'x' :: _ => 4
  | '\\' :: _ => 2
  | _ => 1

theorem width_append (h : Readable cs b) (rest : List Char) : width (cs ++ rest) = cs.length := by
  rcases h with (⟨ascii, quote, backslash⟩ | ⟨known⟩ | ⟨first, second⟩) | hsigned
  · exact width.eq_3 _ (fun _ hc => backslash (List.cons.inj hc).1)
      (fun _ hc => backslash (List.cons.inj hc).1)
  · have hx := ne_x_of_escape? (escape?_eq_some_iff.2 known)
    exact width.eq_2 _ fun _ hc => hx (List.cons.inj hc).1
  · rfl
  · obtain ⟨digit⟩ := hsigned
    rfl

/-- The same characters are items in one way only. -/
theorem append_inj_of_readable {cs' ds' : List Char} {b' : UInt8} (h : Readable cs b)
    (h' : Readable cs' b') (heq : cs ++ ds = cs' ++ ds') : cs = cs' ∧ ds = ds' := by
  have hlength : cs.length = cs'.length := by
    rw [← width_append h ds, heq, width_append h' ds']
  exact List.append_inj heq hlength

theorem SignedItem.not_item {b' : UInt8} (h : SignedItem cs b) : ¬ Item cs b' := by
  obtain ⟨digit⟩ := h
  intro hitem
  cases hitem with
  | numeric first second => exact Literal.not_isDigit_plus first

theorem Spells.of_append (hspells : Spells Item (cs ++ ds) bytes) (h : Readable cs b) :
    ∃ b' bytes', Item cs b' ∧ Spells Item ds bytes' := by
  generalize hwhole : cs ++ ds = whole at hspells
  cases hspells with
  | nil =>
    have hwidth := width_append h ds
    rw [hwhole] at hwidth
    obtain rfl := (List.append_eq_nil_iff.1 hwhole).1
    cases hwidth
  | cons first rest =>
    obtain ⟨rfl, rfl⟩ := append_inj_of_readable h (.inl first) hwhole
    exact ⟨_, _, first, rest⟩

theorem SpellsSigned.spells (h : SpellsSigned cs bytes) : Spells Readable cs bytes := by
  induction h with
  | here first rest => exact .cons (.inr first) rest
  | later first _ ih => exact .cons (.inl first) ih

theorem spells_or_signed (h : Spells Readable cs bytes) :
    Spells Item cs bytes ∨ SpellsSigned cs bytes := by
  induction h with
  | nil => exact .inl .nil
  | cons first rest ih =>
    rcases first with hitem | hsigned
    · exact ih.imp (.cons hitem) (.later hitem)
    · exact .inr (.here hsigned rest)

theorem SpellsSigned.not_spells (h : SpellsSigned cs bytes) {bytes' : List UInt8} :
    ¬ Spells Item cs bytes' := by
  induction h generalizing bytes' with
  | here first rest =>
    intro hspells
    obtain ⟨b', -, hitem, -⟩ := hspells.of_append (.inr first)
    exact first.not_item hitem
  | later first _ ih =>
    intro hspells
    obtain ⟨-, bytes', -, hrest⟩ := hspells.of_append (.inl first)
    exact ih hrest

theorem denotes_readable_iff :
    Denotes Readable cs bytes ↔ Denotes Item cs bytes ∨ DenotesSigned cs bytes := by
  constructor
  · intro h
    cases h with
    | raw ascii closed => exact .inl (.raw ascii closed)
    | quoted items => exact (spells_or_signed items).imp .quoted .quoted
  · rintro (h | h)
    · cases h with
      | raw ascii closed => exact .raw ascii closed
      | quoted items => exact .quoted (items.mono .inl)
    · obtain ⟨signed⟩ := h
      exact .quoted signed.spells

theorem DenotesSigned.not_denotes (h : DenotesSigned cs bytes) {bytes' : List UInt8} :
    ¬ Denotes Item cs bytes' := by
  obtain ⟨signed⟩ := h
  intro hdenotes
  generalize hwhole : '"' :: (_ ++ ['"']) = whole at hdenotes
  cases hdenotes with
  | raw ascii closed => cases hwhole
  | quoted items =>
    obtain rfl := List.append_cancel_right (List.cons.inj hwhole).2
    exact signed.not_spells items

/-- A string is read as bytes when it is written as the description of the language has it and
stands for these bytes, and in one more case, in which it is not: when a numeric escape in it has
a plus sign in the place of its first digit. -/
theorem decode_eq_ok_iff_denotes (text : String) (bytes : List UInt8) :
    (decode text = .ok bytes ↔
      Denotes Item text.toList bytes ∨ DenotesSigned text.toList bytes) ∧
    (DenotesSigned text.toList bytes → ∀ bytes', ¬ Denotes Item text.toList bytes') :=
  ⟨decode_eq_ok_iff.trans denotes_readable_iff, fun h _ => h.not_denotes⟩

/-- The string with the escape `\x+f`, which is no numeric escape, is read as the byte 15. -/
theorem decode_signed : decode "\"\\x+f\"" = .ok [15] ∧
    ∀ bytes, ¬ Denotes Item "\"\\x+f\"".toList bytes := by
  have hsigned : DenotesSigned "\"\\x+f\"".toList [15] :=
    .quoted (.here (.intro (.inl (by decide))) .nil)
  exact ⟨(decode_eq_ok_iff_denotes _ _).1.2 (.inr hsigned),
    (decode_eq_ok_iff_denotes _ _).2 hsigned⟩

end Source.Quoted

end IjvmAsm
