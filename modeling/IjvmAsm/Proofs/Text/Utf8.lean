import IjvmAsm.Text.Utf8
import Mathlib.Tactic.SplitIfs

/-!
# UTF-8, there and back

Decoding the bytes of a text gives the text, and bytes that can be decoded are those of the text that
they come to. Bytes without a zero come from a text without the character zero.
-/

namespace IjvmAsm.Utf8

variable {b : Nat} {rest : List UInt8}

theorem decodeFrom_whole (hb : b < 0x80) :
    decodeFrom none (UInt8.ofNat b :: rest) = some (Char.ofNat b) :: decodeFrom none rest := by
  have hnat : (UInt8.ofNat b).toNat = b := UInt8.toNat_ofNat_of_lt' (Nat.lt_trans hb (by decide))
  rw [decodeFrom, hnat, lead, if_pos hb]

theorem decodeFrom_more {s : Started} (hb : b < 256) (h : lead b = .more s) :
    decodeFrom none (UInt8.ofNat b :: rest) = decodeFrom (some s) rest := by
  have hnat : (UInt8.ofNat b).toNat = b := UInt8.toNat_ofNat_of_lt' hb
  rw [decodeFrom, hnat, h]

theorem decodeFrom_last {least greatest value : Nat} (hleast : least ≤ b) (hgreatest : b ≤ greatest)
    (hb : b < 256) :
    decodeFrom (some ⟨1, least, greatest, value⟩) (UInt8.ofNat b :: rest) =
      some (Char.ofNat (value * 64 + (b - 0x80))) :: decodeFrom none rest := by
  have hnat : (UInt8.ofNat b).toNat = b := UInt8.toNat_ofNat_of_lt' hb
  rw [decodeFrom]
  simp only [hnat, hleast, hgreatest, and_self, ↓reduceIte, Nat.le_refl]

theorem decodeFrom_next {missing least greatest value : Nat} (hleast : least ≤ b)
    (hgreatest : b ≤ greatest) (hb : b < 256) :
    decodeFrom (some ⟨missing + 2, least, greatest, value⟩) (UInt8.ofNat b :: rest) =
      decodeFrom (some ⟨missing + 1, 0x80, 0xBF, value * 64 + (b - 0x80)⟩) rest := by
  have hnat : (UInt8.ofNat b).toNat = b := UInt8.toNat_ofNat_of_lt' hb
  have hmissing : ¬ missing + 2 ≤ 1 := by omega
  rw [decodeFrom]
  simp only [hnat, hleast, hgreatest, and_self, ↓reduceIte, hmissing, Nat.add_one_sub_one]

theorem toNat_valid (c : Char) :
    c.val.toNat < 0xD800 ∨ 0xDFFF < c.val.toNat ∧ c.val.toNat < 0x110000 := c.valid

theorem decodeFrom_two {v : Nat} (hlow : 0x80 ≤ v) (hhigh : v < 0x800) :
    decodeFrom none (UInt8.ofNat (v / 64 % 0x20 + 0xc0) :: UInt8.ofNat (v % 0x40 + 0x80) :: rest) =
      some (Char.ofNat v) :: decodeFrom none rest := by
  have hvalue : v / 64 % 0x20 + 0xc0 - 0xC0 = v / 64 := by omega
  have hlead : lead (v / 64 % 0x20 + 0xc0) = .more ⟨1, 0x80, 0xBF, v / 64⟩ := by
    rw [lead, if_neg (by omega), if_neg (by omega), if_pos (by omega), hvalue]
  have hchar : v / 64 * 64 + (v % 0x40 + 0x80 - 0x80) = v := by omega
  rw [decodeFrom_more (by omega) hlead, decodeFrom_last (by omega) (by omega) (by omega), hchar]

theorem decodeFrom_three {v : Nat} (hlow : 0x800 ≤ v) (hhigh : v < 0x10000)
    (hvalid : v < 0xD800 ∨ 0xDFFF < v) :
    decodeFrom none (UInt8.ofNat (v / 4096 % 0x10 + 0xe0) ::
      UInt8.ofNat (v / 64 % 0x40 + 0x80) :: UInt8.ofNat (v % 0x40 + 0x80) :: rest) =
      some (Char.ofNat v) :: decodeFrom none rest := by
  have hvalue : v / 4096 % 0x10 + 0xe0 - 0xE0 = v / 4096 := by omega
  have hfirst : (v / 4096 % 0x10 + 0xe0 = 0xE0) = (v / 4096 = 0) := propext (by omega)
  have hsurrogate : (v / 4096 % 0x10 + 0xe0 = 0xED) = (v / 4096 = 13) := propext (by omega)
  have hlead : lead (v / 4096 % 0x10 + 0xe0) = .more ⟨2, if v / 4096 = 0 then 0xA0 else 0x80,
      if v / 4096 = 13 then 0x9F else 0xBF, v / 4096⟩ := by
    rw [lead, if_neg (by omega), if_neg (by omega), if_neg (by omega), if_pos (by omega), hvalue]
    simp only [hfirst, hsurrogate]
  have hchar : (v / 4096 * 64 + (v / 64 % 0x40 + 0x80 - 0x80)) * 64 + (v % 0x40 + 0x80 - 0x80) = v := by
    omega
  rw [decodeFrom_more (by omega) hlead, decodeFrom_next (by split <;> omega) (by split <;> omega)
    (by omega), decodeFrom_last (by omega) (by omega) (by omega), hchar]

theorem decodeFrom_four {v : Nat} (hlow : 0x10000 ≤ v) (hhigh : v < 0x110000) :
    decodeFrom none (UInt8.ofNat (v / 262144 % 0x08 + 0xf0) ::
      UInt8.ofNat (v / 4096 % 0x40 + 0x80) :: UInt8.ofNat (v / 64 % 0x40 + 0x80) ::
      UInt8.ofNat (v % 0x40 + 0x80) :: rest) =
      some (Char.ofNat v) :: decodeFrom none rest := by
  have hvalue : v / 262144 % 0x08 + 0xf0 - 0xF0 = v / 262144 := by omega
  have hfirst : (v / 262144 % 0x08 + 0xf0 = 0xF0) = (v / 262144 = 0) := propext (by omega)
  have hgreatest : (v / 262144 % 0x08 + 0xf0 = 0xF4) = (v / 262144 = 4) := propext (by omega)
  have hlead : lead (v / 262144 % 0x08 + 0xf0) = .more ⟨3, if v / 262144 = 0 then 0x90 else 0x80,
      if v / 262144 = 4 then 0x8F else 0xBF, v / 262144⟩ := by
    rw [lead, if_neg (by omega), if_neg (by omega), if_neg (by omega), if_neg (by omega),
      if_pos (by omega), hvalue]
    simp only [hfirst, hgreatest]
  have hchar : ((v / 262144 * 64 + (v / 4096 % 0x40 + 0x80 - 0x80)) * 64 +
      (v / 64 % 0x40 + 0x80 - 0x80)) * 64 + (v % 0x40 + 0x80 - 0x80) = v := by omega
  rw [decodeFrom_more (by omega) hlead, decodeFrom_next (by split <;> omega) (by split <;> omega)
    (by omega), decodeFrom_next (by omega) (by omega) (by omega),
    decodeFrom_last (by omega) (by omega) (by omega), hchar]

/-- A character comes out of its bytes, whatever follows them. -/
theorem decodeFrom_encodeChar (c : Char) (rest : List UInt8) :
    decodeFrom none (String.utf8EncodeChar c ++ rest) = some c :: decodeFrom none rest := by
  have hvalid := toNat_valid c
  have hc : Char.ofNat c.val.toNat = c := Char.ofNat_toNat c
  unfold String.utf8EncodeChar
  dsimp only
  generalize c.val.toNat = v at hvalid hc
  split
  next hone => exact hc ▸ decodeFrom_whole (by omega)
  next hone =>
    split
    next htwo => exact hc ▸ decodeFrom_two (by omega) (by omega)
    next htwo =>
      split
      next hthree => exact hc ▸ decodeFrom_three (by omega) (by omega) (by omega)
      next hthree => exact hc ▸ decodeFrom_four (by omega) (by omega)

theorem decode_encode (text : String) : decode (encode text) = text.toList.map some := by
  rw [decode, encode]
  induction text.toList with
  | nil => rfl
  | cons c rest ih => rw [List.flatMap_cons, decodeFrom_encodeChar, ih, List.map_cons]

theorem lossyText_encode (text : String) : lossyText (encode text) = text := by
  have hid : ((fun c : Option Char => c.getD (Char.ofNat 0xFFFD)) ∘ some) = id := rfl
  rw [lossyText, decode_encode, List.map_map, hid, List.map_id, String.ofList_toList]

theorem text?_encode (text : String) : text? (encode text) = some text := by
  have hall : ∀ cs : List Char, (cs.map some).mapM id = some cs := by
    intro cs
    induction cs with
    | nil => rfl
    | cons c rest ih => rw [List.map_cons, List.mapM_cons, ih]; rfl
  rw [text?, decode_encode, hall, Option.map_some, String.ofList_toList]

section Decoded

variable {bytes : List UInt8} {c : Char} {more : List (Option Char)}

/-- A character whose last byte is missing has one that may come next. -/
theorem exists_of_decodeFrom_last {least greatest value : Nat}
    (h : decodeFrom (some ⟨1, least, greatest, value⟩) bytes = some c :: more) :
    ∃ b rest, bytes = b :: rest ∧ (least ≤ b.toNat ∧ b.toNat ≤ greatest) ∧
      c = Char.ofNat (value * 64 + (b.toNat - 0x80)) ∧ decodeFrom none rest = more := by
  cases bytes with
  | nil => cases h
  | cons b rest =>
    rw [decodeFrom] at h
    dsimp only at h
    split_ifs at h with hbounds hlast
    · rw [List.cons.injEq, Option.some.injEq] at h
      exact ⟨b, rest, rfl, hbounds, h.1.symm, h.2⟩
    · exact absurd (Nat.le_refl 1) hlast
    · split at h <;> cases h

theorem exists_of_decodeFrom_next {missing least greatest value : Nat}
    (h : decodeFrom (some ⟨missing + 2, least, greatest, value⟩) bytes = some c :: more) :
    ∃ b rest, bytes = b :: rest ∧ (least ≤ b.toNat ∧ b.toNat ≤ greatest) ∧
      decodeFrom (some ⟨missing + 1, 0x80, 0xBF, value * 64 + (b.toNat - 0x80)⟩) rest =
        some c :: more := by
  cases bytes with
  | nil => cases h
  | cons b rest =>
    rw [decodeFrom] at h
    dsimp only at h
    split_ifs at h with hbounds hlast
    · omega
    · exact ⟨b, rest, rfl, hbounds, h⟩
    · split at h <;> cases h

theorem toNat_val_ofNat {v : Nat} (hvalid : v < 0xD800 ∨ 0xDFFF < v ∧ v < 0x110000) :
    (Char.ofNat v).val.toNat = v := by
  have hchar : v.isValidChar := hvalid
  rw [Char.ofNat, dif_pos hchar]
  rfl

/-- The byte with that value. -/
theorem ofNat_eq {n : Nat} {b : UInt8} (h : n = b.toNat) : UInt8.ofNat n = b := by
  rw [h, UInt8.ofNat_toNat]

theorem encodeChar_one {a : UInt8} (ha : a.toNat < 0x80) :
    String.utf8EncodeChar (Char.ofNat a.toNat) = [a] := by
  have hvalue : (Char.ofNat a.toNat).val.toNat = a.toNat := toNat_val_ofNat (by omega)
  unfold String.utf8EncodeChar
  simp only [hvalue]
  rw [if_pos (by omega), ofNat_eq rfl]

theorem encodeChar_two {a b : UInt8} {v : Nat} (ha : 0xC2 ≤ a.toNat ∧ a.toNat < 0xE0)
    (hb : 0x80 ≤ b.toNat ∧ b.toNat ≤ 0xBF)
    (hv : v = (a.toNat - 0xC0) * 64 + (b.toNat - 0x80)) :
    String.utf8EncodeChar (Char.ofNat v) = [a, b] := by
  have hvalue : (Char.ofNat v).val.toNat = v := toNat_val_ofNat (by omega)
  unfold String.utf8EncodeChar
  simp only [hvalue]
  rw [if_neg (by omega), if_pos (by omega), ofNat_eq (b := a) (by omega),
    ofNat_eq (b := b) (by omega)]

theorem encodeChar_three {a b d : UInt8} {v : Nat} (ha : 0xE0 ≤ a.toNat ∧ a.toNat < 0xF0)
    (hb : 0x80 ≤ b.toNat ∧ b.toNat ≤ 0xBF) (hd : 0x80 ≤ d.toNat ∧ d.toNat ≤ 0xBF)
    (hlow : a.toNat = 0xE0 → 0xA0 ≤ b.toNat) (hhigh : a.toNat = 0xED → b.toNat ≤ 0x9F)
    (hv : v = ((a.toNat - 0xE0) * 64 + (b.toNat - 0x80)) * 64 + (d.toNat - 0x80)) :
    String.utf8EncodeChar (Char.ofNat v) = [a, b, d] := by
  have hvalue : (Char.ofNat v).val.toNat = v := toNat_val_ofNat (by omega)
  unfold String.utf8EncodeChar
  simp only [hvalue]
  rw [if_neg (by omega), if_neg (by omega), if_pos (by omega), ofNat_eq (b := a) (by omega),
    ofNat_eq (b := b) (by omega), ofNat_eq (b := d) (by omega)]

theorem encodeChar_four {a b d e : UInt8} {v : Nat} (ha : 0xF0 ≤ a.toNat ∧ a.toNat < 0xF5)
    (hb : 0x80 ≤ b.toNat ∧ b.toNat ≤ 0xBF) (hd : 0x80 ≤ d.toNat ∧ d.toNat ≤ 0xBF)
    (he : 0x80 ≤ e.toNat ∧ e.toNat ≤ 0xBF) (hlow : a.toNat = 0xF0 → 0x90 ≤ b.toNat)
    (hhigh : a.toNat = 0xF4 → b.toNat ≤ 0x8F)
    (hv : v = (((a.toNat - 0xF0) * 64 + (b.toNat - 0x80)) * 64 + (d.toNat - 0x80)) * 64 +
      (e.toNat - 0x80)) :
    String.utf8EncodeChar (Char.ofNat v) = [a, b, d, e] := by
  have hvalue : (Char.ofNat v).val.toNat = v := toNat_val_ofNat (by omega)
  unfold String.utf8EncodeChar
  simp only [hvalue]
  rw [if_neg (by omega), if_neg (by omega), if_neg (by omega), ofNat_eq (b := a) (by omega),
    ofNat_eq (b := b) (by omega), ofNat_eq (b := d) (by omega), ofNat_eq (b := e) (by omega)]

/-- A character that is decoded stands there as it is encoded. -/
theorem exists_of_decodeFrom_none (h : decodeFrom none bytes = some c :: more) :
    ∃ rest, bytes = String.utf8EncodeChar c ++ rest ∧ decodeFrom none rest = more := by
  cases bytes with
  | nil => cases h
  | cons a tail =>
    rw [decodeFrom, lead] at h
    by_cases hone : a.toNat < 0x80
    · rw [if_pos hone, List.cons.injEq, Option.some.injEq] at h
      exact ⟨tail, by rw [← h.1, encodeChar_one hone]; rfl, h.2⟩
    by_cases hstray : a.toNat < 0xC2
    · rw [if_neg hone, if_pos hstray] at h
      cases h
    by_cases htwo : a.toNat < 0xE0
    · rw [if_neg hone, if_neg hstray, if_pos htwo] at h
      obtain ⟨b, rest, rfl, hb, hc, hmore⟩ := exists_of_decodeFrom_last h
      refine ⟨rest, ?_, hmore⟩
      rw [hc, encodeChar_two (by omega) hb rfl]
      rfl
    by_cases hthree : a.toNat < 0xF0
    · rw [if_neg hone, if_neg hstray, if_neg htwo, if_pos hthree] at h
      obtain ⟨b, rest, rfl, hb, h⟩ := exists_of_decodeFrom_next h
      obtain ⟨d, rest, rfl, hd, hc, hmore⟩ := exists_of_decodeFrom_last h
      refine ⟨rest, ?_, hmore⟩
      rw [hc, encodeChar_three (by omega) (by split_ifs at hb <;> omega) hd
        (by split_ifs at hb <;> omega) (by split_ifs at hb <;> omega) rfl]
      rfl
    by_cases hfour : a.toNat < 0xF5
    · rw [if_neg hone, if_neg hstray, if_neg htwo, if_neg hthree, if_pos hfour] at h
      obtain ⟨b, rest, rfl, hb, h⟩ := exists_of_decodeFrom_next h
      obtain ⟨d, rest, rfl, hd, h⟩ := exists_of_decodeFrom_next h
      obtain ⟨e, rest, rfl, he, hc, hmore⟩ := exists_of_decodeFrom_last h
      refine ⟨rest, ?_, hmore⟩
      rw [hc, encodeChar_four (by omega) (by split_ifs at hb <;> omega) hd he
        (by split_ifs at hb <;> omega) (by split_ifs at hb <;> omega) rfl]
      rfl
    · rw [if_neg hone, if_neg hstray, if_neg htwo, if_neg hthree, if_neg hfour] at h
      cases h

theorem decodeFrom_some_ne_nil (s : Started) (bytes : List UInt8) :
    decodeFrom (some s) bytes ≠ [] := by
  induction bytes generalizing s with
  | nil => exact List.cons_ne_nil _ _
  | cons b rest ih =>
    rw [decodeFrom]
    dsimp only
    split_ifs
    · exact List.cons_ne_nil _ _
    · exact ih _
    · split <;> exact List.cons_ne_nil _ _

theorem eq_flatMap_of_decode {cs : List Char} (h : decodeFrom none bytes = cs.map some) :
    bytes = cs.flatMap String.utf8EncodeChar := by
  induction cs generalizing bytes with
  | nil =>
    cases bytes with
    | nil => rfl
    | cons b rest =>
      rw [decodeFrom] at h
      split at h
      · cases h
      · exact absurd h (decodeFrom_some_ne_nil _ _)
      · cases h
  | cons c cs ih =>
    obtain ⟨rest, rfl, hrest⟩ := exists_of_decodeFrom_none h
    rw [List.flatMap_cons, ← ih hrest]

theorem map_some_of_mapM_id {xs : List (Option Char)} {cs : List Char} (h : xs.mapM id = some cs) :
    xs = cs.map some := by
  induction xs generalizing cs with
  | nil =>
    cases h
    rfl
  | cons x rest ih =>
    rw [List.mapM_cons] at h
    cases x with
    | none => cases h
    | some c =>
      cases hrest : rest.mapM id with
      | none =>
        rw [hrest] at h
        cases h
      | some more =>
        rw [hrest] at h
        cases h
        rw [ih hrest, List.map_cons]

/-- Bytes that can be decoded are those that encode the text. -/
theorem encode_of_text? {text : String} (h : text? bytes = some text) : encode text = bytes := by
  obtain ⟨cs, hcs, rfl⟩ := Option.map_eq_some_iff.1 h
  rw [encode, String.toList_ofList]
  exact (eq_flatMap_of_decode (map_some_of_mapM_id hcs)).symm

theorem text?_eq_some_iff {text : String} : text? bytes = some text ↔ bytes = encode text := by
  constructor
  · intro h
    exact (encode_of_text? h).symm
  · rintro rfl
    exact text?_encode text

end Decoded

/-- A byte below 128 stands for the character of its value and belongs to no other. -/
theorem toNat_of_mem_encodeChar {c : Char} {b : UInt8} (hb : b.toNat < 128)
    (h : b ∈ String.utf8EncodeChar c) : c.toNat = b.toNat := by
  have hbyte : ∀ n < 256, b = UInt8.ofNat n → b.toNat = n := by
    rintro n hn rfl
    exact UInt8.toNat_ofNat_of_lt' hn
  have hvalue : c.toNat = c.val.toNat := rfl
  rw [hvalue]
  unfold String.utf8EncodeChar at h
  dsimp only at h
  generalize c.val.toNat = v at h
  split at h
  next hone => exact (hbyte v (by omega) (List.mem_singleton.1 h)).symm
  next hone =>
    split at h
    next htwo =>
      simp only [List.mem_cons, List.not_mem_nil, or_false] at h
      rcases h with h | h <;> exact absurd (hbyte _ (by omega) h) (by omega)
    next htwo =>
      split at h
      next hthree =>
        simp only [List.mem_cons, List.not_mem_nil, or_false] at h
        rcases h with h | h | h <;> exact absurd (hbyte _ (by omega) h) (by omega)
      next hthree =>
        simp only [List.mem_cons, List.not_mem_nil, or_false] at h
        rcases h with h | h | h | h <;> exact absurd (hbyte _ (by omega) h) (by omega)

theorem notMem_encode {text : String} {b : UInt8} (hb : b.toNat < 128)
    (h : Char.ofNat b.toNat ∉ text.toList) : b ∉ encode text := by
  rw [encode, List.mem_flatMap]
  rintro ⟨c, hc, hmem⟩
  apply h
  rw [← toNat_of_mem_encodeChar hb hmem, Char.ofNat_toNat]
  exact hc

end IjvmAsm.Utf8
