import IjvmAsm.Proofs.Image.Layout

/-!
# Images cut short

Whoever reads a front of an image reads what stands in it, until the front ends where a number, a
run or a block should go on. So a front is an image only if it ends where nothing has to follow,
which is behind the text.
-/

namespace IjvmAsm.Image

variable {α β : Type} {front back bytes rest : Bytes} {a : α}

def Short (x : Except ImageError α) : Prop := ∃ e, x = .error e ∧ e.reading?.isSome = true

/-- What becomes of reading `a`, with `rest` behind it, if the bytes lose their end `back`: the same
is read with as much less behind it, or the bytes end too early. -/
inductive Cut (back : Bytes) (a : α) (rest : Bytes) : Except ImageError (α × Bytes) → Prop
  | through (front : Bytes) (h : rest = front ++ back) : Cut back a rest (.ok (a, front))
  | short (e : ImageError) (h : e.reading?.isSome = true) : Cut back a rest (.error e)

/-- What is read next goes on with what is left of the front. -/
theorem Cut.bind {x : Except ImageError (α × Bytes)} {f : α × Bytes → Except ImageError β}
    {P : Except ImageError β → Prop} (h : Cut back a rest x) (hshort : ∀ y, Short y → P y)
    (hthrough : ∀ front, rest = front ++ back → P (f (a, front))) : P (x >>= f) := by
  cases h with
  | through front h => exact hthrough front h
  | short e h => exact hshort _ ⟨e, rfl, h⟩

theorem Cut.short_bind {x : Except ImageError (α × Bytes)} {f : α × Bytes → Except ImageError β}
    (h : Cut back a rest x) (hthrough : ∀ front, rest = front ++ back → Short (f (a, front))) :
    Short (x >>= f) :=
  h.bind (fun _ => id) hthrough

theorem Cut.of_short {x : Except ImageError (α × Bytes)} (h : Short x) : Cut back a rest x := by
  obtain ⟨e, rfl, he⟩ := h
  exact .short e he

theorem cut_run {length : Nat} {run' : Bytes} (h : run length (front ++ back) = .ok (run', rest)) :
    Cut back run' rest (run length front) := by
  cases htake : front.take? length with
  | none =>
    rw [run, htake]
    exact .short _ rfl
  | some parts =>
    obtain ⟨before, after⟩ := parts
    obtain ⟨rfl, hlength⟩ := Bytes.take?_eq_some htake
    rw [List.append_assoc, run_append hlength] at h
    cases h
    rw [run_append hlength]
    exact .through after rfl

theorem cut_number {n : Nat} (h : number (front ++ back) = .ok (n, rest)) :
    Cut back n rest (number front) := by
  obtain ⟨hlt, heq⟩ := number_eq_ok_iff.1 h
  cases htake : front.take? 4 with
  | none =>
    rw [number, Bytes.natFirst?, htake]
    exact .short _ rfl
  | some parts =>
    obtain ⟨before, after⟩ := parts
    obtain ⟨rfl, hlength⟩ := Bytes.take?_eq_some htake
    rw [List.append_assoc] at heq
    obtain ⟨rfl, rfl⟩ := List.append_inj heq (hlength.trans (Bytes.length_ofNat 4 n).symm)
    rw [number_ofNat_of_lt hlt]
    exact .through after rfl

theorem cut_block {marker : Nat} {symbols : List Symbol}
    (h : block marker (front ++ back) = .ok (symbols, rest)) :
    Cut back symbols rest (block marker front) := by
  simp only [block, bind_eq_ok_iff, Prod.exists, guard_eq_ok_iff, pure, Except.pure,
    Except.ok.injEq, Prod.mk.injEq] at h
  obtain ⟨found, _, hfound, hmarker, length, _, hlength, payload, _, hpayload, _, hsymbols, rfl,
    rfl⟩ := h
  unfold block
  refine (cut_number hfound).bind (fun _ => Cut.of_short) ?_
  rintro front rfl
  dsimp only
  rw [if_neg hmarker]
  refine (cut_number hlength).bind (fun _ => Cut.of_short) ?_
  rintro front rfl
  refine (cut_run hpayload).bind (fun _ => Cut.of_short) fun front hfront => ?_
  dsimp only
  rw [hsymbols]
  exact .through front hfront

/-- Only if nothing is left of them, symbols that lose their end can still be read. -/
theorem short_symbolsOf {symbols : Option Symbols} (h : symbolsOf (front ++ back) = .ok symbols)
    (hback : back ≠ []) (hfront : front ≠ []) : Short (symbolsOf front) := by
  have hwhole : (front ++ back).isEmpty = false := by
    rw [List.isEmpty_eq_false_iff]
    exact List.append_ne_nil_of_left_ne_nil hfront back
  have hpart : front.isEmpty = false := List.isEmpty_eq_false_iff.2 hfront
  simp only [symbolsOf, hwhole, Bool.false_eq_true, ↓reduceIte, bind_eq_ok_iff, Prod.exists,
    guard_eq_ok_iff] at h
  obtain ⟨methods, _, hmethods, labels, behind, hlabels, hbehind, _⟩ := h
  simp only [symbolsOf, hpart, Bool.false_eq_true, ↓reduceIte]
  refine (cut_block hmethods).short_bind ?_
  rintro front rfl
  refine (cut_block hlabels).short_bind fun front hfront => ?_
  -- the labels end where the bytes end, so they lose their end with them
  rw [Bool.not_eq_true', Bool.not_eq_false, List.isEmpty_iff, hfront,
    List.append_eq_nil_iff] at hbehind
  exact absurd hbehind.2 hback

def textEnd (image : Image) : Nat := 20 + 4 * image.constants.length + image.text.length

theorem length_framed (image : Image) (trailer : Bytes) :
    (framed image.poolOffset image.constants image.dataBase image.text trailer).length =
      image.textEnd + trailer.length := by
  simp only [framed, List.length_append, Bytes.length_ofNat, length_poolBytes, textEnd]
  omega

theorem length_of_run {length : Nat} {run' : Bytes} (h : run length bytes = .ok (run', rest)) :
    bytes.length = run'.length + rest.length ∧ run'.length = length := by
  obtain ⟨hlength, rfl⟩ := run_eq_ok_iff.1 h
  exact ⟨List.length_append, hlength⟩

theorem length_constantsOf {pool : Bytes} (h : pool.length % 4 = 0) :
    4 * (constantsOf pool).length = pool.length := by
  have hlength := length_poolBytes (constantsOf pool)
  rw [poolBytes_constantsOf h] at hlength
  omega

theorem short_parse {image : Image} (h : parse (front ++ back) = .ok image) (hback : back ≠ [])
    (hend : front.length ≠ image.textEnd) : Short (parse front) := by
  simp only [parse, bind_eq_ok_iff, Prod.exists, guard_eq_ok_iff, pure, Except.pure,
    Except.ok.injEq] at h
  obtain ⟨found, _, hfound, hmagic, poolOffset, _, hoffset, poolSize, _, hsize, hmultiple, pool, _,
    hpool, dataBase, _, hbase, textSize, _, htextSize, text, _, htext, symbols, hsymbols, rfl⟩ := h
  unfold parse
  refine (cut_number hfound).short_bind ?_
  rintro front₁ rfl
  dsimp only
  rw [if_neg hmagic]
  refine (cut_number hoffset).short_bind ?_
  rintro front₂ rfl
  refine (cut_number hsize).short_bind ?_
  rintro front₃ rfl
  dsimp only
  rw [if_neg hmultiple]
  refine (cut_run hpool).short_bind ?_
  rintro front₄ rfl
  refine (cut_number hbase).short_bind ?_
  rintro front₅ rfl
  refine (cut_number htextSize).short_bind ?_
  rintro front₆ rfl
  refine (cut_run htext).short_bind ?_
  rintro front₇ rfl
  have hfront : front₇ ≠ [] := by
    rintro rfl
    have hcount := length_constantsOf
      (by rw [(length_of_run hpool).2]; exact not_ne_iff.1 hmultiple)
    have := length_of_number hfound
    have := length_of_number hoffset
    have := length_of_number hsize
    have := length_of_run hpool
    have := length_of_number hbase
    have := length_of_number htextSize
    have := length_of_run htext
    simp only [List.length_append, List.length_nil, textEnd] at *
    omega
  obtain ⟨e, he, hreading⟩ := short_symbolsOf hsymbols hback hfront
  exact ⟨e, by dsimp only; rw [he]; rfl, hreading⟩

/-- What ends with the text of an image is read as the image without its symbols. -/
theorem parse_of_length_eq_textEnd {image : Image} (h : parse bytes = .ok image)
    (hfront : front <+: bytes) (hend : front.length = image.textEnd) :
    parse front = .ok { image with symbols := none } := by
  obtain ⟨l, rfl, rfl⟩ := exists_layout_of_parse h
  let bare : Layout := { l with blocks := none }
  have hbytes : l.bytes = bare.bytes ++ blockPair l.blocks := by
    simp only [bare, Layout.bytes, framed, blockPair, List.append_assoc, List.append_nil]
  have hlength : bare.bytes.length = front.length := by
    rw [hend]
    exact length_framed l.image []
  rw [hbytes] at hfront
  obtain rfl : front = bare.bytes :=
    (List.prefix_of_prefix_length_le hfront (List.prefix_append _ _) hlength.ge).eq_of_length
      hlength.symm
  exact parse_layout bare

theorem length_of_symbols_eq_none {image : Image} (h : parse bytes = .ok image)
    (hnone : image.symbols = none) : bytes.length = image.textEnd := by
  obtain ⟨l, rfl, rfl⟩ := exists_layout_of_parse h
  have hblocks : blockPair l.blocks = [] := by
    rw [Option.map_eq_none_iff.1 hnone]
    rfl
  rw [Layout.bytes, hblocks]
  exact length_framed l.image []

/-- An image that is cut short is not read, for want of bytes; only if exactly its symbols are cut
off, it is read without them. -/
theorem parse_cutShort {image : Image} (h : parse bytes = .ok image) (hfront : front <+: bytes)
    (hne : front ≠ bytes) :
    if image.symbols.isSome = true ∧ front.length = image.textEnd then
      parse front = .ok { image with symbols := none }
    else ∃ e, parse front = .error e ∧ e.reading?.isSome = true := by
  obtain ⟨back, rfl⟩ := hfront
  have hback : back ≠ [] := by
    rintro rfl
    exact hne (List.append_nil front).symm
  by_cases hend : front.length = image.textEnd
  · have hfront := parse_of_length_eq_textEnd h (List.prefix_append front back) hend
    have hsymbols : image.symbols.isSome = true := by
      rw [Option.isSome_iff_ne_none]
      intro hnone
      have hlength := length_of_symbols_eq_none h hnone
      rw [List.length_append, hend, Nat.add_eq_left] at hlength
      exact hback (List.eq_nil_of_length_eq_zero hlength)
    rw [if_pos ⟨hsymbols, hend⟩]
    exact hfront
  · rw [if_neg fun hc => hend hc.2]
    exact short_parse h hback hend

theorem parse_cutShort_accented :
    parse accented.encode = .ok accented ∧
      accented.encode.take 31 <+: accented.encode ∧ accented.encode.take 31 ≠ accented.encode ∧
      accented.encode.take 55 <+: accented.encode ∧ accented.encode.take 55 ≠ accented.encode ∧
      parse (accented.encode.take 31) = .ok { accented with symbols := none } ∧
      ∃ e, parse (accented.encode.take 55) = .error e ∧ e.reading?.isSome = true := by
  have hparse := parse_encode encodable_accented
  have hsymbols : accented.encode.take 31 ≠ accented.encode := by decide
  have hname : accented.encode.take 55 ≠ accented.encode := by decide
  have hbare := parse_cutShort hparse (List.take_prefix 31 _) hsymbols
  have hshort := parse_cutShort hparse (List.take_prefix 55 _) hname
  rw [if_pos (by decide)] at hbare
  rw [if_neg (by decide)] at hshort
  exact ⟨hparse, List.take_prefix _ _, hsymbols, List.take_prefix _ _, hname, hbare, hshort⟩

end IjvmAsm.Image
