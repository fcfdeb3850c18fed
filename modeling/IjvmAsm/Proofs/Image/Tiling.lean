import IjvmAsm.Proofs.Image.Layout
import IjvmAsm.Image.Listing

/-!
# Listings lose nothing

The lines of a listing tile the text of an image: each stands where the one before it ends, and
written again one behind the other they give the text. Where the bytes that are left are too few for
what begins with them, the listing fails and tells the offset, and up to there the lines tile the
text too. This holds of all bytes, whatever the symbols promise and whatever the set decodes.
-/

namespace IjvmAsm

open Emission

namespace OperandKind

/-- Operands that are read are all there are, and what was read is written for them. -/
theorem readAll_eq_some {wide : Bool} {kinds : List OperandKind} {bytes rest : Bytes}
    {values : List Int} (h : readAll wide kinds bytes = some (values, rest)) :
    values.length = kinds.length ∧
      (∀ x ∈ kinds.zip (values.map Argument.resolved), x.2.Writable false wide x.1) ∧
        bytes = Instruction.operandBytes wide kinds (values.map Argument.resolved) ++ rest := by
  induction kinds generalizing bytes values with
  | nil =>
    simp only [readAll, Option.some.injEq, Prod.mk.injEq] at h
    obtain ⟨rfl, rfl⟩ := h
    exact ⟨rfl, List.forall_mem_nil _, rfl⟩
  | cons kind kinds ih =>
    simp only [readAll, Option.bind_eq_bind, Option.bind_eq_some_iff, Prod.exists] at h
    obtain ⟨front, back, hfront, more, rest', hmore, h⟩ := h
    simp only [Option.pure_def, Option.some.injEq, Prod.mk.injEq] at h
    obtain ⟨rfl, rfl⟩ := h
    obtain ⟨rfl, hlength⟩ := Bytes.take?_eq_some hfront
    obtain ⟨hcount, hwritable, rfl⟩ := ih hmore
    refine ⟨congrArg (· + 1) hcount, ?_, ?_⟩
    · rw [List.map_cons, List.zip_cons_cons, List.forall_mem_cons]
      exact ⟨⟨.inl rfl, fits_value hlength⟩, hwritable⟩
    · have hcons : Instruction.operandBytes wide (kind :: kinds)
          (.resolved (kind.value front) :: more.map Argument.resolved) =
          kind.encode wide (kind.value front) ++
            Instruction.operandBytes wide kinds (more.map Argument.resolved) := rfl
      rw [List.map_cons, hcons, encode_value hlength, List.append_assoc]

end OperandKind

def CodeLine.instruction (d : CodeLine) : Instruction :=
  { operation := d.operation
    arguments := d.operands.map Argument.resolved
    line := 0
    wide := d.wide
    offset := d.offset }

namespace ListingLine

/-- The line written again: a header as its two counts, an instruction as programs are emitted. -/
def emission : ListingLine → Emission
  | header _ params locals => [.write (Bytes.ofNat 2 params), .write (Bytes.ofNat 2 locals)]
  | instruction decoded => decoded.instruction.emission false ""
  | unknown _ byte => [.write [byte]]

/-- What a line at an offset shows: a header just where one is promised, an operation by its opcode
and with all its operands, and a byte as unknown only if it is no opcode. -/
inductive ShownAt (isHeader : Nat → Bool) (set : InstructionSet) (offset : Nat) (wide : Bool) :
    ListingLine → Prop
  | header (params locals : Nat) (promised : isHeader offset = true) :
      ShownAt isHeader set offset wide (.header offset params locals)
  | instruction (operation : Operation) (operands : List Int) (unpromised : isHeader offset = false)
      (decoded : set.decode? operation.opcode = some operation)
      (arity : operands.length = operation.operands.length) :
      ShownAt isHeader set offset wide (.instruction ⟨offset, operation, operands, wide⟩)
  | unknown (byte : UInt8) (unpromised : isHeader offset = false)
      (undecoded : set.decode? byte = none) :
      ShownAt isHeader set offset wide (.unknown offset byte)

theorem ShownAt.offset_eq {isHeader : Nat → Bool} {set : InstructionSet} {offset : Nat}
    {wide : Bool} {line : ListingLine} (h : line.ShownAt isHeader set offset wide) :
    line.offset = offset := by
  cases h <;> rfl

end ListingLine

/-- Lines from an offset on, each at the place where the one before it ends, up to another offset.
An instruction is wide just behind a line that widens; the flags say whether one at the beginning
and one behind the end would be. -/
inductive Tiles (isHeader : Nat → Bool) (set : InstructionSet) :
    Nat → Bool → List ListingLine → Nat → Bool → Prop
  | nil (offset : Nat) (wide : Bool) : Tiles isHeader set offset wide [] offset wide
  | cons {offset stop : Nat} {wide after : Bool} {line : ListingLine} {rest : List ListingLine}
      (shown : line.ShownAt isHeader set offset wide)
      (more : Tiles isHeader set (offset + line.size) line.widens rest stop after) :
      Tiles isHeader set offset wide (line :: rest) stop after

/-- Lines that tile stand one behind the other. -/
theorem Tiles.pairwise {isHeader : Nat → Bool} {set : InstructionSet} {offset stop : Nat}
    {wide after : Bool} {lines : List ListingLine}
    (h : Tiles isHeader set offset wide lines stop after) :
    (∀ line ∈ lines, offset ≤ line.offset) ∧
      lines.Pairwise fun line line' => line.offset + line.size ≤ line'.offset := by
  induction h with
  | nil => exact ⟨List.forall_mem_nil _, .nil⟩
  | cons shown _ ih =>
    obtain ⟨hbehind, hpairwise⟩ := ih
    rw [List.forall_mem_cons, List.pairwise_cons, shown.offset_eq]
    refine ⟨⟨Nat.le_refl _, fun line' hline' => ?_⟩, hbehind, hpairwise⟩
    exact Nat.le_trans (Nat.le_add_right _ _) (hbehind line' hline')

namespace Image

variable {isHeader : Nat → Bool} {set : InstructionSet} {offset : Nat} {wide : Bool}

theorem opcode_of_decode? {b : UInt8} {operation : Operation}
    (h : set.decode? b = some operation) : operation.opcode = b := by
  have hopcode := List.find?_some h
  rwa [beq_iff_eq] at hopcode

/-- The counts in a header are written again as its bytes. -/
theorem writes_header (offset : Nat) (b c d e : UInt8) :
    Writes (ListingLine.emission (.header offset (Bytes.toNat [b, c]) (Bytes.toNat [d, e])))
      [b, c, d, e] := by
  have hparams : Bytes.ofNat 2 (Bytes.toNat [b, c]) = [b, c] := Bytes.ofNat_toNat [b, c]
  have hlocals : Bytes.ofNat 2 (Bytes.toNat [d, e]) = [d, e] := Bytes.ofNat_toNat [d, e]
  rw [ListingLine.emission, hparams, hlocals]
  rfl

/-- The first line shows what is there, and is written again as the bytes it takes. -/
theorem shownAt_of_listingLine {b : UInt8} {bytes rest : Bytes} {line : ListingLine}
    (h : listingLine isHeader set offset wide b bytes = .ok (line, rest)) :
    line.ShownAt isHeader set offset wide ∧
      ∃ front, b :: bytes = front ++ rest ∧ Writes line.emission front := by
  unfold listingLine at h
  split at h
  next hpromised =>
    split at h
    next c d e rest =>
      cases h
      exact ⟨.header _ _ hpromised, [b, c, d, e], rfl, writes_header offset b c d e⟩
    next => cases h
  next hunpromised =>
    rw [Bool.not_eq_true] at hunpromised
    split at h
    next hundecoded =>
      cases h
      exact ⟨.unknown b hunpromised hundecoded, [b], rfl, rfl⟩
    next operation hdecoded =>
      have hopcode := opcode_of_decode? hdecoded
      split at h
      next => cases h
      next values rest hread =>
        cases h
        obtain ⟨harity, hwritable, rfl⟩ := OperandKind.readAll_eq_some hread
        subst hopcode
        exact ⟨.instruction operation values hunpromised hdecoded harity, _, rfl,
          Instruction.writes_emission.2 ⟨hwritable, rfl⟩⟩

/-- Lines that are listed tile all the bytes and give them back. -/
theorem tiles_of_listingFrom {bytes : Bytes} {lines : List ListingLine}
    (h : listingFrom isHeader set offset wide bytes = .ok lines) :
    (∃ after, Tiles isHeader set offset wide lines (offset + bytes.length) after) ∧
      Writes (lines.flatMap ListingLine.emission) bytes := by
  fun_induction listingFrom isHeader set offset wide bytes generalizing lines with
  | case1 =>
    cases h
    exact ⟨⟨_, .nil _ _⟩, rfl⟩
  | case2 => cases h
  | case3 offset wide b bytes line rest hline ih =>
    cases hrest : listingFrom isHeader set (offset + line.size) line.widens rest with
    | error e =>
      rw [hrest] at h
      cases h
    | ok more =>
      rw [hrest] at h
      cases h
      obtain ⟨hshown, front, hbytes, hwrites⟩ := shownAt_of_listingLine hline
      obtain ⟨⟨after, htiles⟩, hmore⟩ := ih hrest
      have hlength := length_listingLine hline
      have hstop : offset + line.size + rest.length = offset + (b :: bytes).length := by
        rw [List.length_cons]
        omega
      rw [hstop] at htiles
      refine ⟨⟨after, .cons hshown htiles⟩, ?_⟩
      rw [hbytes, List.flatMap_cons]
      exact writes_append.2 ⟨front, rest, hwrites, hmore, rfl⟩

end Image

end IjvmAsm
