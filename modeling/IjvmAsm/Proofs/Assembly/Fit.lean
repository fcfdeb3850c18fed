import IjvmAsm.Proofs.Assembly.Arity
import IjvmAsm.Proofs.Assembly.Kept

/-!
# Arguments that fit

A line is refused if it gives an operation a byte that is too large or a slot that is too far away,
and linking refuses labels that are. So every byte, slot and distance in a program without errors
can be written where it is due. Only the indices of constants may be too large.
-/

namespace IjvmAsm

/-- The arguments that lines give where that kind of operand is due, among that many constants. -/
inductive Suits (count : Nat) (wide : Bool) : OperandKind → Argument → Prop
  | byte {value : Int} (fits : OperandKind.byte.fits wide value = true) :
      Suits count wide .byte (.resolved value)
  | var {slot : Nat} (fits : OperandKind.var.fits wide slot = true) :
      Suits count wide .var (.resolved slot)
  | constant {index : Nat} (lt : index < count) : Suits count wide .constant (.resolved index)
  | label (name : String) : Suits count wide .label (.pending (.label name))
  | method (name : String) : Suits count wide .method (.pending (.method name))

def OperandKind.isIndex : OperandKind → Bool
  | method | constant => true
  | byte | label | var => false

/-- What linking makes of such an argument. -/
inductive Fits (count : Nat) (wide : Bool) : OperandKind → Argument → Prop
  | value {kind : OperandKind} {value : Int} (kept : kind.isIndex = false)
      (fits : kind.fits wide value = true) : Fits count wide kind (.resolved value)
  | index {kind : OperandKind} {index : Nat} (pooled : kind.isIndex = true) (lt : index < count) :
      Fits count wide kind (.resolved index)

variable {count count' : Nat} {wide : Bool} {kind : OperandKind}

theorem Suits.mono (h : count ≤ count') {argument : Argument} (hsuits : Suits count wide kind argument) :
    Suits count' wide kind argument := by
  cases hsuits with
  | byte fits => exact .byte fits
  | var fits => exact .var fits
  | constant lt => exact .constant (by omega)
  | label name => exact .label name
  | method name => exact .method name

theorem fitsUnsigned_sixteen_iff {value : Int} :
    fitsUnsigned 16 value = true ↔ 0 ≤ value ∧ value < 0x10000 := fitsUnsigned_iff

theorem fits_byte_iff {value : Int} :
    OperandKind.byte.fits wide value = true ↔ -0x80 ≤ value ∧ value < 0x80 := fitsSigned_iff

theorem fits_byte_toInt8 (b : UInt8) : OperandKind.byte.fits wide b.toInt8.toInt = true :=
  fits_byte_iff.2 ⟨Int8.le_toInt b.toInt8, Int8.toInt_lt b.toInt8⟩

theorem fits_label_iff {value : Int} :
    OperandKind.label.fits wide value = true ↔ -0x8000 ≤ value ∧ value < 0x8000 :=
  fitsSigned_sixteen_iff value

theorem fits_index_iff (h : kind.isIndex = true) {index : Nat} :
    kind.fits wide index = true ↔ index ≤ 0xFFFF := by
  have hfits : kind.fits wide index = fitsUnsigned 16 index := by
    cases kind with
    | method => rfl
    | constant => rfl
    | byte => cases h
    | label => cases h
    | var => cases h
  rw [hfits, fitsUnsigned_sixteen_iff]
  omega

theorem fits_var_of_wide {slot : Nat} (h : slot ≤ 0xFFFF) :
    OperandKind.var.fits true slot = true := by
  have hfits : OperandKind.var.fits true slot = fitsUnsigned 16 slot := rfl
  rw [hfits, fitsUnsigned_sixteen_iff]
  omega

theorem fits_var_of_narrow {slot : Nat} (h : slot ≤ 0xFF) :
    OperandKind.var.fits wide slot = true := by
  cases wide with
  | false =>
    have hfits : OperandKind.var.fits false slot = fitsUnsigned 8 slot := rfl
    rw [hfits, fitsUnsigned_iff]
    omega
  | true => exact fits_var_of_wide (by omega)

theorem Literal.bounds_of_characterOrSigned {token : String} {value : Int}
    (h : Literal.characterOrSigned 8 token = .ok value) : -0x80 ≤ value ∧ value < 0x80 := by
  unfold characterOrSigned at h
  split_ifs at h with hquote
  · unfold character at h
    split at h
    · split_ifs at h with hascii
      cases h
      omega
    · cases h
  · unfold signed at h
    cases hinteger : integer? token with
    | error cause =>
      rw [hinteger] at h
      cases h
    | ok n =>
      simp only [hinteger, bind, Except.bind] at h
      split_ifs at h with hfits
      cases h
      exact fitsSigned_iff.1 hfits

def Instruction.Suited (count : Nat) (i : Instruction) : Prop :=
  List.Forall₂ (Suits count i.wide) i.operation.operands i.arguments

namespace Assembly

variable {s : Setup} {p : Program} {m : Method}

def Suitable (count : Nat) (m : Method) : Prop := ∀ i ∈ m.instructions, i.Suited count

theorem Suitable.push (h : Suitable count m) {i : Instruction}
    (hi : List.Forall₂ (Suits count (i.wide || m.widensNext)) i.operation.operands i.arguments) :
    Suitable count (m.push i) := by
  intro j hj
  rcases Array.mem_push.1 hj with hj | rfl
  · exact h j hj
  · exact hi

/-- A slot suits an instruction that is wide if the one before it widens or one that does is
inserted. -/
theorem suits_of_slotArgument {token : String} {argument : Argument} {widen : Bool}
    (h : slotArgument s m token = .ok (argument, widen)) (hwide : m.widensNext = true → wide = true)
    (hwiden : widen = true → wide = true) : Suits count wide .var argument := by
  unfold slotArgument at h
  cases hvariable : m.findVariable? token with
  | none => simp [hvariable] at h
  | some v =>
    simp only [hvariable] at h
    split_ifs at h with hlarge hsmall hauto
    · cases h
      rcases hsmall with hnarrow | hafter
      · exact .var (fits_var_of_narrow hnarrow)
      · rw [hwide hafter]
        exact .var (fits_var_of_wide (Nat.not_lt.1 hlarge))
    · cases h
      rw [hwiden rfl]
      exact .var (fits_var_of_wide (Nat.not_lt.1 hlarge))

theorem suits_of_readArgument {token : String} {argument : Argument} {widen : Bool}
    (h : readArgument s p m kind token = .ok (argument, widen))
    (hwide : m.widensNext = true → wide = true) (hwiden : widen = true → wide = true) :
    Suits p.constants.size wide kind argument := by
  cases kind with
  | byte =>
    unfold readArgument at h
    cases hliteral : Literal.characterOrSigned 8 token with
    | error cause => simp [hliteral] at h
    | ok value =>
      simp only [hliteral] at h
      cases h
      exact .byte (fits_byte_iff.2 (Literal.bounds_of_characterOrSigned hliteral))
  | var => exact suits_of_slotArgument h hwide hwiden
  | label =>
    cases h
    exact .label token
  | method =>
    cases h
    exact .method token
  | constant =>
    unfold readArgument at h
    cases hindex : p.constantIndex? token with
    | none => simp [hindex] at h
    | some index =>
      simp only [hindex] at h
      cases h
      exact .constant (Array.findIdx?_eq_some_iff_getElem.1 hindex).1

theorem suits_of_readArguments {kinds : List OperandKind} {tokens : List String}
    (hlength : tokens.length = kinds.length) {arguments : List Argument} {widen : Bool}
    (h : readArguments s p m (kinds.zip tokens) = .ok (arguments, widen))
    (hwide : m.widensNext = true → wide = true) (hwiden : widen = true → wide = true) :
    List.Forall₂ (Suits p.constants.size wide) kinds arguments := by
  induction kinds generalizing tokens arguments widen with
  | nil =>
    cases h
    exact .nil
  | cons kind kinds ih =>
    cases tokens with
    | nil => cases hlength
    | cons token tokens =>
      simp only [List.zip_cons_cons, readArguments, bind, Except.bind] at h
      cases hfirst : readArgument s p m kind token with
      | error cause =>
        rw [hfirst] at h
        cases h
      | ok result =>
        obtain ⟨argument, widenFirst⟩ := result
        cases hrest : readArguments s p m (kinds.zip tokens) with
        | error cause =>
          rw [hfirst, hrest] at h
          cases h
        | ok more =>
          obtain ⟨arguments, widenRest⟩ := more
          rw [hfirst, hrest] at h
          cases h
          refine .cons (suits_of_readArgument hfirst hwide fun hfirst => hwiden ?_)
            (ih (Nat.succ.inj hlength) hrest fun hrest => hwiden ?_)
          · rw [hfirst, Bool.true_or]
          · rw [hrest, Bool.or_true]

/-- An operation that is looked up to widen what follows it does so. -/
theorem widens_of_find? {widener : Operation}
    (h : s.set.find? Operation.wideName = some widener) : widener.widens = true := by
  rw [Operation.widens, (InstructionSet.find?_eq_some h).2]
  decide +kernel

/-- What a line asks for comes with arguments that suit it, once it stands behind its widener. -/
theorem Suitable.perform (h : Suitable p.constants.size m) (hset : s.set.Plain)
    {text name : String} {tokens : List String} {r : Reading}
    (hread : readInstruction s p m text name tokens = .ok r) (line : Nat) :
    Suitable p.constants.size (m.pushAll (r.instructions line)) := by
  unfold readInstruction at hread
  cases hfind : s.set.find? name with
  | none =>
    rw [hfind] at hread
    cases hread
  | some op =>
    simp only [hfind] at hread
    split_ifs at hread with hcount
    rw [ne_eq, Decidable.not_not] at hcount
    cases harguments : readArguments s p m (op.operands.zip tokens) with
    | error cause =>
      rw [harguments] at hread
      cases hread
    | ok result =>
      obtain ⟨arguments, widen⟩ := result
      cases widen with
      | false =>
        simp only [harguments] at hread
        cases hread
        refine h.push ?_
        rw [Bool.false_or]
        exact suits_of_readArguments hcount harguments id nofun
      | true =>
        simp only [harguments] at hread
        cases hwide : s.set.find? Operation.wideName with
        | none =>
          rw [hwide] at hread
          cases hread
        | some widener =>
          rw [hwide] at hread
          cases hread
          have hwidener : Suitable p.constants.size
              (m.push { operation := widener, arguments := [], line }) := by
            refine h.push ?_
            rw [hset.widener widener hwide]
            exact .nil
          refine hwidener.push ?_
          change List.Forall₂ (Suits p.constants.size (false || widener.widens)) op.operands arguments
          rw [widens_of_find? hwide]
          exact suits_of_readArguments hcount harguments (fun _ => rfl) fun _ => rfl

theorem Suitable.print (h : Suitable count m) (hset : s.set.Plain) {push out : Operation}
    (hpush : s.set.find? InstructionSet.pushName = some push)
    (hout : s.set.find? InstructionSet.outName = some out) (line : Nat) (bytes : List UInt8) :
    Suitable count (m.pushAll (expansion push out line bytes)) := by
  induction bytes generalizing m with
  | nil => exact h
  | cons b rest ih =>
    refine ih (Suitable.push (Suitable.push h ?_) ?_)
    · rw [hset.push push hpush]
      exact .cons (.byte (fits_byte_toInt8 b)) .nil
    · rw [hset.out out hout]
      exact .nil

theorem kept_suitable (hset : s.set.Plain) :
    Kept s fun constants m => Suitable constants.size m where
  build := by
    intro constants name parameters line isEntry
    rw [Method.build, foldl_addVariable]
    exact fun i hi => absurd hi (Array.not_mem_empty i)
  change := by
    intro p m m' hchange _ hkept
    cases hchange with
    | slot name => exact hkept
    | label hidentifier hadded =>
      unfold Method.addLabel at hadded
      split at hadded
      · cases hadded
      · cases hadded
        exact hkept
    | code hmeant =>
      cases hmeant with
      | nothing => exact hkept
      | asked _ _ _ hread => exact hkept.perform hset hread _
      | printed hpush hout bytes => exact hkept.print hset hpush hout _ bytes
  sealed := by
    intro constants m hgrown hkept
    rw [Suitable, hgrown.laidOut.instructions_sealed]
    exact hkept
  constant := by
    intro constants c m hkept i hi
    refine (hkept i hi).imp fun _ _ h => h.mono ?_
    rw [Array.size_push]
    exact Nat.le_succ _

end Assembly

end IjvmAsm
