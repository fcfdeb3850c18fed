import IjvmAsm.Proofs.InstructionSet.Table
import IjvmAsm.Proofs.Source.Numeral

/-!
# The format of definitions

A definition is accepted if and only if every line that is not vacant says an opcode, a mnemonic
and kinds of operands, no opcode and no mnemonic twice. Otherwise each line that is rejected is
reported once, for the first thing that is wrong with it, where what is taken is what the lines
before it that were accepted have taken.
-/

namespace IjvmAsm

theorem Text.isEmpty_of_mem_splitAt_iff {α : Type} {p : α → Bool} {xs : List α} :
    (∀ piece ∈ splitAt p xs, piece = []) ↔ ∀ a ∈ xs, p a = true := by
  induction xs with
  | nil => simp [splitAt]
  | cons a rest ih =>
    by_cases ha : p a = true
    · simp only [splitAt, ha, ↓reduceIte, List.forall_mem_cons, true_and, ih]
    · rw [splitAt, if_neg ha]
      cases splitAt p rest <;> simp [ha]

theorem Text.words_eq_nil_iff {cs : List Char} : words cs = [] ↔ ∀ c ∈ cs, isBlank c = true := by
  rw [words, List.filter_eq_nil_iff, ← isEmpty_of_mem_splitAt_iff]
  simp only [Bool.not_eq_true', Bool.not_eq_false, List.isEmpty_iff]

theorem OperandKind.ofName?_eq_some_iff {token : String} {kind : OperandKind} :
    ofName? token = some kind ↔ kind.name = token.toLower := by
  constructor
  · intro h
    have hname := List.find?_some h
    rwa [beq_iff_eq] at hname
  · intro h
    rw [ofName?, ← h]
    cases kind <;> decide

theorem Literal.unsigned_eight_iff {token : String} {code : UInt8} :
    unsigned 8 token = .ok code.toNat ↔ Denotes token.toList code.toNat :=
  (unsigned_eq_ok_iff (by decide)).trans (and_iff_left code.toNat_lt)

theorem Literal.exists_of_unsigned_eight {token : String} {n : Nat} (h : unsigned 8 token = .ok n) :
    ∃ code : UInt8, Denotes token.toList code.toNat ∧ n = code.toNat := by
  obtain ⟨hdenotes, hlt⟩ := (unsigned_eq_ok_iff (by decide)).1 h
  have hcode : (UInt8.ofNat n).toNat = n := UInt8.toNat_ofNat_of_lt' hlt
  exact ⟨.ofNat n, by rwa [hcode], hcode.symm⟩

namespace InstructionSet

def isVacant (line : String) : Bool := (beforeComment line.toList).all Text.isBlank

def written (lines : List String) : List String := lines.filter fun line => !isVacant line

/-- The line is an opcode, a mnemonic and any number of kinds of operands, which stand for this
operation. Kinds are known by their names in letters of either case. -/
def Defines (line : String) (op : Operation) : Prop :=
  ∃ opcode name kinds, definitionTokens line = opcode :: name :: kinds ∧
    Literal.Denotes opcode.toList op.opcode.toNat ∧ op.name = name.toUpper ∧
    kinds.map String.toLower = op.operands.map OperandKind.name

/-- What a line is rejected for when some operations have been accepted before it. Of several things
that are wrong, the first counts. -/
inductive Rejected (accepted : List Operation) (line : String) : LineFault → Prop
  | missingName {opcode : String} (tokens : definitionTokens line = [opcode]) :
      Rejected accepted line .missingName
  | opcode {opcode name : String} {kinds : List String} {cause : LiteralError}
      (tokens : definitionTokens line = opcode :: name :: kinds)
      (refused : Literal.NotNatural 8 opcode cause) :
      Rejected accepted line (.opcode cause)
  | opcodeTaken {opcode name : String} {kinds : List String} {code : UInt8}
      (tokens : definitionTokens line = opcode :: name :: kinds)
      (denotes : Literal.Denotes opcode.toList code.toNat)
      (taken : ∃ op ∈ accepted, op.opcode = code) :
      Rejected accepted line (.opcodeTaken code)
  | nameTaken {opcode name : String} {kinds : List String} {code : UInt8}
      (tokens : definitionTokens line = opcode :: name :: kinds)
      (denotes : Literal.Denotes opcode.toList code.toNat)
      (free : ∀ op ∈ accepted, op.opcode ≠ code)
      (taken : ∃ op ∈ accepted, op.name = name.toUpper) :
      Rejected accepted line (.nameTaken name.toUpper)
  | unknownKind {opcode name token : String} {known rest : List String} {code : UInt8}
      (tokens : definitionTokens line = opcode :: name :: (known ++ token :: rest))
      (denotes : Literal.Denotes opcode.toList code.toNat)
      (free : ∀ op ∈ accepted, op.opcode ≠ code)
      (unnamed : ∀ op ∈ accepted, op.name ≠ name.toUpper)
      (kinds : ∀ t ∈ known, ∃ kind : OperandKind, kind.name = t.toLower)
      (unknown : ∀ kind : OperandKind, kind.name ≠ token.toLower) :
      Rejected accepted line (.unknownKind token)

/-- How lines are read behind some others: the operations accepted before and the number of lines
before, the lines, the operations they add, and the faults with the numbers of their lines. -/
inductive Reads : List Operation → Nat → List String → List Operation → List (Nat × LineFault) →
    Prop
  | done {accepted : List Operation} {n : Nat} : Reads accepted n [] [] []
  | vacant {accepted ops : List Operation} {n : Nat} {line : String} {rest : List String}
      {faults : List (Nat × LineFault)} (vacant : isVacant line = true)
      (more : Reads accepted (n + 1) rest ops faults) : Reads accepted n (line :: rest) ops faults
  | accepted {accepted ops : List Operation} {n : Nat} {line : String} {rest : List String}
      {faults : List (Nat × LineFault)} {op : Operation} (defines : Defines line op)
      (fresh : Fresh op accepted) (more : Reads (accepted ++ [op]) (n + 1) rest ops faults) :
      Reads accepted n (line :: rest) (op :: ops) faults
  | rejected {accepted ops : List Operation} {n : Nat} {line : String} {rest : List String}
      {faults : List (Nat × LineFault)} {fault : LineFault}
      (rejected : Rejected accepted line fault) (more : Reads accepted (n + 1) rest ops faults) :
      Reads accepted n (line :: rest) ops ((n + 1, fault) :: faults)

variable {line : String} {op : Operation} {accepted ops : List Operation} {set : InstructionSet}

theorem definitionTokens_eq_nil_iff : definitionTokens line = [] ↔ isVacant line = true := by
  rw [definitionTokens, List.map_eq_nil_iff, Text.words_eq_nil_iff, isVacant, List.all_eq_true]

theorem operandKinds_eq_ok_iff {tokens : List String} {kinds : List OperandKind} :
    operandKinds tokens = .ok kinds ↔ tokens.map String.toLower = kinds.map OperandKind.name := by
  induction tokens generalizing kinds with
  | nil => cases kinds <;> simp [operandKinds]
  | cons token rest ih =>
    rw [operandKinds, List.map_cons]
    constructor
    · intro h
      cases hkind : OperandKind.ofName? token with
      | none =>
        rw [hkind] at h
        cases h
      | some kind =>
        cases hrest : operandKinds rest with
        | error fault => simp [hkind, hrest, Except.map] at h
        | ok more =>
          simp only [hkind, hrest, Except.map, Except.ok.injEq] at h
          rw [← h, List.map_cons, ih.1 hrest, OperandKind.ofName?_eq_some_iff.1 hkind]
    · intro h
      cases kinds with
      | nil => cases h
      | cons kind more =>
        obtain ⟨hkind, hmore⟩ := List.cons.inj h
        simp only [OperandKind.ofName?_eq_some_iff.2 hkind.symm, ih.2 hmore]
        rfl

theorem exists_of_operandKinds {tokens : List String} {fault : LineFault}
    (h : operandKinds tokens = .error fault) :
    ∃ known token rest, tokens = known ++ token :: rest ∧ fault = .unknownKind token ∧
      (∀ t ∈ known, ∃ kind : OperandKind, kind.name = t.toLower) ∧
      ∀ kind : OperandKind, kind.name ≠ token.toLower := by
  induction tokens with
  | nil => cases h
  | cons first rest ih =>
    rw [operandKinds] at h
    cases hfirst : OperandKind.ofName? first with
    | none =>
      rw [hfirst] at h
      cases h
      refine ⟨[], first, rest, rfl, rfl, nofun, fun kind hkind => ?_⟩
      rw [OperandKind.ofName?_eq_some_iff.2 hkind] at hfirst
      cases hfirst
    | some kind =>
      cases hrest : operandKinds rest with
      | ok kinds => simp [hfirst, hrest, Except.map] at h
      | error cause =>
        simp only [hfirst, hrest, Except.map, Except.error.injEq] at h
        subst h
        obtain ⟨known, token, back, rfl, hfault, hknown, hunknown⟩ := ih hrest
        exact ⟨first :: known, token, back, rfl, hfault,
          List.forall_mem_cons.2 ⟨⟨kind, OperandKind.ofName?_eq_some_iff.1 hfirst⟩, hknown⟩,
          hunknown⟩

theorem operandKinds_of_unknown {known rest : List String} {token : String}
    (hknown : ∀ t ∈ known, ∃ kind : OperandKind, kind.name = t.toLower)
    (hunknown : ∀ kind : OperandKind, kind.name ≠ token.toLower) :
    operandKinds (known ++ token :: rest) = .error (.unknownKind token) := by
  induction known with
  | nil =>
    have hnone : OperandKind.ofName? token = none := by
      rw [Option.eq_none_iff_forall_ne_some]
      exact fun kind hkind => hunknown kind (OperandKind.ofName?_eq_some_iff.1 hkind)
    rw [List.nil_append, operandKinds, hnone]
  | cons first more ih =>
    obtain ⟨⟨kind, hkind⟩, hmore⟩ := List.forall_mem_cons.1 hknown
    rw [List.cons_append, operandKinds, OperandKind.ofName?_eq_some_iff.2 hkind, ih hmore]
    rfl

/-- The checks behind the opcode, in their order. -/
theorem define_of_denotes {opcode : String} {code : UInt8}
    (hdenotes : Literal.Denotes opcode.toList code.toNat) (set : InstructionSet) (name : String)
    (kinds : List String) :
    define set opcode (name :: kinds) =
      if set.hasOpcode code then .error (.opcodeTaken code)
      else if set.contains name.toUpper then .error (.nameTaken name.toUpper)
      else (operandKinds kinds).map fun operands => ⟨name.toUpper, code, operands⟩ := by
  rw [define, Literal.unsigned_eight_iff.2 hdenotes]
  simp only [Except.mapError, bind, Except.bind, pure, Except.pure, throw, throwThe,
    MonadExceptOf.throw, UInt8.ofNat_toNat]
  split_ifs
  · rfl
  · rfl
  · cases operandKinds kinds <;> rfl

theorem Holds.contains_toUpper_iff (h : set.Holds accepted) {name : String} :
    set.contains name.toUpper = true ↔ ∃ op ∈ accepted, op.name = name.toUpper := by
  rw [h.contains_iff, toUpper_toUpper]

/-- A line with tokens either defines an operation that is new or is rejected. -/
theorem define_cases (h : set.Holds accepted) {opcode : String} {rest : List String}
    (htokens : definitionTokens line = opcode :: rest) :
    (∃ op, define set opcode rest = .ok op ∧ Defines line op ∧ Fresh op accepted) ∨
      ∃ fault, define set opcode rest = .error fault ∧ Rejected accepted line fault := by
  cases rest with
  | nil => exact .inr ⟨_, rfl, .missingName htokens⟩
  | cons name kinds =>
    cases hcode : Literal.unsigned 8 opcode with
    | error cause =>
      have hrefused := Literal.notNatural_of_unsigned (by decide) hcode
      refine .inr ⟨.opcode cause, ?_, .opcode htokens hrefused⟩
      rw [define, hcode]
      rfl
    | ok n =>
      obtain ⟨code, hdenotes, rfl⟩ := Literal.exists_of_unsigned_eight hcode
      rw [define_of_denotes hdenotes]
      by_cases hopcode : set.hasOpcode code = true
      · rw [if_pos hopcode]
        exact .inr ⟨_, rfl, .opcodeTaken htokens hdenotes (h.hasOpcode_iff.1 hopcode)⟩
      rw [if_neg hopcode]
      simp only [h.hasOpcode_iff, not_exists, not_and] at hopcode
      by_cases hname : set.contains name.toUpper = true
      · rw [if_pos hname]
        exact .inr ⟨_, rfl, .nameTaken htokens hdenotes hopcode (h.contains_toUpper_iff.1 hname)⟩
      rw [if_neg hname]
      simp only [h.contains_toUpper_iff, not_exists, not_and] at hname
      cases hkinds : operandKinds kinds with
      | ok operands =>
        exact .inl ⟨_, rfl, ⟨opcode, name, kinds, htokens, hdenotes, rfl,
          operandKinds_eq_ok_iff.1 hkinds⟩, hopcode, hname⟩
      | error fault =>
        obtain ⟨known, token, back, rfl, rfl, hknown, hunknown⟩ := exists_of_operandKinds hkinds
        exact .inr ⟨_, rfl, .unknownKind htokens hdenotes hopcode hname hknown hunknown⟩

/-- What a line is rejected for is what is found wrong with it. -/
theorem define_of_rejected (h : set.Holds accepted) {opcode : String} {rest : List String}
    (htokens : definitionTokens line = opcode :: rest) {fault : LineFault}
    (hrejected : Rejected accepted line fault) : define set opcode rest = .error fault := by
  have hfree : ∀ {code : UInt8}, (∀ op ∈ accepted, op.opcode ≠ code) →
      ¬ set.hasOpcode code = true := by
    intro code hfree htaken
    obtain ⟨op, hop, hcode⟩ := h.hasOpcode_iff.1 htaken
    exact hfree op hop hcode
  cases hrejected with
  | missingName tokens =>
    rw [tokens] at htokens
    cases htokens
    rfl
  | opcode tokens refused =>
    rw [tokens] at htokens
    cases htokens
    rw [define, Literal.unsigned_of_notNatural refused]
    rfl
  | opcodeTaken tokens denotes taken =>
    rw [tokens] at htokens
    cases htokens
    rw [define_of_denotes denotes, if_pos (h.hasOpcode_iff.2 taken)]
  | nameTaken tokens denotes free taken =>
    rw [tokens] at htokens
    cases htokens
    rw [define_of_denotes denotes, if_neg (hfree free), if_pos (h.contains_toUpper_iff.2 taken)]
  | unknownKind tokens denotes free unnamed kinds unknown =>
    rw [tokens] at htokens
    cases htokens
    have hunnamed := h.contains_toUpper_iff.not.2 fun ⟨op, hop, hname⟩ => unnamed op hop hname
    rw [define_of_denotes denotes, if_neg (hfree free), if_neg hunnamed,
      operandKinds_of_unknown kinds unknown]
    rfl

theorem Defines.isVacant_eq_false (h : Defines line op) : isVacant line = false := by
  obtain ⟨opcode, name, kinds, htokens, -⟩ := h
  rw [← Bool.not_eq_true, ← definitionTokens_eq_nil_iff, htokens]
  exact List.cons_ne_nil _ _

theorem Rejected.isVacant_eq_false {fault : LineFault} (h : Rejected accepted line fault) :
    isVacant line = false := by
  rw [← Bool.not_eq_true, ← definitionTokens_eq_nil_iff]
  cases h with
  | missingName tokens | opcode tokens | opcodeTaken tokens | nameTaken tokens
  | unknownKind tokens =>
    rw [tokens]
    exact List.cons_ne_nil _ _

theorem name_injective : Function.Injective OperandKind.name := by
  intro kind kind' h
  cases kind <;> cases kind' <;> first | rfl | exact absurd h (by decide)

/-- A line defines one operation at most. -/
theorem Defines.unique {op' : Operation} (h : Defines line op) (h' : Defines line op') :
    op = op' := by
  obtain ⟨opcode, name, kinds, htokens, hdenotes, hname, hkinds⟩ := h
  obtain ⟨opcode', name', kinds', htokens', hdenotes', hname', hkinds'⟩ := h'
  rw [htokens] at htokens'
  cases htokens'
  rw [← Literal.unsigned_eight_iff] at hdenotes hdenotes'
  rw [hdenotes, Except.ok.injEq, UInt8.toNat_inj] at hdenotes'
  rw [hkinds] at hkinds'
  cases op
  cases op'
  simp_all [List.map_injective_iff.2 name_injective |>.eq_iff]

/-- A line that is rejected defines no operation that is new. -/
theorem Rejected.not_fresh {fault : LineFault} (h : Rejected accepted line fault)
    (hdefines : Defines line op) : ¬ Fresh op accepted := by
  obtain ⟨opcode', name', kinds', htokens, hdenotes, hname, hkinds⟩ := hdefines
  rintro ⟨hopcode, hnamed⟩
  cases h with
  | missingName tokens =>
    rw [tokens] at htokens
    cases htokens
  | opcode tokens refused =>
    rw [tokens] at htokens
    cases htokens
    have hread := Literal.unsigned_of_notNatural refused
    rw [Literal.unsigned_eight_iff.2 hdenotes] at hread
    cases hread
  | opcodeTaken tokens denotes taken =>
    rw [tokens] at htokens
    cases htokens
    rw [← Literal.unsigned_eight_iff] at hdenotes denotes
    rw [hdenotes, Except.ok.injEq, UInt8.toNat_inj] at denotes
    obtain ⟨other, hother, htaken⟩ := taken
    exact hopcode other hother (htaken.trans denotes.symm)
  | nameTaken tokens denotes free taken =>
    rw [tokens] at htokens
    cases htokens
    obtain ⟨other, hother, htaken⟩ := taken
    exact hnamed other hother (htaken.trans hname.symm)
  | @unknownKind _ _ token known rest _ tokens denotes free unnamed kinds unknown =>
    rw [tokens] at htokens
    cases htokens
    have hmem : token.toLower ∈ op.operands.map OperandKind.name := by
      rw [← hkinds]
      exact List.mem_map_of_mem (List.mem_append_right _ List.mem_cons_self)
    obtain ⟨kind, -, hkind⟩ := List.mem_map.1 hmem
    exact unknown kind hkind

/-- A line is rejected for one fault only. -/
theorem Rejected.unique (hset : set.Holds accepted) {fault fault' : LineFault}
    (h : Rejected accepted line fault) (h' : Rejected accepted line fault') : fault = fault' := by
  have htokens : definitionTokens line ≠ [] := by
    rw [Ne, definitionTokens_eq_nil_iff, h.isVacant_eq_false]
    exact Bool.false_ne_true
  obtain ⟨opcode, rest, htokens⟩ := List.exists_cons_of_ne_nil htokens
  have hfault := define_of_rejected hset htokens h
  rw [define_of_rejected hset htokens h', Except.error.injEq] at hfault
  exact hfault.symm

def report (name : String) (found : Nat × LineFault) : Diagnostic :=
  ⟨name, found.1, .error, found.2.message⟩

/-- What the next line does to a reading. -/
theorem step_cases {r : Reading} (h : r.set.Holds accepted) (line : String) :
    (isVacant line = true ∧ r.step line = { r with line := r.line + 1 }) ∨
      (∃ op, Defines line op ∧ Fresh op accepted ∧
        r.step line = ⟨r.set.insert op, r.line + 1, r.journal.push (Reading.registered op)⟩) ∨
      ∃ fault, Rejected accepted line fault ∧
        r.step line = { r with
          line := r.line + 1
          journal := r.journal.push (.diagnostic (report r.set.name (r.line + 1, fault))) } := by
  unfold Reading.step
  cases htokens : definitionTokens line with
  | nil => exact .inl ⟨definitionTokens_eq_nil_iff.1 htokens, rfl⟩
  | cons opcode rest =>
    obtain ⟨op, hdefine, hdefines, hfresh⟩ | ⟨fault, hdefine, hrejected⟩ := define_cases h htokens
    · refine .inr (.inl ⟨op, hdefines, hfresh, ?_⟩)
      simp only [hdefine]
    · refine .inr (.inr ⟨fault, hrejected, ?_⟩)
      simp only [hdefine, report]

/-- Lines are read one after another: what they define is in the set then, and their faults are
reported. -/
theorem exists_reads_foldl (lines : List String) {r : Reading} (h : r.set.Holds accepted) :
    ∃ ops faults, Reads accepted r.line lines ops faults ∧
      (lines.foldl Reading.step r).set.Holds (accepted ++ ops) ∧
      (lines.foldl Reading.step r).set.name = r.set.name ∧
      (lines.foldl Reading.step r).journal.diagnostics.toList =
        r.journal.diagnostics.toList ++ faults.map (report r.set.name) := by
  induction lines generalizing r accepted with
  | nil => exact ⟨[], [], .done, by rwa [List.append_nil], rfl, (List.append_nil _).symm⟩
  | cons line rest ih =>
    rw [List.foldl_cons]
    obtain ⟨hvacant, hstep⟩ | ⟨op, hdefines, hfresh, hstep⟩ | ⟨fault, hrejected, hstep⟩ :=
      step_cases h line
    · rw [hstep]
      obtain ⟨ops, faults, hreads, hset, hname, hjournal⟩ :=
        ih (r := { r with line := r.line + 1 }) h
      exact ⟨ops, faults, .vacant hvacant hreads, hset, hname, hjournal⟩
    · rw [hstep]
      obtain ⟨ops, faults, hreads, hset, hname, hjournal⟩ := ih (r := ⟨r.set.insert op, r.line + 1,
        r.journal.push (Reading.registered op)⟩) (h.insert hfresh)
      refine ⟨op :: ops, faults, .accepted hdefines hfresh hreads, ?_, hname, ?_⟩
      · rwa [List.append_assoc] at hset
      · rw [hjournal]
        simp [Journal.diagnostics, Reading.registered, Event.diagnostic?, InstructionSet.insert]
    · rw [hstep]
      obtain ⟨ops, faults, hreads, hset, hname, hjournal⟩ := ih (r := { r with
        line := r.line + 1
        journal := r.journal.push (.diagnostic (report r.set.name (r.line + 1, fault))) }) h
      refine ⟨ops, (r.line + 1, fault) :: faults, .rejected hrejected hreads, hset, hname, ?_⟩
      rw [hjournal]
      simp [Journal.diagnostics, Event.diagnostic?]

namespace Reads

variable {n : Nat} {lines : List String} {faults : List (Nat × LineFault)}

/-- Faults are found further and further down. -/
theorem increasing (h : Reads accepted n lines ops faults) :
    (∀ found ∈ faults, n < found.1) ∧ (faults.map Prod.fst).Pairwise (· < ·) := by
  induction h with
  | done => exact ⟨nofun, .nil⟩
  | vacant _ _ ih | accepted _ _ _ ih =>
    exact ⟨fun found hfound => (Nat.lt_succ_self _).trans (ih.1 found hfound), ih.2⟩
  | @rejected _ _ n _ _ _ _ _ _ ih =>
    constructor
    · rw [List.forall_mem_cons]
      exact ⟨Nat.lt_succ_self _, fun found hfound => (Nat.lt_succ_self _).trans (ih.1 found hfound)⟩
    · rw [List.map_cons, List.pairwise_cons]
      exact ⟨List.forall_mem_map.2 ih.1, ih.2⟩

/-- Lines can be read in one way only. -/
theorem unique (hset : set.Holds accepted) (h : Reads accepted n lines ops faults)
    {ops' : List Operation} {faults' : List (Nat × LineFault)}
    (h' : Reads accepted n lines ops' faults') : ops = ops' ∧ faults = faults' := by
  induction h generalizing set ops' faults' with
  | done =>
    cases h'
    exact ⟨rfl, rfl⟩
  | vacant hvacant _ ih =>
    cases h' with
    | vacant _ more => exact ih hset more
    | accepted hdefines => exact absurd hvacant (Bool.eq_false_iff.1 hdefines.isVacant_eq_false)
    | rejected hrejected => exact absurd hvacant (Bool.eq_false_iff.1 hrejected.isVacant_eq_false)
  | accepted hdefines hfresh _ ih =>
    cases h' with
    | vacant hvacant => exact absurd hvacant (Bool.eq_false_iff.1 hdefines.isVacant_eq_false)
    | accepted hdefines' _ more =>
      cases hdefines.unique hdefines'
      obtain ⟨rfl, rfl⟩ := ih (hset.insert hfresh) more
      exact ⟨rfl, rfl⟩
    | rejected hrejected => exact absurd hfresh (hrejected.not_fresh hdefines)
  | rejected hrejected _ ih =>
    cases h' with
    | vacant hvacant => exact absurd hvacant (Bool.eq_false_iff.1 hrejected.isVacant_eq_false)
    | accepted hdefines hfresh => exact absurd hfresh (hrejected.not_fresh hdefines)
    | rejected hrejected' more =>
      obtain ⟨rfl, rfl⟩ := ih hset more
      exact ⟨rfl, by rw [hrejected.unique hset hrejected']⟩

/-- Where no line is at fault, each that is not vacant defines an operation. -/
theorem forall₂_defines (h : Reads accepted n lines ops []) :
    List.Forall₂ Defines (written lines) ops := by
  generalize hfaults : ([] : List (Nat × LineFault)) = faults at h
  induction h with
  | done => exact .nil
  | vacant hvacant _ ih =>
    rw [written, List.filter_cons_of_neg (by simp [hvacant])]
    exact ih hfaults
  | accepted hdefines _ _ ih =>
    rw [written, List.filter_cons_of_pos (by simp [hdefines.isVacant_eq_false])]
    exact .cons hdefines (ih hfaults)
  | rejected => cases hfaults

/-- Lines that define different operations, each of them new, are not at fault. -/
theorem eq_nil_of_distinct {ops' : List Operation} (h : Reads accepted n lines ops faults)
    (hdefines : List.Forall₂ Defines (written lines) ops')
    (hdistinct : Distinct (accepted ++ ops')) : faults = [] := by
  -- What is accepted on the way joins the operations in front of those still to come.
  induction h generalizing ops' with
  | done => rfl
  | vacant hvacant _ ih =>
    rw [written, List.filter_cons_of_neg (by simp [hvacant])] at hdefines
    exact ih hdefines hdistinct
  | accepted hop _ _ ih =>
    rw [written, List.filter_cons_of_pos (by simp [hop.isVacant_eq_false])] at hdefines
    cases hdefines with
    | cons hop' hrest =>
      cases hop.unique hop'
      rw [List.append_cons] at hdistinct
      exact ih hrest hdistinct
  | rejected hrejected _ _ =>
    rw [written, List.filter_cons_of_pos (by simp [hrejected.isVacant_eq_false])] at hdefines
    cases hdefines with
    | cons hop' _ =>
      rw [List.append_cons] at hdistinct
      exact absurd (distinct_append_singleton_iff.1 hdistinct.of_append).2
        (hrejected.not_fresh hop')

end Reads

/-- What the lines of a definition of that name are taken for. -/
structure Loaded (name : String) (lines : List String)
    (result : Except DefinitionError InstructionSet) : Prop where
  accepted : (∃ set, result = .ok set) ↔
    ∃ ops, List.Forall₂ Defines (written lines) ops ∧ Distinct ops
  table : ∀ set, result = .ok set →
    set.name = name ∧ ∃ ops, List.Forall₂ Defines (written lines) ops ∧ set.Tabulates ops
  refused : ∀ error, result = .error error ↔ ∃ ops faults, Reads [] 0 lines ops faults ∧
    faults ≠ [] ∧ error = .refused name (faults.map (report name))
  increasing : ∀ name diagnostics, result = .error (.refused name diagnostics) →
    (diagnostics.map Diagnostic.line).Pairwise (· < ·)

/-- Definitions whose lines can all be decoded are accepted exactly when they have the format, and
give tables in which mnemonics and opcodes stand for the same operations. -/
theorem loaded_ofDefinition (name : String) (bytes : List UInt8)
    (h : (Text.Lines.ofBytes bytes).intact = true) :
    Loaded name (Text.Lines.ofBytes bytes).readable (ofDefinition name bytes).2 := by
  have hstart : (empty name).Holds [] := holds_empty name
  obtain ⟨ops, faults, hreads, hset, hname, hjournal⟩ :=
    exists_reads_foldl (Text.Lines.ofBytes bytes).readable (r := { set := empty name }) hstart
  have hresult : (ofDefinition name bytes).2 =
      if faults = [] then .ok ((Text.Lines.ofBytes bytes).readable.foldl Reading.step
        { set := empty name }).set
      else .error (.refused name (faults.map (report name))) := by
    have hdiagnostics : ((Text.Lines.ofBytes bytes).readable.foldl Reading.step
        { set := empty name }).journal.diagnostics.toList = faults.map (report name) := hjournal
    simp only [ofDefinition, h, hdiagnostics, Bool.not_true, Bool.false_eq_true, ↓reduceIte,
      List.isEmpty_map, List.isEmpty_iff]
  have hsame : ∀ {ops' faults'}, Reads [] 0 (Text.Lines.ofBytes bytes).readable ops' faults' →
      faults = faults' := fun hreads' => (hreads.unique hstart hreads').2
  rw [hresult]
  by_cases hfaults : faults = []
  · subst hfaults
    rw [if_pos rfl]
    refine ⟨?_, ?_, ?_, nofun⟩
    · exact iff_of_true ⟨_, rfl⟩ ⟨ops, hreads.forall₂_defines, hset.distinct⟩
    · rintro set ⟨⟩
      exact ⟨hname, ops, hreads.forall₂_defines, hset.tabulates⟩
    · intro error
      apply iff_of_false nofun
      rintro ⟨ops', faults', hreads', hne, -⟩
      exact hne (hsame hreads').symm
  · rw [if_neg hfaults]
    refine ⟨?_, nofun, ?_, ?_⟩
    · apply iff_of_false
      · rintro ⟨set, hset⟩
        cases hset
      · rintro ⟨ops', hdefines, hdistinct⟩
        exact hfaults (hreads.eq_nil_of_distinct hdefines hdistinct)
    · intro error
      constructor
      · rintro ⟨⟩
        exact ⟨ops, faults, hreads, hfaults, rfl⟩
      · rintro ⟨ops', faults', hreads', -, rfl⟩
        rw [hsame hreads']
    · rintro name' diagnostics ⟨⟩
      rw [List.map_map]
      exact hreads.increasing.2

def agreeing : List String := ["0xFC in // reads", "", "0x10 BIPUSH Byte"]

def agreeingSet : InstructionSet where
  name := "test.conf"
  named := [⟨"IN", 0xFC, []⟩, ⟨"BIPUSH", 0x10, [.byte]⟩]
  coded := [⟨"BIPUSH", 0x10, [.byte]⟩, ⟨"IN", 0xFC, []⟩]

/-- Three operations, the second with the opcode of the first, and the third with its mnemonic. -/
def clashing : List String := ["0x10 BIPUSH byte // pushes", "", "0x10 OTHER", "0x11 bipush"]

theorem loaded_clashing :
    ((Text.Lines.ofBytes (Text.unlines agreeing)).intact = true ∧
      Loaded "test.conf" (Text.Lines.ofBytes (Text.unlines agreeing)).readable
        (ofDefinition "test.conf" (Text.unlines agreeing)).2 ∧
      (ofDefinition "test.conf" (Text.unlines agreeing)).2 = .ok agreeingSet) ∧
    (Text.Lines.ofBytes (Text.unlines clashing)).intact = true ∧
      Loaded "test.conf" (Text.Lines.ofBytes (Text.unlines clashing)).readable
        (ofDefinition "test.conf" (Text.unlines clashing)).2 ∧
      (ofDefinition "test.conf" (Text.unlines clashing)).2 = .error (.refused "test.conf"
        [report "test.conf" (3, .opcodeTaken 0x10),
          report "test.conf" (4, .nameTaken "BIPUSH")]) := by
  have hagreeing : ∀ text ∈ agreeing, '\n' ∉ text.toList ∧ '\r' ∉ text.toList := by decide
  have hclashing : ∀ text ∈ clashing, '\n' ∉ text.toList ∧ '\r' ∉ text.toList := by decide
  have hread := congrArg Text.Lines.intact (Text.ofBytes_unlines hagreeing)
  have hread' := congrArg Text.Lines.intact (Text.ofBytes_unlines hclashing)
  exact ⟨⟨hread, loaded_ofDefinition _ _ hread, by decide +kernel⟩,
    hread', loaded_ofDefinition _ _ hread', by decide +kernel⟩

end InstructionSet

end IjvmAsm
