import IjvmAsm.Proofs.Assembly.Change
import IjvmAsm.Proofs.InstructionSet.Accepted
import IjvmAsm.Proofs.Program.Laid
import IjvmAsm.Proofs.Source.Word

/-!
# How methods grow

An instruction gets into a method in one of three ways: a line asks for it, it widens what a line
asks for, or the directive that prints a string stands for it. Whatever a statement does, the
method stays laid out and its labels are named by identifiers.
-/

namespace IjvmAsm

/-- A line can ask for the operation with arguments: its mnemonic is a word, which does not look
like a directive. -/
def Operation.Nameable (op : Operation) : Prop :=
  op.name.toList.head? ≠ some '#' ∧ Source.IsWord op.name.toList

/-- A line can ask for an operation that takes the slot of a variable. -/
def InstructionSet.TakesSlot (set : InstructionSet) : Prop :=
  ∃ name op, set.find? name = some op ∧ op.Nameable ∧ .var ∈ op.operands

namespace Assembly

/-- The ways in which a run comes to an operation with arguments. -/
inductive Issued (s : Setup) : Operation → List Argument → Prop
  | asked {name : String} {op : Operation} {arguments : List Argument}
      (found : s.set.find? name = some op) (arity : arguments.length = op.operands.length) :
      Issued s op arguments
  | widening {op : Operation} (auto : s.autoWide = true) (slot : s.set.TakesSlot)
      (found : s.set.find? Operation.wideName = some op) : Issued s op []
  | push {push out : Operation} (foundPush : s.set.find? InstructionSet.pushName = some push)
      (foundOut : s.set.find? InstructionSet.outName = some out) (value : Int) :
      Issued s push [.resolved value]
  | out {push out : Operation} (foundPush : s.set.find? InstructionSet.pushName = some push)
      (foundOut : s.set.find? InstructionSet.outName = some out) : Issued s out []

theorem Issued.found {s : Setup} {op : Operation} {arguments : List Argument}
    (h : Issued s op arguments) : ∃ name, s.set.find? name = some op := by
  cases h with
  | asked found _ => exact ⟨_, found⟩
  | widening _ _ found => exact ⟨_, found⟩
  | push foundPush _ _ => exact ⟨_, foundPush⟩
  | out _ foundOut => exact ⟨_, foundOut⟩

/-- What holds of a method at any time of a run. -/
structure Grown (s : Setup) (m : Method) : Prop where
  laidOut : m.LaidOut
  issued : ∀ i ∈ m.instructions, Issued s i.operation i.arguments
  labelNames : ∀ l ∈ m.labels, Source.isIdentifier l.name = true

structure Grows (s : Setup) (m m' : Method) : Prop where
  name : m'.name = m.name
  isEntry : m'.isEntry = m.isEntry
  grown : Grown s m → Grown s m'

variable {s : Setup} {m m' m'' : Method}

theorem Grows.refl (s : Setup) (m : Method) : Grows s m m := ⟨rfl, rfl, id⟩

theorem Grows.trans (h : Grows s m m') (h' : Grows s m' m'') : Grows s m m'' :=
  ⟨h'.name.trans h.name, h'.isEntry.trans h.isEntry, h'.grown ∘ h.grown⟩

/-- Variables take slots and change nothing else. -/
theorem foldl_addVariable (names : List String) (m : Method) :
    names.foldl Method.addVariable m =
      { m with slots := (names.foldl Method.addVariable m).slots } := by
  induction names generalizing m with
  | nil => rfl
  | cons name rest ih =>
    rw [List.foldl_cons, ih]
    rfl

theorem grown_build (s : Setup) (name : String) (parameters : List String) (line : Nat)
    (isEntry : Bool) :
    (Method.build name parameters line isEntry).name = name ∧
      (Method.build name parameters line isEntry).isEntry = isEntry ∧
      Grown s (Method.build name parameters line isEntry) := by
  rw [Method.build, foldl_addVariable]
  exact ⟨rfl, rfl, ⟨.nil 0 false, nofun⟩, nofun, nofun⟩

theorem grows_push {i : Instruction} (hi : i.wide = false)
    (hissued : Issued s i.operation i.arguments) : Grows s m (m.push i) := by
  refine ⟨rfl, rfl, fun h => ⟨h.laidOut.push hi, fun j hj => ?_, h.labelNames⟩⟩
  rcases Array.mem_push.1 hj with hj | rfl
  · exact h.issued j hj
  · exact hissued

theorem grows_addVariable (s : Setup) (m : Method) (name : String) :
    Grows s m (m.addVariable name) :=
  ⟨rfl, rfl, fun h => ⟨h.laidOut.addVariable name, h.issued, h.labelNames⟩⟩

theorem grows_addLabel {name : String} {line : Nat} (hname : Source.isIdentifier name = true)
    (h : m.addLabel name line = .ok m') : Grows s m m' := by
  have hadd := h
  unfold Method.addLabel at h
  split at h
  · cases h
  · cases h
    refine ⟨rfl, rfl, fun h => ⟨h.laidOut.addLabel hadd, h.issued, fun l hl => ?_⟩⟩
    rcases Array.mem_push.1 hl with hl | rfl
    · exact h.labelNames l hl
    · exact hname

theorem grows_sealed (s : Setup) (m : Method) : Grows s m m.sealed := by
  refine ⟨rfl, rfl, fun h => ⟨h.laidOut.sealed, ?_, ?_⟩⟩
  · rw [h.laidOut.instructions_sealed]
    exact h.issued
  · intro l hl
    obtain ⟨l', hl', rfl⟩ := Array.mem_map.1 hl
    exact h.labelNames l' hl'

theorem autoWide_of_readArgument {p : Program} {kind : OperandKind} {token : String}
    {argument : Argument} (h : readArgument s p m kind token = .ok (argument, true)) :
    s.autoWide = true ∧ kind = .var := by
  cases kind with
  | var =>
    unfold readArgument slotArgument at h
    cases hvariable : m.findVariable? token with
    | none => simp [hvariable] at h
    | some v =>
      simp only [hvariable] at h
      split_ifs at h with hwide hslot hauto
      · cases h
      · exact ⟨hauto, rfl⟩
  | byte =>
    unfold readArgument at h
    cases hliteral : Literal.characterOrSigned 8 token <;> simp [hliteral] at h
  | label => cases h
  | method => cases h
  | constant =>
    unfold readArgument at h
    cases hindex : p.constantIndex? token <;> simp [hindex] at h

theorem length_readArguments {p : Program} {pairs : List (OperandKind × String)}
    {arguments : List Argument} {widen : Bool}
    (h : readArguments s p m pairs = .ok (arguments, widen)) :
    arguments.length = pairs.length ∧ (widen = true → s.autoWide = true ∧ ∃ x ∈ pairs, x.1 = .var) := by
  induction pairs generalizing arguments widen with
  | nil =>
    cases h
    exact ⟨rfl, nofun⟩
  | cons x rest ih =>
    obtain ⟨kind, token⟩ := x
    simp only [readArguments, bind, Except.bind] at h
    cases hfirst : readArgument s p m kind token with
    | error cause =>
      rw [hfirst] at h
      cases h
    | ok result =>
      obtain ⟨argument, widenFirst⟩ := result
      cases hrest : readArguments s p m rest with
      | error cause =>
        rw [hfirst, hrest] at h
        cases h
      | ok more =>
        obtain ⟨arguments, widenRest⟩ := more
        rw [hfirst, hrest] at h
        cases h
        obtain ⟨hlength, hwiden⟩ := ih hrest
        refine ⟨by rw [List.length_cons, List.length_cons, hlength], fun h => ?_⟩
        rcases Bool.or_eq_true_iff.1 h with h | h
        · subst h
          obtain ⟨hauto, hvar⟩ := autoWide_of_readArgument hfirst
          exact ⟨hauto, _, List.mem_cons_self, hvar⟩
        · obtain ⟨hauto, x, hx, hvar⟩ := hwiden h
          exact ⟨hauto, x, List.mem_cons_of_mem _ hx, hvar⟩

/-- What is known of an instruction that has been read from its tokens. -/
theorem issued_of_readInstruction {p : Program} {text name : String} {tokens : List String}
    {r : Reading} (h : readInstruction s p m text name tokens = .ok r) :
    s.set.find? name = some r.operation ∧ tokens.length = r.operation.operands.length ∧
      r.arguments.length = r.operation.operands.length ∧
      ∀ widener, r.widener = some widener →
        s.autoWide = true ∧ s.set.find? Operation.wideName = some widener ∧
          .var ∈ r.operation.operands := by
  unfold readInstruction at h
  cases hfind : s.set.find? name with
  | none =>
    rw [hfind] at h
    cases h
  | some op =>
    simp only [hfind] at h
    split_ifs at h with hcount
    rw [ne_eq, Decidable.not_not] at hcount
    have hpairs : (op.operands.zip tokens).length = op.operands.length := by
      rw [List.length_zip, hcount, Nat.min_self]
    cases hread : readArguments s p m (op.operands.zip tokens) with
    | error cause =>
      rw [hread] at h
      cases h
    | ok result =>
      obtain ⟨arguments, widen⟩ := result
      obtain ⟨hlength, hwiden⟩ := length_readArguments hread
      rw [hpairs] at hlength
      cases widen with
      | false =>
        simp only [hread] at h
        cases h
        exact ⟨rfl, hcount, hlength, nofun⟩
      | true =>
        -- A slot asks for an operation that widens, and the line is refused if there is none.
        simp only [hread] at h
        cases hwide : s.set.find? Operation.wideName with
        | none =>
          rw [hwide] at h
          cases h
        | some widener =>
          rw [hwide] at h
          cases h
          refine ⟨rfl, hcount, hlength, fun _ hw => ?_⟩
          cases hw
          obtain ⟨hauto, ⟨kind, token⟩, hx, rfl⟩ := hwiden rfl
          exact ⟨hauto, rfl, (List.of_mem_zip hx).1⟩

/-- An operation that a line asks for with arguments is one that a line can name. -/
theorem nameable_of_tokensOf {text name token : String} {tokens : List String} {op : Operation}
    (hsolid : Text.StartsSolid text.toList) (hdirective : text.toList.head? ≠ some '#')
    (htokens : Source.tokensOf text = name :: token :: tokens)
    (hfind : s.set.find? name = some op) : op.Nameable := by
  unfold Source.tokensOf at htokens
  obtain ⟨w, ws, hw, rfl, hws⟩ := List.map_eq_cons_iff.1 htokens
  obtain ⟨w', ws', rfl, _, _⟩ := List.map_eq_cons_iff.1 hws
  have hword := Source.isWord_of_tokens hw
  have hname : op.name.toList = w.map Char.toUpper := by
    rw [(InstructionSet.find?_eq_some hfind).2, String.toUpper, String.toList_map,
      String.toList_ofList]
  rw [Operation.Nameable, hname]
  refine ⟨?_, hword.toUpper⟩
  cases hcs : text.toList with
  | nil =>
    rw [hcs] at hw
    cases hw
  | cons c cs =>
    rw [hcs] at hw hsolid hdirective
    rw [List.head?_map, Source.head?_of_tokens (hsolid c rfl) hw, Option.map_some, ne_eq,
      Option.some.injEq, Text.toUpper_eq_iff (by decide)]
    exact fun hc => hdirective (by rw [hc, List.head?_cons])

theorem Meant.issued {p : Program} {line : Nat} {is : List Instruction}
    (h : Meant s p m line is) : ∀ i ∈ is, i.wide = false ∧ Issued s i.operation i.arguments := by
  cases h with
  | nothing => nofun
  | @asked text name tokens r hsolid hplain htokens hread =>
    obtain ⟨hfind, hcount, harity, hwiden⟩ := issued_of_readInstruction hread
    refine List.forall_mem_append.2 ⟨fun i hi => ?_, fun i hi => ?_⟩
    · obtain ⟨widener, hwidener, rfl⟩ := List.mem_map.1 hi
      obtain ⟨hauto, hwide, hvar⟩ := hwiden widener (Option.mem_toList.1 hwidener)
      refine ⟨rfl, .widening hauto ⟨name, r.operation, hfind, ?_, hvar⟩ hwide⟩
      cases tokens with
      | nil =>
        rw [List.length_nil, eq_comm, List.length_eq_zero_iff] at hcount
        rw [hcount] at hvar
        cases hvar
      | cons token tokens => exact nameable_of_tokensOf hsolid hplain htokens hfind
    · rw [List.mem_singleton.1 hi]
      exact ⟨rfl, .asked hfind harity⟩
  | @printed push out hpush hout bytes =>
    intro i hi
    obtain ⟨b, _, hi⟩ := List.mem_flatMap.1 hi
    rcases List.mem_cons.1 hi with rfl | hi
    · exact ⟨rfl, .push hpush hout _⟩
    · rw [List.mem_singleton.1 hi]
      exact ⟨rfl, .out hpush hout⟩

theorem grows_pushAll {is : List Instruction}
    (h : ∀ i ∈ is, i.wide = false ∧ Issued s i.operation i.arguments) : Grows s m (m.pushAll is) := by
  induction is generalizing m with
  | nil => exact .refl s m
  | cons i rest ih =>
    obtain ⟨⟨hwide, hissued⟩, hrest⟩ := List.forall_mem_cons.1 h
    exact (grows_push hwide hissued).trans (ih hrest)

theorem Change.grows {p : Program} (h : Change s p m m') : Grows s m m' := by
  cases h with
  | slot name => exact grows_addVariable s m name
  | label hidentifier hadded => exact grows_addLabel hidentifier hadded
  | code hmeant => exact grows_pushAll hmeant.issued

theorem Changes.grows {p : Program} (h : Changes s p m m') : Grows s m m' := by
  induction h with
  | refl => exact .refl s m
  | tail _ hchange ih => exact ih.trans hchange.grows

theorem grows_pushBytes {push out : Operation}
    (hpush : s.set.find? InstructionSet.pushName = some push)
    (hout : s.set.find? InstructionSet.outName = some out) (line : Nat) (bytes : List UInt8) :
    Grows s m (pushBytes push out line m bytes) := by
  rw [pushBytes_eq]
  exact grows_pushAll (Meant.issued (p := {}) (m := m) (.printed hpush hout bytes))

theorem grows_statement {p : Program} {text : String} (line : Nat)
    (hsolid : Text.StartsSolid text.toList) : Grows s m (statement s p m text line).1 :=
  Changes.grows (changes_statement line hsolid)

end Assembly

end IjvmAsm
