import IjvmAsm.Proofs.Assembly.SpelledOut

/-!
# What a statement comes to

An instruction or a directive either means something where it stands, or one error is reported and
the method is left as it is. What it means is appended as a whole: the instruction, behind the
operation that widens it if that is inserted, or two instructions for every byte that is printed.
-/

namespace IjvmAsm

/-- The instruction as a line gives it, before it has a place in a method. -/
def Instruction.unplaced (i : Instruction) : Instruction := { i with wide := false, offset := 0 }

/-- Instructions have been appended to a method, and nothing else has changed. -/
structure Method.Appended (m m' : Method) (placed : List Instruction) : Prop where
  instructions : m'.instructions = m.instructions ++ placed
  laid : Laid m.size m.widensNext placed m'.size m'.widensNext
  size : m'.size = m.size + (placed.map Instruction.size).sum
  others : m' = { m with
    instructions := m'.instructions
    size := m'.size
    widensNext := m'.widensNext }

namespace Method

variable {m m' : Method} {is placed : List Instruction}

theorem Appended.cons {i : Instruction} (hi : i.unplaced = i)
    (h : (m.push i).Appended m' placed) :
    m.Appended m' ({ i with wide := m.widensNext, offset := m.size } :: placed) := by
  have hwide : i.wide = false := (congrArg Instruction.wide hi).symm
  have hpush : m.push i = { m with
      instructions := m.instructions.push { i with wide := m.widensNext, offset := m.size }
      size := m.size + ({ i with wide := m.widensNext, offset := m.size } : Instruction).size
      widensNext := i.operation.widens } := by
    rw [push, hwide, Bool.false_or]
  obtain ⟨hinstructions, hlaid, hsize, hothers⟩ := h
  rw [hpush] at hinstructions hlaid hsize hothers
  refine ⟨?_, .cons (i := { i with wide := m.widensNext, offset := m.size }) hlaid, ?_, hothers⟩
  · rw [hinstructions, ← Array.toList_inj]
    simp only [Array.toList_appendList, Array.toList_push, List.append_assoc, List.singleton_append]
  · rw [hsize, List.map_cons, List.sum_cons, Nat.add_assoc]

theorem exists_appended_pushAll (m : Method) (his : ∀ i ∈ is, i.unplaced = i) :
    ∃ placed, placed.map Instruction.unplaced = is ∧ m.Appended (m.pushAll is) placed := by
  induction is generalizing m with
  | nil => exact ⟨[], rfl, ⟨Array.appendList_nil.symm, .nil _ _, rfl, rfl⟩⟩
  | cons i is ih =>
    obtain ⟨hi, his⟩ := List.forall_mem_cons.1 his
    obtain ⟨placed, hplaced, happended⟩ := ih (m.push i) his
    refine ⟨{ i with wide := m.widensNext, offset := m.size } :: placed, ?_, happended.cons hi⟩
    rw [List.map_cons, hplaced, ← hi]
    rfl

end Method

namespace Assembly

inductive Stands (p : Program) (m : Method) : OperandKind × String → Argument → Prop
  | byte {token : String} {value : Int} (read : Literal.characterOrSigned 8 token = .ok value) :
      Stands p m (.byte, token) (.resolved value)
  | var {token : String} {v : Variable} (found : m.findVariable? token = some v)
      (addressable : v.slot ≤ maxWideSlot) : Stands p m (.var, token) (.resolved v.slot)
  | label (token : String) : Stands p m (.label, token) (.pending (.label token))
  | method (token : String) : Stands p m (.method, token) (.pending (.method token))
  | constant {token : String} {index : Nat} (found : p.constantIndex? token = some index) :
      Stands p m (.constant, token) (.resolved index)

/-- The token is a variable in a slot that only a wide instruction reaches. -/
def IsFar (m : Method) (operand : OperandKind × String) : Prop :=
  operand.1 = .var ∧ ∃ v, m.findVariable? operand.2 = some v ∧ maxNarrowSlot < v.slot

/-- An operation that widens has to stand before an instruction with these operands, and none
does. -/
def NeedsWide (m : Method) (operands : List (OperandKind × String)) : Prop :=
  m.widensNext = false ∧ ∃ operand ∈ operands, IsFar m operand

/-- An instruction that can be written where it stands, if it is widened where that is needed. -/
structure Requests (s : Setup) (p : Program) (m : Method) (text : String) (op : Operation)
    (tokens : List String) (arguments : List Argument) : Prop where
  plain : text.toList.head? ≠ some '#'
  named : ∃ name, Source.tokensOf text = name :: tokens ∧ s.set.find? name = some op
  count : tokens.length = op.operands.length
  stand : List.Forall₂ (Stands p m) (op.operands.zip tokens) arguments
  reached : NeedsWide m (op.operands.zip tokens) → s.autoWide = true

structure Prints (s : Setup) (text : String) (push out : Operation) (bytes : List UInt8) :
    Prop where
  mark : text.toList.head? = some '#'
  named : ∃ argument, splitDirective text = (printName, argument) ∧
    Source.Quoted.decode argument = .ok bytes
  push : s.set.find? InstructionSet.pushName = some push
  out : s.set.find? InstructionSet.outName = some out

/-- The instructions that a statement stands for, and what there is to warn of. -/
inductive Meaning (s : Setup) (p : Program) (m : Method) (text : String) (line : Nat) :
    List Instruction → List Problem → Prop
  | narrow {op : Operation} {tokens : List String} {arguments : List Argument}
      (requests : Requests s p m text op tokens arguments)
      (near : ¬ NeedsWide m (op.operands.zip tokens)) :
      Meaning s p m text line [{ operation := op, arguments, line }] []
  | widened {op widener : Operation} {tokens : List String} {arguments : List Argument}
      (requests : Requests s p m text op tokens arguments)
      (far : NeedsWide m (op.operands.zip tokens))
      (found : s.set.find? Operation.wideName = some widener) :
      Meaning s p m text line
        [{ operation := widener, arguments := [], line }, { operation := op, arguments, line }] []
  | printed {push out : Operation} {bytes : List UInt8} (prints : Prints s text push out bytes)
      (some : bytes ≠ []) : Meaning s p m text line (expansion push out line bytes) []
  | empty {push out : Operation} (prints : Prints s text push out []) :
      Meaning s p m text line [] [.printEmpty]

variable {s : Setup} {p : Program} {m : Method} {text : String} {line : Nat}

/-! ### What is read is what the tokens stand for -/

theorem stands_var_iff {token : String} {v : Variable} {argument : Argument}
    (hfind : m.findVariable? token = some v) :
    Stands p m (.var, token) argument ↔ v.slot ≤ maxWideSlot ∧ argument = .resolved v.slot := by
  constructor
  · intro h
    cases h with
    | var found addressable =>
      cases hfind.symm.trans found
      exact ⟨addressable, rfl⟩
  · rintro ⟨haddressable, rfl⟩
    exact .var hfind haddressable

theorem isFar_var_iff {token : String} {v : Variable} (hfind : m.findVariable? token = some v) :
    IsFar m (.var, token) ↔ maxNarrowSlot < v.slot := by
  constructor
  · rintro ⟨-, v', hv', hlt⟩
    cases hfind.symm.trans hv'
    exact hlt
  · exact fun hlt => ⟨rfl, v, hfind, hlt⟩

theorem slotArgument_eq_ok_iff {token : String} {argument : Argument} {widen : Bool} :
    slotArgument s m token = .ok (argument, widen) ↔
      Stands p m (.var, token) argument ∧
        (widen = true ↔ m.widensNext = false ∧ IsFar m (.var, token)) ∧
        (widen = true → s.autoWide = true) := by
  unfold slotArgument
  cases hfind : m.findVariable? token with
  | none =>
    refine ⟨nofun, fun ⟨hstands, _⟩ => ?_⟩
    cases hstands with
    | var found => cases hfind.symm.trans found
  | some v =>
    rw [stands_var_iff hfind, isFar_var_iff hfind]
    dsimp only
    split_ifs with hmax hnear hauto
    · exact ⟨nofun, fun h => absurd h.1.1 (Nat.not_le.2 hmax)⟩
    · have hneeds : ¬ (m.widensNext = false ∧ maxNarrowSlot < v.slot) := by
        rintro ⟨hpending, hfar⟩
        rcases hnear with hnear | hwidens
        · omega
        · cases hpending.symm.trans hwidens
      constructor
      · intro h
        cases h
        exact ⟨⟨Nat.not_lt.1 hmax, rfl⟩, ⟨nofun, fun h => absurd h hneeds⟩, nofun⟩
      · rintro ⟨⟨-, rfl⟩, hwiden, -⟩
        rw [Bool.eq_false_iff.2 fun h => hneeds (hwiden.1 h)]
    all_goals
      rw [not_or, Nat.not_le, Bool.not_eq_true] at hnear
      have hneeds := And.intro hnear.2 hnear.1
    · constructor
      · intro h
        cases h
        exact ⟨⟨Nat.not_lt.1 hmax, rfl⟩, ⟨fun _ => hneeds, fun _ => rfl⟩, fun _ => hauto⟩
      · rintro ⟨⟨-, rfl⟩, hwiden, -⟩
        rw [hwiden.2 hneeds]
    · exact ⟨nofun, fun h => absurd (h.2.2 (h.2.1.2 hneeds)) hauto⟩

theorem readArgument_eq_ok_iff {operand : OperandKind × String} {argument : Argument}
    {widen : Bool} :
    readArgument s p m operand.1 operand.2 = .ok (argument, widen) ↔
      Stands p m operand argument ∧ (widen = true ↔ m.widensNext = false ∧ IsFar m operand) ∧
        (widen = true → s.autoWide = true) := by
  obtain ⟨kind, token⟩ := operand
  -- Only a variable can ask for an operation that widens.
  have hother (hkind : kind ≠ .var) (hread : readArgument s p m kind token = .ok (argument, widen) ↔
      Stands p m (kind, token) argument ∧ widen = false) :
      readArgument s p m kind token = .ok (argument, widen) ↔ Stands p m (kind, token) argument ∧
        (widen = true ↔ m.widensNext = false ∧ IsFar m (kind, token)) ∧
        (widen = true → s.autoWide = true) := by
    have hneeds : ¬ (m.widensNext = false ∧ IsFar m (kind, token)) := fun h => hkind h.2.1
    rw [hread]
    constructor
    · rintro ⟨hstands, rfl⟩
      exact ⟨hstands, ⟨nofun, fun h => absurd h hneeds⟩, nofun⟩
    · rintro ⟨hstands, hwiden, -⟩
      exact ⟨hstands, Bool.eq_false_iff.2 fun h => hneeds (hwiden.1 h)⟩
  cases kind with
  | var => exact slotArgument_eq_ok_iff
  | byte =>
    refine hother (by decide) ⟨fun h => ?_, ?_⟩
    · simp only [readArgument] at h
      cases hread : Literal.characterOrSigned 8 token with
      | error cause =>
        rw [hread] at h
        cases h
      | ok value =>
        rw [hread] at h
        cases h
        exact ⟨.byte hread, rfl⟩
    · rintro ⟨hstands, rfl⟩
      cases hstands with
      | byte read => simp only [readArgument, read]
  | label =>
    refine hother (by decide) ⟨fun h => ?_, ?_⟩
    · cases h
      exact ⟨.label token, rfl⟩
    · rintro ⟨hstands, rfl⟩
      cases hstands
      rfl
  | method =>
    refine hother (by decide) ⟨fun h => ?_, ?_⟩
    · cases h
      exact ⟨.method token, rfl⟩
    · rintro ⟨hstands, rfl⟩
      cases hstands
      rfl
  | constant =>
    refine hother (by decide) ⟨fun h => ?_, ?_⟩
    · simp only [readArgument] at h
      cases hindex : p.constantIndex? token with
      | none =>
        rw [hindex] at h
        cases h
      | some index =>
        rw [hindex] at h
        cases h
        exact ⟨.constant hindex, rfl⟩
    · rintro ⟨hstands, rfl⟩
      cases hstands with
      | constant found => simp only [readArgument, found]

theorem needsWide_cons_iff {operand : OperandKind × String} {rest : List (OperandKind × String)} :
    NeedsWide m (operand :: rest) ↔ m.widensNext = false ∧ IsFar m operand ∨ NeedsWide m rest := by
  simp only [NeedsWide, List.mem_cons, exists_eq_or_imp, and_or_left]

theorem readArguments_cons_eq_ok_iff {operand : OperandKind × String}
    {rest : List (OperandKind × String)} {arguments : List Argument} {widen : Bool} :
    readArguments s p m (operand :: rest) = .ok (arguments, widen) ↔
      ∃ first widenFirst more widenRest,
        readArgument s p m operand.1 operand.2 = .ok (first, widenFirst) ∧
          readArguments s p m rest = .ok (more, widenRest) ∧ arguments = first :: more ∧
            widen = (widenFirst || widenRest) := by
  rw [readArguments]
  constructor
  · intro h
    cases hfirst : readArgument s p m operand.1 operand.2 with
    | error cause =>
      rw [hfirst] at h
      cases h
    | ok first =>
      cases hrest : readArguments s p m rest with
      | error cause =>
        rw [hfirst, hrest] at h
        cases h
      | ok more =>
        rw [hfirst, hrest] at h
        cases h
        exact ⟨_, _, _, _, rfl, rfl, rfl, rfl⟩
  · rintro ⟨first, widenFirst, more, widenRest, hfirst, hrest, rfl, rfl⟩
    rw [hfirst, hrest]
    rfl

theorem readArguments_eq_ok_iff {operands : List (OperandKind × String)}
    {arguments : List Argument} {widen : Bool} :
    readArguments s p m operands = .ok (arguments, widen) ↔
      List.Forall₂ (Stands p m) operands arguments ∧ (widen = true ↔ NeedsWide m operands) ∧
        (widen = true → s.autoWide = true) := by
  induction operands generalizing arguments widen with
  | nil =>
    have hneeds : ¬ NeedsWide m [] := fun h => List.not_mem_nil h.2.choose_spec.1
    constructor
    · intro h
      cases h
      exact ⟨.nil, ⟨nofun, fun h => absurd h hneeds⟩, nofun⟩
    · rintro ⟨hnil, hwiden, -⟩
      cases hnil
      rw [Bool.eq_false_iff.2 fun h => hneeds (hwiden.1 h)]
      rfl
  | cons operand rest ih =>
    rw [readArguments_cons_eq_ok_iff, needsWide_cons_iff]
    constructor
    · rintro ⟨first, widenFirst, more, widenRest, hfirst, hrest, rfl, rfl⟩
      obtain ⟨hstands, hneeds, hauto⟩ := readArgument_eq_ok_iff.1 hfirst
      obtain ⟨hstandsRest, hneedsRest, hautoRest⟩ := ih.1 hrest
      rw [Bool.or_eq_true, hneeds, hneedsRest]
      exact ⟨.cons hstands hstandsRest, Iff.rfl,
        fun h => h.elim (fun h => hauto (hneeds.2 h)) fun h => hautoRest (hneedsRest.2 h)⟩
    · rintro ⟨hstands, hneeds, hauto⟩
      obtain _ | ⟨hfirst, hrest⟩ := hstands
      classical
      refine ⟨_, decide (m.widensNext = false ∧ IsFar m operand), _, decide (NeedsWide m rest),
        readArgument_eq_ok_iff.2 ⟨hfirst, decide_eq_true_iff, fun h => ?_⟩,
        ih.2 ⟨hrest, decide_eq_true_iff, fun h => ?_⟩, rfl, ?_⟩
      · exact hauto (hneeds.2 (.inl (of_decide_eq_true h)))
      · exact hauto (hneeds.2 (.inr (of_decide_eq_true h)))
      · rw [Bool.eq_iff_iff, hneeds, Bool.or_eq_true, decide_eq_true_iff, decide_eq_true_iff]

/-! ### What is appended is what the statement means -/

inductive Verdict (s : Setup) (p : Program) (m : Method) (text : String) (line : Nat) :
    Method × List Event → Prop
  | refused {problem : Problem} (error : problem.severity = .error)
      (meaningless : ∀ is warnings, ¬ Meaning s p m text line is warnings) :
      Verdict s p m text line (m, [s.problem line problem])
  | carried {is : List Instruction} {warnings : List Problem} {events : List Event}
      (meaning : Meaning s p m text line is warnings)
      (diagnostics : events.filterMap Event.diagnostic? =
        warnings.map fun problem => problem.diagnostic s.file line) :
      Verdict s p m text line (m.pushAll is, events)

theorem Meaning.exists_requests {is : List Instruction} {warnings : List Problem}
    (h : Meaning s p m text line is warnings) (hplain : text.toList.head? ≠ some '#') :
    ∃ op tokens arguments, Requests s p m text op tokens arguments ∧
      (NeedsWide m (op.operands.zip tokens) →
        ∃ widener, s.set.find? Operation.wideName = some widener) := by
  cases h with
  | narrow requests near => exact ⟨_, _, _, requests, fun far => absurd far near⟩
  | widened requests far found => exact ⟨_, _, _, requests, fun _ => ⟨_, found⟩⟩
  | printed prints _ => exact absurd prints.mark hplain
  | empty prints => exact absurd prints.mark hplain

theorem meaning_of_readInstruction (hplain : text.toList.head? ≠ some '#') {name : String}
    {tokens : List String} {r : Reading} (htokens : Source.tokensOf text = name :: tokens)
    (h : readInstruction s p m text name tokens = .ok r) :
    Meaning s p m text line (r.instructions line) [] := by
  unfold readInstruction at h
  cases hfind : s.set.find? name with
  | none =>
    rw [hfind] at h
    cases h
  | some op =>
    simp only [hfind] at h
    split_ifs at h with hcount
    cases hread : readArguments s p m (op.operands.zip tokens) with
    | error cause =>
      rw [hread] at h
      cases h
    | ok result =>
      obtain ⟨arguments, widen⟩ := result
      obtain ⟨hstand, hneeds, hauto⟩ := readArguments_eq_ok_iff.1 hread
      have hrequests : Requests s p m text op tokens arguments :=
        ⟨hplain, ⟨name, htokens, hfind⟩, Decidable.not_not.1 hcount, hstand,
          fun far => hauto (hneeds.2 far)⟩
      cases widen with
      | false =>
        simp only [hread] at h
        cases h
        exact .narrow hrequests fun far => Bool.noConfusion (hneeds.2 far)
      | true =>
        simp only [hread] at h
        cases hwidener : s.set.find? Operation.wideName with
        | none =>
          rw [hwidener] at h
          cases h
        | some widener =>
          rw [hwidener] at h
          cases h
          exact .widened hrequests (hneeds.1 rfl) hwidener

theorem exists_readInstruction_eq_ok {name : String} {tokens tokens' : List String}
    {op : Operation} {arguments : List Argument} (htokens : Source.tokensOf text = name :: tokens)
    (hrequests : Requests s p m text op tokens' arguments)
    (hwidener : NeedsWide m (op.operands.zip tokens') →
      ∃ widener, s.set.find? Operation.wideName = some widener) :
    ∃ r, readInstruction s p m text name tokens = .ok r := by
  obtain ⟨name', htokens', hfind⟩ := hrequests.named
  obtain ⟨rfl, rfl⟩ := List.cons.inj (htokens.symm.trans htokens')
  classical
  have hread : readArguments s p m (op.operands.zip tokens) =
      .ok (arguments, decide (NeedsWide m (op.operands.zip tokens))) :=
    readArguments_eq_ok_iff.2
      ⟨hrequests.stand, decide_eq_true_iff, fun far => hrequests.reached (of_decide_eq_true far)⟩
  unfold readInstruction
  simp only [hfind, hrequests.count, ne_eq, not_true_eq_false, ↓reduceIte, hread]
  by_cases hneeds : NeedsWide m (op.operands.zip tokens)
  · obtain ⟨widener, hfound⟩ := hwidener hneeds
    simp only [hneeds, decide_true, hfound]
    exact ⟨_, rfl⟩
  · simp only [hneeds, decide_false]
    exact ⟨_, rfl⟩

theorem verdict_instruction (hplain : text.toList.head? ≠ some '#') {name : String}
    {tokens : List String} (htokens : Source.tokensOf text = name :: tokens) :
    Verdict s p m text line (instruction s p m text line) := by
  simp only [instruction, htokens]
  cases hread : readInstruction s p m text name tokens with
  | error problem =>
    refine .refused (severity_of_readInstruction hread) fun is warnings hmeaning => ?_
    obtain ⟨op, tokens', arguments, hrequests, hwidener⟩ := hmeaning.exists_requests hplain
    obtain ⟨r, hr⟩ := exists_readInstruction_eq_ok htokens hrequests hwidener
    cases hread.symm.trans hr
  | ok r =>
    have hperform : r.perform m line = (m.pushAll (r.instructions line), (r.perform m line).2) :=
      Prod.ext (perform_eq r m line) rfl
    dsimp only
    rw [hperform]
    refine .carried (meaning_of_readInstruction hplain htokens hread) ?_
    unfold Reading.perform
    cases r.widener <;> rfl

theorem Meaning.exists_prints {is : List Instruction} {warnings : List Problem}
    (h : Meaning s p m text line is warnings) (hmark : text.toList.head? = some '#') :
    ∃ push out bytes, Prints s text push out bytes := by
  cases h with
  | narrow requests _ => exact absurd hmark requests.plain
  | widened requests _ _ => exact absurd hmark requests.plain
  | printed prints _ => exact ⟨_, _, _, prints⟩
  | empty prints => exact ⟨_, _, _, prints⟩

theorem verdict_print (hmark : text.toList.head? = some '#') {argument : String}
    (hsplit : splitDirective text = (printName, argument)) :
    Verdict s p m text line (print s m argument line) := by
  -- What is refused here has no bytes, or no operations to print them.
  have hrefused (problem : Problem) (herror : problem.severity = .error)
      (hnone : ∀ push out bytes, Source.Quoted.decode argument = .ok bytes →
        s.set.find? InstructionSet.pushName = some push →
        s.set.find? InstructionSet.outName ≠ some out) :
      Verdict s p m text line (m, [s.problem line problem]) := by
    refine .refused herror fun is warnings hmeaning => ?_
    obtain ⟨push, out, bytes, -, ⟨argument', hsplit', hdecode⟩, hpush, hout⟩ :=
      hmeaning.exists_prints hmark
    cases hsplit.symm.trans hsplit'
    exact hnone push out bytes hdecode hpush hout
  unfold print
  split_ifs with hempty
  · refine hrefused _ rfl fun _ _ bytes hdecode => ?_
    rw [String.isEmpty_iff.1 hempty] at hdecode
    cases hdecode
  · cases hdecode : Source.Quoted.decode argument with
    | error cause =>
      refine hrefused _ rfl fun _ _ bytes hbytes => ?_
      cases hdecode.symm.trans hbytes
    | ok bytes =>
      dsimp only
      split
      next push out hpush hout =>
        have hprints : Prints s text push out bytes :=
          ⟨hmark, ⟨argument, hsplit, hdecode⟩, hpush, hout⟩
        split_ifs with hbytes
        · rw [List.isEmpty_iff.1 hbytes] at hprints
          have hverdict : Verdict s p m text line (m.pushAll [], [s.problem line .printEmpty]) :=
            .carried (.empty hprints) rfl
          exact hverdict
        · rw [pushBytes_eq]
          exact .carried (.printed hprints fun hnil => hbytes (List.isEmpty_iff.2 hnil)) rfl
      next hnone =>
        refine hrefused _ rfl fun push out _ _ hpush hout => ?_
        exact hnone push out hpush hout

theorem verdict_directive (hmark : text.toList.head? = some '#') :
    Verdict s p m text line (directive s m text line) := by
  obtain ⟨⟨name, argument⟩, hsplit⟩ : ∃ parts, splitDirective text = parts := ⟨_, rfl⟩
  simp only [directive, hsplit]
  split_ifs with hname
  · rw [hname] at hsplit
    exact verdict_print hmark hsplit
  · refine .refused rfl fun is warnings hmeaning => ?_
    obtain ⟨push, out, bytes, -, ⟨argument', hsplit', -⟩, -, -⟩ := hmeaning.exists_prints hmark
    exact hname (congrArg Prod.fst (hsplit.symm.trans hsplit'))

theorem exists_tokensOf (hsolid : Text.StartsSolid text.toList) (hnonempty : text ≠ "") :
    ∃ name tokens, Source.tokensOf text = name :: tokens := by
  cases hcs : text.toList with
  | nil => exact absurd (String.toList_eq_nil_iff.1 hcs) hnonempty
  | cons c cs =>
    have hc : Text.isBlank c = false := hsolid c (by rw [hcs]; rfl)
    rw [Source.tokensOf, hcs]
    obtain ⟨name, tokens, htokens⟩ := List.exists_cons_of_ne_nil (Source.tokens_ne_nil hc cs)
    rw [htokens]
    exact ⟨_, _, rfl⟩

theorem verdict_action (hsolid : Text.StartsSolid text.toList) (hnonempty : text ≠ "") :
    Verdict s p m text line (action s p m text line) := by
  unfold action
  split_ifs with hempty hmark
  · exact absurd (String.isEmpty_iff.1 hempty) hnonempty
  · exact verdict_directive hmark
  · obtain ⟨name, tokens, htokens⟩ := exists_tokensOf hsolid hnonempty
    exact verdict_instruction hmark htokens

theorem length_expansion (push out : Operation) (line : Nat) (bytes : List UInt8) :
    (expansion push out line bytes).length = 2 * bytes.length := by
  induction bytes with
  | nil => rfl
  | cons b rest ih =>
    rw [expansion, List.flatMap_cons, List.length_append, ← expansion, ih, List.length_cons,
      List.length_cons, List.length_cons, List.length_nil]
    omega

theorem unplaced_of_mem_expansion {push out : Operation} {bytes : List UInt8} {i : Instruction}
    (hi : i ∈ expansion push out line bytes) : i.unplaced = i := by
  obtain ⟨b, -, hi⟩ := List.mem_flatMap.1 hi
  rcases List.mem_pair.1 hi with rfl | rfl
  · rfl
  · rfl

theorem Meaning.unplaced_eq {is : List Instruction} {warnings : List Problem}
    (h : Meaning s p m text line is warnings) : ∀ i ∈ is, i.unplaced = i := by
  cases h with
  | narrow => exact List.forall_mem_singleton.2 rfl
  | widened => exact List.forall_mem_cons.2 ⟨rfl, List.forall_mem_singleton.2 rfl⟩
  | printed => exact fun i hi => unplaced_of_mem_expansion hi
  | empty => exact nofun

theorem Meaning.severity_eq {is : List Instruction} {warnings : List Problem}
    (h : Meaning s p m text line is warnings) :
    ∀ problem ∈ warnings, problem.severity = .warning := by
  cases h with
  | narrow | widened | printed => exact nofun
  | empty => exact List.forall_mem_singleton.2 rfl

theorem Meaning.length_eq {is : List Instruction} {warnings : List Problem} {push out : Operation}
    {bytes : List UInt8} (h : Meaning s p m text line is warnings)
    (hprints : Prints s text push out bytes) : is.length = 2 * bytes.length := by
  have hsame {push' out' : Operation} {bytes' : List UInt8}
      (hprints' : Prints s text push' out' bytes') : bytes' = bytes := by
    obtain ⟨argument, hsplit, hdecode⟩ := hprints.named
    obtain ⟨argument', hsplit', hdecode'⟩ := hprints'.named
    cases hsplit.symm.trans hsplit'
    cases hdecode.symm.trans hdecode'
    rfl
  cases h with
  | narrow requests _ => exact absurd hprints.mark requests.plain
  | widened requests _ _ => exact absurd hprints.mark requests.plain
  | printed prints _ => rw [length_expansion, hsame prints]
  | empty prints =>
    rw [← hsame prints]
    rfl

/-- The statement means nothing where it stands. The method is left as it is, and one error is
reported. -/
def Refused (s : Setup) (p : Program) (m : Method) (text : String) (line : Nat) : Prop :=
  (∀ is warnings, ¬ Meaning s p m text line is warnings) ∧
    ∃ problem : Problem, problem.severity = .error ∧
      action s p m text line = (m, [s.problem line problem])

/-- What the statement means is appended to the method, two instructions for every byte that it
prints. No error is reported, and nothing else than what there is to warn of. -/
def Carried (s : Setup) (p : Program) (m : Method) (text : String) (line : Nat) : Prop :=
  ∃ placed warnings, Meaning s p m text line (placed.map Instruction.unplaced) warnings ∧
    m.Appended (action s p m text line).1 placed ∧
    (∀ push out bytes, Prints s text push out bytes → placed.length = 2 * bytes.length) ∧
    (action s p m text line).2.filterMap Event.diagnostic? =
      warnings.map (fun problem => problem.diagnostic s.file line) ∧
    ∀ problem ∈ warnings, problem.severity = .warning

/-- A statement is refused or carried out as a whole, and its line leaves the constants and the
other methods of the program as they are. -/
theorem refused_or_carried (s : Setup) (p : Program) (m : Method) (text : String) (line : Nat)
    (htrimmed : Text.trimBlanks text.toList = text.toList) (hnonempty : text ≠ "") :
    (Refused s p m text line ∨ Carried s p m text line) ∧
      ∀ (a : Progress) (started : Bool), a.block = .body m started → IsStatement text →
        ∃ a', a.step s ⟨line, text⟩ = .ok a' ∧ a'.program = a.program := by
  constructor
  · have hsolid : Text.StartsSolid text.toList := htrimmed ▸ Text.startsSolid_trimBlanks _
    have hverdict : Verdict s p m text line (action s p m text line) :=
      verdict_action hsolid hnonempty
    generalize haction : action s p m text line = result at hverdict
    cases hverdict with
    | refused error meaningless => exact .inl ⟨meaningless, _, error, haction⟩
    | carried meaning diagnostics =>
      obtain ⟨placed, rfl, happended⟩ := m.exists_appended_pushAll meaning.unplaced_eq
      refine .inr ⟨placed, _, meaning, ?_, fun push out bytes hprints => ?_, ?_,
        meaning.severity_eq⟩
      · rw [haction]
        exact happended
      · rw [← meaning.length_eq hprints, List.length_map]
      · rw [haction]
        exact diagnostics
  · intro a started hblock hstatement
    exact ⟨_, Progress.step_of_isStatement s line hblock hstatement, rfl⟩

def distant : Method := ⟨"main", 1, #[⟨"x", 256⟩], #[], #[], 0, 0, true, 1, false⟩

/-- An instruction that needs an operation before it which widens is carried out. -/
theorem carried_distant :
    Text.trimBlanks "ILOAD x".toList = "ILOAD x".toList ∧ "ILOAD x" ≠ "" ∧
      Carried { file := "t.jas", autoWide := true } {} distant "ILOAD x" 3 := by
  have htrimmed : Text.trimBlanks "ILOAD x".toList = "ILOAD x".toList := by decide
  have hnonempty : "ILOAD x" ≠ "" := by decide
  have hfound : InstructionSet.standard.find? "ILOAD" = some ⟨"ILOAD", 0x15, [.var]⟩ ∧
      InstructionSet.standard.find? Operation.wideName = some ⟨Operation.wideName, 0xC4, []⟩ := by
    decide +kernel
  have hrequests : Requests { file := "t.jas", autoWide := true } {} distant "ILOAD x"
      ⟨"ILOAD", 0x15, [.var]⟩ ["x"] [.resolved 256] :=
    ⟨by decide, ⟨"ILOAD", by decide, hfound.1⟩, rfl,
      .cons (.var (v := ⟨"x", 256⟩) rfl (by decide)) .nil, fun _ => rfl⟩
  have hfar : NeedsWide distant [(.var, "x")] :=
    ⟨rfl, _, List.mem_singleton_self _, rfl, ⟨"x", 256⟩, rfl, by decide⟩
  refine ⟨htrimmed, hnonempty, ?_⟩
  rcases (refused_or_carried _ _ _ _ 3 htrimmed hnonempty).1 with hrefused | hcarried
  · exact absurd (.widened hrequests hfar hfound.2) (hrefused.1 _ _)
  · exact hcarried

end Assembly

end IjvmAsm
