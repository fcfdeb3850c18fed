import IjvmAsm.InstructionSet.Definition
import IjvmAsm.InstructionSet.Standard
import IjvmAsm.Proofs.Text.Written
import Mathlib.Data.List.Nodup
import Mathlib.Tactic.SplitIfs

/-!
# Accepted instruction sets

The sets that a run can be given: the standard one, and those that definitions give. In each of
them an operation that is found by its mnemonic is the one that its opcode stands for.
-/

namespace IjvmAsm.InstructionSet

/-- The standard set, or one that a definition gives. -/
def Accepted (set : InstructionSet) : Prop :=
  set = standard ∨ ∃ name bytes, (ofDefinition name bytes).2 = .ok set

variable {set : InstructionSet} {op other : Operation}

theorem find?_eq_some {name : String} (h : set.find? name = some op) :
    op ∈ set.named ∧ op.name = name.toUpper := by
  have hname := List.find?_some h
  rw [beq_iff_eq] at hname
  exact ⟨List.mem_of_find?_eq_some h, hname⟩

theorem toUpper_toUpper (name : String) : name.toUpper.toUpper = name.toUpper := by
  rw [← String.toList_inj, String.toUpper, String.toUpper, String.toList_map, String.toList_map,
    List.map_map]
  exact List.map_congr_left fun c _ => Text.toUpper_toUpper c

theorem find?_self {name : String} (h : set.find? name = some op) :
    set.find? op.name = some op := by
  rw [find?, (find?_eq_some h).2, toUpper_toUpper, ← find?, h]

/-- What holds of the empty set and is kept by what a line defines holds of every set that a
definition gives. -/
theorem ofDefinition_induction {P : InstructionSet → Prop} (hempty : ∀ name, P (empty name))
    (hinsert : ∀ set line opcode tokens op, definitionTokens line = opcode :: tokens →
      define set opcode tokens = .ok op → P set → P (set.insert op))
    {name : String} {bytes : List UInt8} (h : (ofDefinition name bytes).2 = .ok set) : P set := by
  have hstep : ∀ (r : Reading) (line : String), P r.set → P (r.step line).set := by
    intro r line hr
    unfold Reading.step
    cases htokens : definitionTokens line with
    | nil => exact hr
    | cons opcode tokens =>
      cases hdefine : define r.set opcode tokens with
      | error fault => simpa only [hdefine] using hr
      | ok op => simpa only [hdefine] using hinsert r.set line opcode tokens op htokens hdefine hr
  have hlines : ∀ (lines : List String) (r : Reading), P r.set →
      P (lines.foldl Reading.step r).set := by
    intro lines
    induction lines with
    | nil =>
      intro r hr
      exact hr
    | cons line rest ih =>
      intro r hr
      exact ih _ (hstep r line hr)
  have hresult := hlines (Text.Lines.ofBytes bytes).readable { set := empty name } (hempty name)
  unfold ofDefinition at h
  dsimp only at h
  split_ifs at h
  rw [Except.ok.injEq] at h
  rw [← h]
  exact hresult

theorem define_eq_ok {opcode : String} {tokens : List String}
    (h : define set opcode tokens = .ok op) :
    set.hasOpcode op.opcode = false ∧ ∃ name kinds, tokens = name :: kinds ∧
      op.name = name.toUpper := by
  cases tokens with
  | nil => cases h
  | cons name kinds =>
    unfold define at h
    cases hcode : (Literal.unsigned 8 opcode).mapError LineFault.opcode with
    | error fault =>
      rw [hcode] at h
      cases h
    | ok code =>
      simp only [hcode, bind, Except.bind, pure, Except.pure, throw, throwThe,
        MonadExceptOf.throw] at h
      split_ifs at h with hopcode hname
      cases hkinds : operandKinds kinds with
      | error fault =>
        rw [hkinds] at h
        cases h
      | ok operands =>
        rw [hkinds] at h
        cases h
        exact ⟨Bool.eq_false_iff.2 hopcode, name, kinds, rfl, rfl⟩

structure Coherent (set : InstructionSet) : Prop where
  coded : ∀ op ∈ set.named, op ∈ set.coded
  increasing : set.coded.Pairwise (·.opcode < ·.opcode)

theorem mem_insertNamed {ops : List Operation} (h : other ∈ insertNamed op ops) :
    other = op ∨ other ∈ ops := by
  induction ops with
  | nil => exact .inl (List.mem_singleton.1 h)
  | cons first rest ih =>
    unfold insertNamed at h
    split_ifs at h with hname
    · rcases List.mem_cons.1 h with rfl | h
      · exact .inl rfl
      · exact .inr (List.mem_cons_of_mem _ h)
    · rcases List.mem_cons.1 h with rfl | h
      · exact .inr List.mem_cons_self
      · exact (ih h).imp_right (List.mem_cons_of_mem _)

theorem mem_insertCoded_self (op : Operation) (ops : List Operation) : op ∈ insertCoded op ops := by
  induction ops with
  | nil => exact List.mem_singleton_self op
  | cons first rest ih =>
    unfold insertCoded
    split_ifs
    · exact List.mem_cons_self
    · exact List.mem_cons_self
    · exact List.mem_cons_of_mem _ ih

theorem mem_insertCoded_of_mem {ops : List Operation} (h : other ∈ ops)
    (hopcode : other.opcode ≠ op.opcode) : other ∈ insertCoded op ops := by
  induction ops with
  | nil => cases h
  | cons first rest ih =>
    unfold insertCoded
    split_ifs with hlt heq
    · exact List.mem_cons_of_mem _ h
    · rcases List.mem_cons.1 h with rfl | h
      · exact absurd heq.symm hopcode
      · exact List.mem_cons_of_mem _ h
    · rcases List.mem_cons.1 h with rfl | h
      · exact List.mem_cons_self
      · exact List.mem_cons_of_mem _ (ih h)

theorem Coherent.insert (h : set.Coherent) (hfresh : set.hasOpcode op.opcode = false) :
    (set.insert op).Coherent := by
  refine ⟨fun other hother => ?_, pairwise_insertCoded op h.increasing⟩
  rcases mem_insertNamed hother with rfl | hother
  · exact mem_insertCoded_self _ _
  · apply mem_insertCoded_of_mem (h.coded other hother)
    rw [hasOpcode, decode?, Option.isSome_eq_false_iff, Option.isNone_iff_eq_none,
      List.find?_eq_none] at hfresh
    simpa using hfresh other (h.coded other hother)

theorem Accepted.coherent (h : set.Accepted) : set.Coherent := by
  rcases h with rfl | ⟨name, bytes, h⟩
  · exact ⟨fun _ hop => hop, by decide⟩
  · refine ofDefinition_induction (fun name => ⟨nofun, .nil⟩) ?_ h
    intro set line opcode tokens op _ hdefine hset
    exact hset.insert (define_eq_ok hdefine).1

/-- Where no key occurs twice, what is found under a key is all that has it. -/
theorem find?_eq_some_iff_of_nodup {α κ : Type} [BEq κ] [LawfulBEq κ] {key : α → κ}
    {xs : List α} (h : (xs.map key).Nodup) {k : κ} {a : α} :
    xs.find? (fun x => key x == k) = some a ↔ a ∈ xs ∧ key a = k := by
  constructor
  · intro hfind
    have hkey := List.find?_some hfind
    rw [beq_iff_eq] at hkey
    exact ⟨List.mem_of_find?_eq_some hfind, hkey⟩
  · rintro ⟨hmem, rfl⟩
    obtain ⟨found, hfound⟩ : ∃ found, xs.find? (fun x => key x == key a) = some found := by
      rw [← Option.isSome_iff_exists, List.find?_isSome]
      exact ⟨a, hmem, beq_self_eq_true _⟩
    have hkey := List.find?_some hfound
    rw [beq_iff_eq] at hkey
    rw [hfound, List.inj_on_of_nodup_map h (List.mem_of_find?_eq_some hfound) hmem hkey]

theorem Coherent.decode?_opcode (h : set.Coherent) {name : String}
    (hfind : set.find? name = some op) : set.decode? op.opcode = some op := by
  have hdistinct : (set.coded.map Operation.opcode).Nodup := by
    rw [List.Nodup, List.pairwise_map]
    refine h.increasing.imp fun {first second} hlt heq => ?_
    rw [heq] at hlt
    exact UInt8.lt_irrefl _ hlt
  exact (find?_eq_some_iff_of_nodup hdistinct).2 ⟨h.coded op (find?_eq_some hfind).1, rfl⟩

structure Spelled (op : Operation) : Prop where
  solid : ∀ c ∈ op.name.toList, Text.isBlank c = false
  commentless : Text.Commentless op.name.toList

theorem spelled_of_mem_standard (h : op ∈ standard.named) : Spelled op := by
  have hsolid : standard.named.all (fun op => op.name.toList.all fun c => !Text.isBlank c) =
      true := by decide
  have hcommentless : ∀ op ∈ standard.named, Text.Commentless op.name.toList := by
    unfold Text.Commentless
    decide
  refine ⟨fun c hc => ?_, hcommentless op h⟩
  have hop := List.all_eq_true.1 hsolid op h
  simpa only [Bool.not_eq_true'] using List.all_eq_true.1 hop c hc

/-- A text that is one word of a line, and begins no comment. -/
structure DefinitionWord (text : String) : Prop where
  nonempty : text.toList ≠ []
  solid : ∀ c ∈ text.toList, Text.isBlank c = false
  commentless : Text.Commentless text.toList

/-- The words of a definition are words still when they are put in capitals. -/
theorem definitionWord_toUpper {line name : String} (h : name ∈ definitionTokens line) :
    DefinitionWord name.toUpper := by
  have hword : name.toList ∈ Text.words (beforeComment line.toList) := by
    obtain ⟨word, hword, rfl⟩ := List.mem_map.1 h
    rwa [String.toList_ofList]
  obtain ⟨hne, hsolid, hpart⟩ := Text.mem_words hword
  have hplain := (Text.commentless_beforeComment line.toList).part hpart
  constructor
  all_goals rw [String.toUpper, String.toList_map]
  · exact fun hnil => hne (List.map_eq_nil_iff.1 hnil)
  · rw [List.forall_mem_map]
    intro c hc
    rw [Text.isBlank_toUpper, hsolid c hc]
  · exact hplain.toUpper

theorem spelled_of_define {line opcode : String} {tokens : List String}
    (htokens : definitionTokens line = opcode :: tokens)
    (hdefine : define set opcode tokens = .ok op) : Spelled op := by
  obtain ⟨_, name, kinds, rfl, hname⟩ := define_eq_ok hdefine
  have hmem : name ∈ definitionTokens line := by
    rw [htokens]
    exact List.mem_cons_of_mem _ List.mem_cons_self
  obtain ⟨-, hsolid, hcommentless⟩ := definitionWord_toUpper hmem
  rw [← hname] at hsolid hcommentless
  exact ⟨hsolid, hcommentless⟩

theorem Accepted.spelled (h : set.Accepted) {name : String} (hfind : set.find? name = some op) :
    Spelled op := by
  have hmem := (find?_eq_some hfind).1
  rcases h with rfl | ⟨source, bytes, h⟩
  · exact spelled_of_mem_standard hmem
  · have hall : ∀ op ∈ set.named, Spelled op := by
      refine ofDefinition_induction (P := fun set => ∀ op ∈ set.named, Spelled op)
        (fun _ _ => nofun) ?_ h
      intro set line opcode tokens op htokens hdefine hset other hother
      rcases mem_insertNamed hother with rfl | hother
      · exact spelled_of_define htokens hdefine
      · exact hset other hother
    exact hall op hmem

end IjvmAsm.InstructionSet
