import IjvmAsm.Assembly.Block
import IjvmAsm.Proofs.Text.Written
import Mathlib.Logic.Relation

/-!
# What lines change in a method

Whatever a line in a method says, it comes to variables that take the next slots, to a label that
is put before the next instruction, and to instructions that are appended: those that the line asks
for, with the operation that widens before them if one is needed, or those that print a string.
-/

namespace IjvmAsm

def Method.pushAll (m : Method) (is : List Instruction) : Method := is.foldl Method.push m

namespace Method

variable {m : Method} {is : List Instruction}

@[simp] theorem pushAll_nil : m.pushAll [] = m := rfl

@[simp] theorem pushAll_cons {i : Instruction} : m.pushAll (i :: is) = (m.push i).pushAll is := rfl

@[simp] theorem labels_pushAll : (m.pushAll is).labels = m.labels := by
  induction is generalizing m with
  | nil => rfl
  | cons i rest ih => exact ih

theorem prefix_pushAll : m.instructions.toList <+: (m.pushAll is).instructions.toList := by
  induction is generalizing m with
  | nil => exact List.prefix_rfl
  | cons i rest ih =>
    refine List.IsPrefix.trans ?_ ih
    rw [push, Array.toList_push]
    exact List.prefix_append _ _

end Method

namespace Assembly

def Reading.instructions (r : Reading) (line : Nat) : List Instruction :=
  (r.widener.toList.map fun widener => { operation := widener, arguments := [], line }) ++
    [{ operation := r.operation, arguments := r.arguments, line }]

def expansion (push out : Operation) (line : Nat) (bytes : List UInt8) : List Instruction :=
  bytes.flatMap fun b =>
    [{ operation := push, arguments := [.resolved b.toInt8.toInt], line },
      { operation := out, arguments := [], line }]

/-- The instructions that a statement in the method can stand for, its label aside. -/
inductive Meant (s : Setup) (p : Program) (m : Method) (line : Nat) : List Instruction → Prop
  | nothing : Meant s p m line []
  | asked {text name : String} {tokens : List String} {r : Reading}
      (solid : Text.StartsSolid text.toList) (plain : text.toList.head? ≠ some '#')
      (tokensOf : Source.tokensOf text = name :: tokens)
      (read : readInstruction s p m text name tokens = .ok r) : Meant s p m line (r.instructions line)
  | printed {push out : Operation} (foundPush : s.set.find? InstructionSet.pushName = some push)
      (foundOut : s.set.find? InstructionSet.outName = some out) (bytes : List UInt8) :
      Meant s p m line (expansion push out line bytes)

inductive Change (s : Setup) (p : Program) : Method → Method → Prop
  | slot (m : Method) (name : String) : Change s p m (m.addVariable name)
  | label {m m' : Method} {name : String} {line : Nat}
      (identifier : Source.isIdentifier name = true) (added : m.addLabel name line = .ok m') :
      Change s p m m'
  | code {m : Method} {line : Nat} {is : List Instruction} (meant : Meant s p m line is) :
      Change s p m (m.pushAll is)

abbrev Changes (s : Setup) (p : Program) : Method → Method → Prop :=
  Relation.ReflTransGen (Change s p)

variable {s : Setup} {p : Program} {m : Method}

theorem perform_eq (r : Reading) (m : Method) (line : Nat) :
    (r.perform m line).1 = m.pushAll (r.instructions line) := by
  unfold Reading.perform Reading.instructions
  cases r.widener <;> rfl

theorem pushBytes_eq (push out : Operation) (line : Nat) (m : Method) (bytes : List UInt8) :
    pushBytes push out line m bytes = m.pushAll (expansion push out line bytes) := by
  induction bytes generalizing m with
  | nil => rfl
  | cons b rest ih => exact ih _

theorem exists_meant_print (s : Setup) (p : Program) (m : Method) (argument : String) (line : Nat) :
    ∃ is, Meant s p m line is ∧ (print s m argument line).1 = m.pushAll is := by
  unfold print
  split_ifs with hempty
  · exact ⟨[], .nothing, rfl⟩
  · cases Source.Quoted.decode argument with
    | error cause => exact ⟨[], .nothing, rfl⟩
    | ok bytes =>
      dsimp only
      split
      next push out hpush hout =>
        split_ifs
        · exact ⟨[], .nothing, rfl⟩
        · exact ⟨_, .printed hpush hout bytes, pushBytes_eq push out line m bytes⟩
      next => exact ⟨[], .nothing, rfl⟩

theorem exists_meant_instruction {text : String} (line : Nat)
    (hsolid : Text.StartsSolid text.toList) (hplain : text.toList.head? ≠ some '#') :
    ∃ is, Meant s p m line is ∧ (instruction s p m text line).1 = m.pushAll is := by
  unfold instruction
  cases htokens : Source.tokensOf text with
  | nil => exact ⟨[], .nothing, rfl⟩
  | cons name tokens =>
    cases hread : readInstruction s p m text name tokens with
    | error problem =>
      simp only [hread]
      exact ⟨[], .nothing, rfl⟩
    | ok r =>
      simp only [hread]
      exact ⟨_, .asked hsolid hplain htokens hread, perform_eq r m line⟩

theorem exists_meant_action {text : String} (line : Nat) (hsolid : Text.StartsSolid text.toList) :
    ∃ is, Meant s p m line is ∧ (action s p m text line).1 = m.pushAll is := by
  unfold action
  split_ifs with hempty hdirective
  · exact ⟨[], .nothing, rfl⟩
  · unfold directive
    dsimp only
    split_ifs
    · exact exists_meant_print s p m _ line
    · exact ⟨[], .nothing, rfl⟩
  · exact exists_meant_instruction line hsolid hdirective

/-- What stands behind a label begins without blanks. -/
theorem startsSolid_of_splitLabel {text name rest : String}
    (h : splitLabel text = some (name, rest)) : Text.StartsSolid rest.toList := by
  unfold splitLabel at h
  cases hcut : Text.cutAt (· == ':') text.toList with
  | none => simp [hcut] at h
  | some halves =>
    simp only [hcut] at h
    split_ifs at h
    cases h
    rw [String.toList_ofList]
    exact Text.startsSolid_trimBlanks _

theorem changes_defineLabel (s : Setup) (p : Program) (m : Method) (name : String) (line : Nat) :
    Changes s p m (defineLabel s m name line).1 := by
  unfold defineLabel
  split_ifs with hname
  · exact .refl
  · cases hadd : m.addLabel name line with
    | error taken => exact .refl
    | ok labelled =>
      rw [Bool.not_eq_true, Bool.not_eq_false'] at hname
      exact .single (.label hname hadd)

theorem changes_action {text : String} (line : Nat) (hsolid : Text.StartsSolid text.toList) :
    Changes s p m (action s p m text line).1 := by
  obtain ⟨is, hmeant, heq⟩ := exists_meant_action (s := s) (p := p) (m := m) line hsolid
  rw [heq]
  exact .single (.code hmeant)

theorem changes_statement {text : String} (line : Nat) (hsolid : Text.StartsSolid text.toList) :
    Changes s p m (statement s p m text line).1 := by
  unfold statement
  cases hsplit : splitLabel text with
  | none => exact changes_action line hsolid
  | some parts =>
    obtain ⟨name, rest⟩ := parts
    exact (changes_defineLabel s p m name line).trans
      (changes_action line (startsSolid_of_splitLabel hsplit))

theorem changes_declareAll (s : Setup) (p : Program) (line : Nat) (m : Method)
    (names : List String) : Changes s p m (Progress.declareAll s line m names).1 := by
  induction names generalizing m with
  | nil => exact .refl
  | cons name rest ih =>
    have hfirst : Changes s p m (Progress.declare s line m name).1 := by
      unfold Progress.declare
      split_ifs
      · exact .refl
      · exact .single (.slot m name)
    exact hfirst.trans (ih _)

end Assembly

end IjvmAsm
