import IjvmAsm.Assembly.Run
import IjvmAsm.Proofs.Source.Header

/-!
# Scripts

What a source says, however it is written: constants, what the entry method does, and other methods.
A script has a canonical source, with one item a line. It also says by itself which program it
stands for: the slots of the variables, the offsets of the instructions and of the methods, and the
value of every name.
-/

namespace IjvmAsm

namespace Script

inductive Operand
  | byte (value : Int8)
  | var (name : String)
  | label (name : String)
  | constant (name : String)
  | method (name : String)

structure Statement where
  label : Option String
  operation : Operation
  operands : List Operand

structure Routine where
  name : String
  parameters : List String
  locals : List String
  statements : List Statement

end Script

structure Script where
  constants : List (String × Int32)
  mainLocals : List String
  mainStatements : List Script.Statement
  methods : List Script.Routine

namespace Script

def entry (script : Script) : Routine :=
  ⟨Method.entryName, [], script.mainLocals, script.mainStatements⟩

section Writing

def Operand.text : Operand → String
  | byte value => toString value.toInt
  | var name | label name | constant name | method name => name

def Statement.instructionText (st : Statement) : String :=
  Source.sentence st.operation.name (st.operands.map Operand.text)

def Statement.text (st : Statement) : String :=
  match st.label with
  | none => st.instructionText
  | some name => name ++ ": " ++ st.instructionText

def constantText (name : String) (value : Int32) : String :=
  Source.sentence name [toString value.toInt]

def Routine.bodyLines (r : Routine) (closing : Assembly.Closing) : List String :=
  Assembly.declarationsOpening :: (r.locals ++ Assembly.Closing.declarations.text ::
    (r.statements.map Statement.text ++ [closing.text]))

def Routine.lines (r : Routine) : List String :=
  Source.headerText r.name r.parameters :: r.bodyLines .method

def constantLines (script : Script) : List String :=
  Assembly.constantsOpening :: (script.constants.map (fun (name, value) => constantText name value) ++
    [Assembly.Closing.constants.text])

def lines (script : Script) : List String :=
  script.constantLines ++ Assembly.mainOpening :: (script.entry.bodyLines .main ++
    script.methods.flatMap Routine.lines)

def source (script : Script) : Bytes := Text.unlines script.lines

end Writing

section Meaning

def Operand.kind : Operand → OperandKind
  | byte _ => .byte
  | var _ => .var
  | label _ => .label
  | constant _ => .constant
  | method _ => .method

structure Spot where
  statement : Statement
  offset : Nat
  wide : Bool

def Spot.size (spot : Spot) : Nat := spot.statement.operation.size spot.wide

def spotsFrom (offset : Nat) (wide : Bool) : List Statement → List Spot
  | [] => []
  | st :: rest =>
    ⟨st, offset, wide⟩ ::
      spotsFrom (offset + st.operation.size wide) st.operation.widens rest

def labelsFrom (index : Nat) (spots : List Spot) : List Label :=
  (spots.zipIdx index).filterMap fun (spot, index) =>
    spot.statement.label.map fun name => ⟨name, 0, spot.offset, index⟩

def slotsFrom (first : Nat) (names : List String) : List Variable :=
  (names.zipIdx first).map fun (name, slot) => ⟨name, slot⟩

namespace Routine

def slotNames (r : Routine) : List String := Method.linkPointer :: (r.parameters ++ r.locals)

def spots (r : Routine) : List Spot := spotsFrom 0 false r.statements

def size (r : Routine) : Nat := (r.spots.map Spot.size).sum

def labels (r : Routine) : List Label := labelsFrom 0 r.spots

def labelNames (r : Routine) : List String := r.statements.filterMap Statement.label

def labelOffset (r : Routine) (name : String) : Nat :=
  (r.labels.find? fun l => l.name == name).elim 0 Label.offset

end Routine

/-- The names of the constants, those of methods included, by their indices. -/
def names (script : Script) : List String :=
  script.constants.map Prod.fst ++ script.methods.map Routine.name

def value (script : Script) (r : Routine) (offset : Nat) : Operand → Int
  | .byte value => value.toInt
  | .var name => r.slotNames.idxOf name
  | .label name => r.labelOffset name - offset
  | .constant name | .method name => script.names.idxOf name

def Spot.instruction (argument : Nat → Operand → Argument) (spot : Spot) : Instruction where
  operation := spot.statement.operation
  arguments := spot.statement.operands.map (argument spot.offset)
  line := 0
  wide := spot.wide
  offset := spot.offset

def Routine.method (r : Routine) (argument : Nat → Operand → Argument) (offset : Nat)
    (isEntry : Bool) : Method where
  name := r.name
  parameterCount := r.parameters.length + 1
  slots := (slotsFrom 0 r.slotNames).toArray
  instructions := (r.spots.map (Spot.instruction argument)).toArray
  labels := r.labels.toArray
  size := r.size
  offset
  isEntry
  line := 0
  widensNext := false

def placedFrom (cursor : Nat) : List Routine → List (Routine × Nat)
  | [] => []
  | r :: rest => (r, cursor) :: placedFrom (cursor + r.size + Image.headerSize) rest

def placed (script : Script) : List (Routine × Nat) :=
  placedFrom script.entry.size script.methods

def declared (script : Script) : List Constant :=
  script.constants.map fun (name, value) => ⟨name, value, 0, .declared⟩

def callable (script : Script) : List Constant :=
  script.placed.map fun (r, offset) => ⟨r.name, Int32.ofNat offset, 0, .method⟩

def resolvedMethod (script : Script) (isEntry : Bool) (r : Routine) (offset : Nat) : Method :=
  r.method (fun at' operand => .resolved (script.value r at' operand)) offset isEntry

/-- The program that the script stands for, without line numbers. -/
def program (script : Script) : Program where
  constants := (script.declared ++ script.callable).toArray
  methods := (script.resolvedMethod true script.entry 0 :: script.placed.map fun (r, offset) =>
    script.resolvedMethod false r offset).toArray

end Meaning

section WellFormed

/-- What an operand refers to exists. A slot above 255 needs a wide instruction, and a jump goes no
further than 16 bits say. -/
def Defined (script : Script) (r : Routine) (spot : Spot) : Operand → Prop
  | .byte _ => True
  | .var name => name ∈ r.parameters ++ r.locals ∧ r.slotNames.idxOf name ≤ 0xFFFF ∧
      (0xFF < r.slotNames.idxOf name → spot.wide = true)
  | .label name => name ∈ r.labelNames ∧
      -0x8000 ≤ script.value r spot.offset (.label name) ∧
      script.value r spot.offset (.label name) < 0x8000
  | .constant name => name ∈ script.constants.map Prod.fst
  | .method name => name ∈ script.names

structure Routine.WellFormed (script : Script) (r : Routine) : Prop where
  variableNames : ∀ name ∈ r.parameters ++ r.locals, Source.isIdentifier name = true
  distinct : (r.parameters ++ r.locals).Nodup
  labels : ∀ name ∈ r.labelNames, Source.isIdentifier name = true
  distinctLabels : r.labelNames.Nodup
  operations : ∀ st ∈ r.statements, st.operation ∈ InstructionSet.standardOperations ∧
    st.operands.map Operand.kind = st.operation.operands
  defined : ∀ spot ∈ r.spots, ∀ operand ∈ spot.statement.operands, Defined script r spot operand
  settled : ∀ st ∈ r.statements.getLast?, st.operation.widens = false

/-- The names are identifiers and distinct where they must be, and every reference has something to
refer to. -/
structure WellFormed (script : Script) : Prop where
  names : ∀ name ∈ script.names, Source.isIdentifier name = true
  distinct : script.names.Nodup
  routines : ∀ r ∈ script.entry :: script.methods, r.WellFormed script

instance decidableDefined (script : Script) (r : Routine) (spot : Spot) :
    (operand : Operand) → Decidable (Defined script r spot operand)
  | .byte _ => inferInstanceAs (Decidable True)
  | .var _ => inferInstanceAs (Decidable (_ ∧ _ ∧ _))
  | .label _ => inferInstanceAs (Decidable (_ ∧ _ ∧ _))
  | .constant _ => inferInstanceAs (Decidable (_ ∈ _))
  | .method _ => inferInstanceAs (Decidable (_ ∈ _))

instance decidableRoutine (script : Script) (r : Routine) : Decidable (r.WellFormed script) :=
  decidable_of_iff
    ((∀ name ∈ r.parameters ++ r.locals, Source.isIdentifier name = true) ∧
      (r.parameters ++ r.locals).Nodup ∧
      (∀ name ∈ r.labelNames, Source.isIdentifier name = true) ∧ r.labelNames.Nodup ∧
      (∀ st ∈ r.statements, st.operation ∈ InstructionSet.standardOperations ∧
        st.operands.map Operand.kind = st.operation.operands) ∧
      (∀ spot ∈ r.spots, ∀ operand ∈ spot.statement.operands, Defined script r spot operand) ∧
      ∀ st ∈ r.statements.getLast?, st.operation.widens = false)
    ⟨fun ⟨variableNames, distinct, labels, distinctLabels, operations, defined, settled⟩ =>
        ⟨variableNames, distinct, labels, distinctLabels, operations, defined, settled⟩,
      fun ⟨variableNames, distinct, labels, distinctLabels, operations, defined, settled⟩ =>
        ⟨variableNames, distinct, labels, distinctLabels, operations, defined, settled⟩⟩

instance decidableWellFormed (script : Script) : Decidable script.WellFormed :=
  decidable_of_iff
    ((∀ name ∈ script.names, Source.isIdentifier name = true) ∧ script.names.Nodup ∧
      ∀ r ∈ script.entry :: script.methods, r.WellFormed script)
    ⟨fun ⟨names, distinct, routines⟩ => ⟨names, distinct, routines⟩,
      fun ⟨names, distinct, routines⟩ => ⟨names, distinct, routines⟩⟩

end WellFormed

end Script

end IjvmAsm
