import IjvmAsm.Problem
import IjvmAsm.Program.Method

/-!
# Linking

The entry method comes first and the others follow in their order, each behind its header. Every
one of them gets a constant that holds its offset. Then labels become distances from the
instructions that jump, and methods become indices of constants.

A method whose name is taken stops the placing; then no method reference is resolved, but labels
are, as they do not depend on where methods are.
-/

namespace IjvmAsm

namespace Program

/-- What placing methods gives: the pool, the methods, what was noticed, and whether all of them
were placed. -/
structure Placement where
  pool : Array Constant
  methods : List Method
  events : List Event
  complete : Bool

/-- Places methods from an offset on, the first of which has that index among them. -/
def place (file : String) (index cursor : Nat) (pool : Array Constant) :
    List Method → Placement
  | [] => ⟨pool, [], [], true⟩
  | m :: rest =>
    match pool.find? fun c => c.name == m.name with
    | some taken =>
      ⟨pool, m :: rest, [(Problem.methodTaken m.name taken.line).event file m.line], false⟩
    | none =>
      let pool := pool.push ⟨m.name, Int32.ofNat cursor, m.line, .method⟩
      let more := place file (index + 1) (cursor + m.size + Image.headerSize) pool rest
      { more with
        methods := { m with offset := cursor } :: more.methods
        events :=
          .remark .info s!"Method #{index} line {m.line} placed at {cursor}" :: more.events }

def layout (file : String) (p : Program) : Placement :=
  let declared := p.constants.filter fun c => c.origin != .method
  match p.methods.toList with
  | [] => ⟨declared, [], [], false⟩
  | entry :: others =>
    let placement := place file 0 entry.size declared others
    { placement with methods := { entry with offset := 0 } :: placement.methods }

end Program

structure Scope where
  file : String
  /-- The constants, unless methods could not all be placed. -/
  pool : Option (Array Constant)
  method : Method

namespace Scope

def distance (s : Scope) (i : Instruction) (name : String) : Except Problem (Int × Event) :=
  match s.method.findLabel? name with
  | none => .error (.undefinedLabel s.method.name name)
  | some label =>
    let distance : Int := label.offset - i.offset
    if fitsSigned 16 distance then
      .ok (distance, .remark .debug (s!"[.{s.method.name}] Linking label, line {i.line}: " ++
        s!"@{i.offset} -> {name}@{label.offset}, offset = {distance}"))
    else .error (.jumpTooFar s.method.name name distance)

def methodIndex (s : Scope) (pool : Array Constant) (i : Instruction) (name : String) :
    Except Problem (Int × Event) :=
  match pool.findIdx? fun c => c.name == name with
  | none => .error (.undefinedMethod s.method.name name)
  | some index =>
    .ok (index,
      .remark .debug s!"[.{s.method.name}] Linking method, line {i.line}: {name} -> {index}")

/-- A reference replaced by its value, or left with what is wrong with it. -/
def settle (s : Scope) (i : Instruction) (reference : Reference) :
    Except Problem (Int × Event) → Argument × Option Event
  | .ok (value, event) => (.resolved value, some event)
  | .error problem => (.pending reference, some (problem.event s.file i.line))

def resolve (s : Scope) (i : Instruction) : Argument → Argument × Option Event
  | .resolved value => (.resolved value, none)
  | .pending (.label name) => s.settle i (.label name) (s.distance i name)
  | .pending (.method name) =>
    match s.pool with
    | none => (.pending (.method name), none)
    | some pool => s.settle i (.method name) (s.methodIndex pool i name)

def resolveInstruction (s : Scope) (i : Instruction) : Instruction × List Event :=
  let results := i.arguments.map (s.resolve i)
  ({ i with arguments := results.map Prod.fst }, results.filterMap Prod.snd)

def resolveMethod (s : Scope) : Method × List Event :=
  let results := s.method.instructions.map s.resolveInstruction
  ({ s.method with instructions := results.map Prod.fst }, results.toList.flatMap Prod.snd)

end Scope

def Program.link (file : String) (p : Program) : Program × Journal :=
  match p.entry? with
  | none => (p, #[Problem.noMain.event file 0])
  | some _ =>
    let placement := p.layout file
    let pool := if placement.complete then some placement.pool else none
    let results := placement.methods.map fun method => Scope.resolveMethod ⟨file, pool, method⟩
    (⟨placement.pool, (results.map Prod.fst).toArray⟩,
      (placement.events ++ results.flatMap Prod.snd).toArray)

end IjvmAsm
