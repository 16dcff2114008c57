import ShotTiming.Kind
import ShotTiming.Phase
import ShotTiming.Settings
import ShotTiming.Violation

/-!
# What can go wrong

Faults are told apart by cause. The wording is in one place for each family, and so are the nodes a
fault names and its code within the family.
-/
namespace ShotTiming
open Number (significant places)

/-- A value that belongs to a node and has a lower bound. -/
inductive Parameter
  | minimumTrigger | minimumPeriod | timebase | minimumWait | outputDelay | initialTrigger
  deriving DecidableEq, Repr

def Parameter.words : Parameter → String
  | minimumTrigger => "minimum trigger duration"
  | minimumPeriod => "minimum period"
  | timebase => "timebase"
  | minimumWait => "minimum wait duration"
  | outputDelay => "output delay"
  | initialTrigger => "initial trigger time"

/-- A value that cannot be used, or a use that has no meaning. -/
inductive UseFault
  | parameter (owner : String) (p : Parameter) (value : Float)
  | noCurve
  | sampleRate (value : Float)
  | unattached (title : String)
  | emptyReference
  | noSuchNode
  | full
  deriving DecidableEq

def UseFault.message : UseFault → String
  | parameter owner p value => owner ++ ": invalid " ++ p.words ++ " " ++ places value
  | noCurve => "Function instruction requires a function."
  | sampleRate value => "Invalid sample rate " ++ places value
  | unattached title => title ++ " must be added to a shot first."
  | emptyReference => "Invalid node reference."
  | noSuchNode => "No such node."
  | full => "No room for another node."

/-- A tree or an instruction list that is not allowed. -/
inductive StructuralFault
  | deviceNotAccepted (parent : Subject) (kind : DeviceKind) (name : String) (site : Site)
      (accepted : KindSet DeviceKind)
  | instructionNotAccepted (owner : Subject) (kind : InstructionKind) (site : Site)
      (accepted : KindSet InstructionKind)
  | duplicateMaster (master : NodeRef) (masterName name : String)
  | duplicateWait (first second : Subject)
  | noClock (owner : Subject) (kind : InstructionKind) (site : Site)
  | foreignNode (node : Subject) (shot : String)
  | stopBeforeEnd (time : Float) (shot : String) (instruction : Subject)

namespace StructuralFault

def code : StructuralFault → Nat
  | deviceNotAccepted .. => 0
  | instructionNotAccepted .. => 1
  | duplicateMaster .. => 2
  | duplicateWait .. => 3
  | noClock .. => 4
  | foreignNode .. => 5
  | stopBeforeEnd .. => 6

/-- The node at fault. -/
def node : StructuralFault → NodeRef
  | deviceNotAccepted parent .. => parent.ref
  | instructionNotAccepted owner .. => owner.ref
  | duplicateMaster master .. => master
  | duplicateWait first _ => first.ref
  | noClock owner .. => owner.ref
  | foreignNode node _ => node.ref
  | stopBeforeEnd _ _ instruction => instruction.ref

/-- The other node, where two of them clash. -/
def otherNode : StructuralFault → NodeRef
  | duplicateWait _ second => second.ref
  | _ => {}

def message : StructuralFault → String
  | deviceNotAccepted parent kind name site accepted =>
    "Device of kind " ++ Named.name kind ++ " (" ++ name ++ ", created at " ++ site.text ++
      ") not permitted as child of " ++ parent.describe ++ " (accepts " ++ accepted.names ++ ")"
  | instructionNotAccepted owner kind site accepted =>
    "Instruction of kind " ++ Named.name kind ++ " (created at " ++ site.text ++
      ") not permitted on " ++ owner.describe ++ " (accepts " ++ accepted.names ++ ")"
  | duplicateMaster _ masterName name =>
    "Cannot add second master pseudoclock device '" ++ name ++
      "'. Already have master pseudoclock device '" ++ masterName ++ "'"
  | duplicateWait first second =>
    "Waits " ++ first.describe ++ " and " ++ second.describe ++ " are at the same time"
  | noClock owner kind site =>
    "Instruction of kind " ++ Named.name kind ++ " (created at " ++ site.text ++ ") on " ++
      owner.describe ++ " which has no pseudoclock"
  | foreignNode node shot => node.describe ++ " does not belong to " ++ shot
  | stopBeforeEnd time shot instruction =>
    "Stop time " ++ significant time ++ " of " ++ shot ++ " is before " ++ instruction.describe

end StructuralFault

/-- A call out of turn. -/
inductive CallFault
  | wrongPhase (subject : Subject) (operation : Operation) (current : Phase)
  | pastLast (subject : Subject) (current : Phase)
  | repeated (subject : Subject) (operation : Operation) (current : Phase)
  | missing (subject : Subject) (operation : Operation) (current : Phase)
  deriving DecidableEq

namespace CallFault

def code : CallFault → Nat
  | wrongPhase .. | pastLast .. => 0
  | repeated .. => 1
  | missing .. => 2

def node : CallFault → NodeRef
  | wrongPhase s .. | pastLast s _ | repeated s .. | missing s .. => s.ref

def message : CallFault → String
  | wrongPhase s o current =>
    s.describe ++ "." ++ o.name ++ "() cannot be called in phase " ++ current.name ++
      " (only in " ++ o.phase.name ++ ")"
  | pastLast s current => s.describe ++ " cannot advance past the last phase " ++ current.name
  | repeated s o current =>
    s.describe ++ " has already had " ++ o.name ++ "() called once in phase " ++ current.name
  | missing s o current =>
    s.describe ++ " has not had " ++ o.name ++ "() called by the end of phase " ++ current.name

end CallFault

/-- The fields of an instruction that are placed on a grid. -/
inductive Quantity
  | time | duration | samplePeriod
  deriving DecidableEq, Repr

namespace Quantity

def code : Quantity → Nat
  | time => 0
  | duration => 1
  | samplePeriod => 2

def words : Quantity → String
  | time => "time"
  | duration => "duration"
  | samplePeriod => "sample period"

end Quantity

/-- A field of an instruction that has no tick. -/
structure Misplaced where
  subject : Subject
  quantity : Quantity
  value : Float
  grid : Grid
  miss : Miss

def Misplaced.message (m : Misplaced) : String :=
  let what := m.subject.describe ++ ": " ++ m.quantity.words ++ " " ++ significant m.value
  let timebase := significant m.grid.timebase
  match m.miss with
  | .outOfRange => what ++ " is out of range for the timebase " ++ timebase
  | .off error =>
    what ++ " is not a multiple of the timebase " ++ timebase ++ " (off by " ++
      significant error ++ " of a tick, tolerance " ++ significant m.grid.tolerance ++ ")"

/-- One misplaced field, or all of them. -/
inductive QuantisationFault
  | single (m : Misplaced)
  | batch (first : Misplaced) (others : List Misplaced)

namespace QuantisationFault

def code : QuantisationFault → Nat
  | single m => m.quantity.code
  | batch .. => 3

def node : QuantisationFault → NodeRef
  | single m => m.subject.ref
  | batch first _ => first.subject.ref

def message : QuantisationFault → String
  | single m => m.message
  | batch first others =>
    let all := first :: others
    toString all.length ++ " instruction(s) cannot be quantised:" ++
      String.join (all.map fun m => "\n  " ++ m.message)

end QuantisationFault

inductive Fault
  | use (f : UseFault)
  | settings (f : SettingsFault)
  | structural (f : StructuralFault)
  | call (f : CallFault)
  | quantisation (f : QuantisationFault)
  | invalid (report : Report)

/-- The families of faults that carry a code and name nodes. -/
inductive Category
  | structural | call | quantisation | validation
  deriving DecidableEq, Repr

namespace Fault

def category? : Fault → Option Category
  | use _ | settings _ => none
  | structural _ => some .structural
  | call _ => some .call
  | quantisation _ => some .quantisation
  | invalid _ => some .validation

/-- The code within the family. A report counts its violations in 16 bits. -/
def code : Fault → Nat
  | use _ | settings _ => 0
  | structural f => f.code
  | call f => f.code
  | quantisation f => f.code
  | invalid report => (UInt16.ofNat report.size).toNat

/-- The node at fault; of a report, that of the first violation. -/
def node : Fault → NodeRef
  | use _ | settings _ => {}
  | structural f => f.node
  | call f => f.node
  | quantisation f => f.node
  | invalid report => report.violations[0]?.elim {} (·.node)

def otherNode : Fault → NodeRef
  | structural f => f.otherNode
  | _ => {}

def report? : Fault → Option Report
  | invalid report => some report
  | _ => none

def message : Fault → String
  | use f => f.message
  | settings f => f.message
  | structural f => f.message
  | call f => f.message
  | quantisation f => f.message
  | invalid report => report.text

end Fault

end ShotTiming
