import ShotTiming.Named

/-!
# Kinds of devices and instructions, and which may stand below which
-/
namespace ShotTiming

inductive DeviceKind
  | device | staticDevice | triggerableDevice | clockableDevice | clockLine | pseudoclock
  | pseudoclockDevice | output | trigger | staticOutput
  deriving DecidableEq, Repr

inductive InstructionKind
  | wait | function | constant | static
  deriving DecidableEq, Repr

instance : Named DeviceKind where
  all := [.device, .staticDevice, .triggerableDevice, .clockableDevice, .clockLine, .pseudoclock,
    .pseudoclockDevice, .output, .trigger, .staticOutput]
  name
    | .device => "Device"
    | .staticDevice => "StaticDevice"
    | .triggerableDevice => "TriggerableDevice"
    | .clockableDevice => "ClockableDevice"
    | .clockLine => "ClockLine"
    | .pseudoclock => "Pseudoclock"
    | .pseudoclockDevice => "PseudoclockDevice"
    | .output => "Output"
    | .trigger => "Trigger"
    | .staticOutput => "StaticOutput"
  mem_all a := by cases a <;> decide

instance : Named InstructionKind where
  all := [.wait, .function, .constant, .static]
  name
    | .wait => "Wait"
    | .function => "Function"
    | .constant => "Constant"
    | .static => "Static"
  mem_all a := by cases a <;> decide

/-- A set of kinds, given by its members. -/
structure KindSet (κ : Type) where
  contains : κ → Bool

namespace KindSet

variable {κ : Type}

def ofList [DecidableEq κ] (ks : List κ) : KindSet κ := ⟨(ks.contains ·)⟩

def full : KindSet κ := ⟨fun _ => true⟩

def empty : KindSet κ := ⟨fun _ => false⟩

def union (a b : KindSet κ) : KindSet κ := ⟨fun k => a.contains k || b.contains k⟩

def minus (a b : KindSet κ) : KindSet κ := ⟨fun k => a.contains k && !b.contains k⟩

variable [Named κ]

/-- The members, in the order of the kinds. -/
def toList (a : KindSet κ) : List κ := Named.all.filter a.contains

def isEmpty (a : KindSet κ) : Bool := a.toList.isEmpty

def equals (a b : KindSet κ) : Bool := Named.all.all fun k : κ => a.contains k == b.contains k

/-- The names of the members, or a word for none. -/
def names (a : KindSet κ) : String :=
  if a.isEmpty then "nothing" else String.intercalate ", " (a.toList.map Named.name)

end KindSet

namespace DeviceKind

/-- What carries instructions. -/
def isOutput : DeviceKind → Bool
  | output | trigger | staticOutput => true
  | _ => false

/-- What can receive a trigger pulse. -/
def isTriggerable : DeviceKind → Bool
  | triggerableDevice | clockableDevice | pseudoclockDevice => true
  | _ => false

/-- Everything but clock lines and pseudoclocks, which belong under their own clock source. -/
def general : KindSet DeviceKind := KindSet.full.minus (.ofList [clockLine, pseudoclock])

/-- The kinds of device that may stand directly below a device of a kind. -/
def acceptedDevices : DeviceKind → KindSet DeviceKind
  | device | triggerableDevice | clockableDevice | output => general
  | staticDevice => .ofList [staticOutput]
  | clockLine => .ofList [clockableDevice]
  | pseudoclock => .ofList [clockLine]
  | pseudoclockDevice => .ofList [pseudoclock]
  | trigger => ⟨isTriggerable⟩
  | staticOutput => .empty

/-- The kinds of instruction that a device of a kind takes. -/
def acceptedInstructions : DeviceKind → KindSet InstructionKind
  | output => .ofList [.function, .constant]
  | trigger => .ofList [.constant]
  | staticOutput => .ofList [.static]
  | _ => .empty

end DeviceKind

/-- The kinds of device that may stand directly below the shot. -/
def rootDevices : KindSet DeviceKind := .ofList [.pseudoclockDevice, .staticDevice]

/-- The kinds of instruction that the shot itself takes. -/
def rootInstructions : KindSet InstructionKind := .ofList [.wait]

/-- Whether instructions of the kind have a time to place on a grid of their clock. -/
def InstructionKind.isTimed : InstructionKind → Bool
  | function | constant => true
  | _ => false

end ShotTiming
