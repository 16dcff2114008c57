import ShotTiming.Kind
import ShotTiming.Node
import ShotTiming.Number.Decimal

/-!
# Devices

A device has the fields of every device and those of its own equipment. A user may replace parts of
its behaviour by hooks.
-/
namespace ShotTiming
open Number (significant)

/-- A clock source that ticks on a grid of its timebase. -/
structure ClockSource where
  timebase : Float
  /-- Time after a wait before the clock responds to a trigger. -/
  minimumWait : Float
  minimumPeriod : Float
  deriving DecidableEq, Inhabited

/-- The fields that depend on the kind. -/
inductive Equipment
  | device
  | staticDevice
  | triggerableDevice (minimumTrigger : Float)
  | clockableDevice (minimumTrigger minimumPeriod : Float)
  | clockLine
  | pseudoclock (source : ClockSource)
  | pseudoclockDevice (minimumTrigger : Float)
  | output
  | trigger
  | staticOutput
  deriving DecidableEq, Inhabited

namespace Equipment

def kind : Equipment → DeviceKind
  | device => .device
  | staticDevice => .staticDevice
  | triggerableDevice _ => .triggerableDevice
  | clockableDevice .. => .clockableDevice
  | clockLine => .clockLine
  | pseudoclock _ => .pseudoclock
  | pseudoclockDevice _ => .pseudoclockDevice
  | output => .output
  | trigger => .trigger
  | staticOutput => .staticOutput

/-- The shortest pulse that triggers the device, if it can be triggered. -/
def minimumTrigger? : Equipment → Option Float
  | triggerableDevice m | clockableDevice m _ | pseudoclockDevice m => some m
  | _ => none

/-- The shortest interval between two ticks that the device or its clock allows. -/
def minimumPeriod? : Equipment → Option Float
  | clockableDevice _ m => some m
  | pseudoclock s => some s.minimumPeriod
  | _ => none

def source? : Equipment → Option ClockSource
  | pseudoclock s => some s
  | _ => none

/-- What the printed form adds to the fields of every device. -/
def fields : Equipment → String
  | triggerableDevice m | pseudoclockDevice m => ", minimum_trigger_duration=" ++ significant m
  | clockableDevice m p =>
    ", minimum_trigger_duration=" ++ significant m ++ ", minimum_period=" ++ significant p
  | pseudoclock s =>
    ", timebase=" ++ significant s.timebase ++ ", minimum_wait_duration=" ++
      significant s.minimumWait ++
      (if 0 < s.minimumPeriod then ", minimum_period=" ++ significant s.minimumPeriod else "")
  | _ => ""

end Equipment

/-- What a hook does with a pass over a device: leave it as it is, drop it with everything below the
device, or make it and then visit the children once more. Hooks are not reentrant: while a pass runs, a
hook asks nothing of the shot but that pass on the children. -/
inductive PassHook
  | standard | skip | twice
  deriving DecidableEq, Repr, Inhabited

/-- The parts of a device that its user has replaced. -/
structure Hooks where
  limits : PassHook := .standard
  attributes : PassHook := .standard
  check : PassHook := .standard
  /-- Output delays for the children of certain names. -/
  childDelays : List (String × Float) := []
  /-- What the device accepts in place of what its kind does. -/
  acceptsDevices : Option (KindSet DeviceKind) := none
  acceptsInstructions : Option (KindSet InstructionKind) := none
  deriving Inhabited

/-- What a clock line, a pseudoclock or a trigger has to respect for the devices below it. -/
structure Limits where
  period : Float := 0
  periodTicks : Int := 0
  /-- The device that sets the period. -/
  periodLimiter : Option Nat := none
  triggerDuration : Float := 0
  /-- The device that sets the trigger duration. -/
  triggerLimiter : Option Nat := none
  deriving DecidableEq, Inhabited

structure Device where
  name : String
  connection : String := ""
  equipment : Equipment
  hooks : Hooks := {}
  site : Site := {}
  /-- Delay between a trigger or clock tick and the outputs. -/
  outputDelay : Float := 0
  /-- Time at which the parent triggers a pseudoclock device. -/
  initialTrigger : Float := 0
  parent : Option Host := none
  /-- The pseudoclock whose ticks reach the device. -/
  clock : Option Nat := none
  children : Array Nat := #[]
  instructions : Array Nat := #[]
  /-- When the device starts, counted from the start of the shot. -/
  start : Float := 0
  latency : Float := 0
  limits : Limits := {}
  deriving Inhabited

namespace Device

def kind (d : Device) : DeviceKind := d.equipment.kind

/-- The kinds of device that may stand directly below this one. -/
def acceptedDevices (d : Device) : KindSet DeviceKind :=
  d.hooks.acceptsDevices.getD d.kind.acceptedDevices

/-- The kinds of instruction that the device takes, of which only an output can have a set of its
own. -/
def acceptedInstructions (d : Device) : KindSet InstructionKind :=
  (d.hooks.acceptsInstructions.filter fun _ => d.kind.isOutput).getD d.kind.acceptedInstructions

/-- The delay to a child, which may depend on its name. -/
def delayTo (d child : Device) : Float := (d.hooks.childDelays.lookup child.name).getD d.outputDelay

/-- The printed form, given the name of the parent. -/
def titleUnder (d : Device) (parent : String) : String :=
  Named.name d.kind ++ "(name=" ++ d.name ++ ", parent=" ++ parent ++ ", connection=" ++
    d.connection ++ d.equipment.fields ++ ")"

end Device

/-- What stands in the printed form of a node in place of a parent it does not have. -/
def noParent : String := "<none>"

end ShotTiming
