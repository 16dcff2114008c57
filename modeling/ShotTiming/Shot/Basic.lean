import ShotTiming.Calls
import ShotTiming.Device
import ShotTiming.Forest
import ShotTiming.Instruction
import ShotTiming.Settings
import ShotTiming.Violation

/-!
# Shots

A shot owns the devices and instructions of one compilation. Nodes refer to each other by their
position in the two arenas; a reference that points past an arena finds nothing.
-/
namespace ShotTiming

structure Shot where
  name : String
  settings : Settings := {}
  site : Site := {}
  calls : Calls := {}
  devices : Array Device := #[]
  instructions : Array Instruction := #[]
  /-- The devices directly below the shot. -/
  children : Array Nat := #[]
  /-- The instructions of the shot itself, which are its waits. -/
  ownInstructions : Array Nat := #[]
  /-- The pseudoclock device directly below the shot. -/
  master : Option Nat := none
  /-- The longest time that a clock needs after a wait. -/
  waitDelay : Float := 0
  stopTime : Float := 1 / 0
  /-- The waits by time, once the timing is converted. -/
  waits : Array Nat := #[]
  report : Report := {}
  deriving Inhabited

namespace Shot

/-- A shot without devices, if its settings are in range. -/
def new? (name : String) (settings : Settings) (site : Site) : Except SettingsFault Shot := do
  settings.check
  pure { name, settings, site }

def phase (s : Shot) : Phase := s.calls.phase

def device? (s : Shot) (id : Nat) : Option Device := s.devices[id]?

def instruction? (s : Shot) (id : Nat) : Option Instruction := s.instructions[id]?

def setDevice (s : Shot) (id : Nat) (f : Device → Device) : Shot :=
  { s with devices := s.devices.modify id f }

def setInstruction (s : Shot) (id : Nat) (f : Instruction → Instruction) : Shot :=
  { s with instructions := s.instructions.modify id f }

/-- The shot, its devices and its instructions, each in order. -/
def nodes (s : Shot) : List Node :=
  .shot :: ((List.range s.devices.size).map .device ++
    (List.range s.instructions.size).map .instruction)

/-! ## Hosts -/

def childrenOf (s : Shot) : Host → List Nat
  | .shot => s.children.toList
  | .device id => (s.device? id).elim [] (·.children.toList)

def instructionsOf (s : Shot) : Host → List Nat
  | .shot => s.ownInstructions.toList
  | .device id => (s.device? id).elim [] (·.instructions.toList)

def acceptedDevices (s : Shot) : Host → KindSet DeviceKind
  | .shot => rootDevices
  | .device id => (s.device? id).elim .empty (·.acceptedDevices)

def acceptedInstructions (s : Shot) : Host → KindSet InstructionKind
  | .shot => rootInstructions
  | .device id => (s.device? id).elim .empty (·.acceptedInstructions)

/-! ## Clocks -/

def source? (s : Shot) (clock : Option Nat) : Option ClockSource :=
  clock.bind fun id => (s.device? id).bind (·.equipment.source?)

/-- The first pseudoclock of the master, which times the waits. -/
def masterClock (s : Shot) : Option Nat :=
  s.master.bind fun id => (s.childrenOf (.device id)).head?

/-- The timebase of a clock; 0 stands for no clock. -/
def timebaseOf (s : Shot) (clock : Option Nat) : Float := (s.source? clock).elim 0 (·.timebase)

/-- The timebase that an instruction is placed on. -/
def timebase (s : Shot) (i : Instruction) : Float :=
  match i.action with
  | .wait _ => s.timebaseOf s.masterClock
  | .static _ => 0
  | _ => s.timebaseOf i.clock

/-- The grid that an instruction is placed on. -/
def grid (s : Shot) (i : Instruction) : Grid :=
  ⟨s.timebase i, s.settings.rounding, s.settings.tolerance⟩

/-- Time from a wait to the start of the next segment. -/
def deadTime (s : Shot) : Float := s.waitDelay + s.settings.epsilon

/-! ## Printed forms -/

def title (s : Shot) : String := "Shot(name=" ++ s.name ++ ")"

def hostName (s : Shot) : Option Host → String
  | none => noParent
  | some .shot => s.name
  | some (.device id) => (s.device? id).elim noParent (·.name)

def deviceTitle (s : Shot) (d : Device) : String := d.titleUnder (s.hostName d.parent)

def instructionTitle (s : Shot) (i : Instruction) : String := i.titleUnder (s.hostName i.owner)

def subject (s : Shot) (n : Node) : Subject :=
  match n with
  | .shot => ⟨n.ref, s.title, s.site⟩
  | .device id => (s.device? id).elim default fun d => ⟨n.ref, s.deviceTitle d, d.site⟩
  | .instruction id =>
    (s.instruction? id).elim default fun i => ⟨n.ref, s.instructionTitle i, i.site⟩

/-- The name of a shot or device, the printed form of an instruction. -/
def nameOf (s : Shot) : Node → String
  | .shot => s.name
  | .device id => (s.device? id).elim noParent (·.name)
  | .instruction id => (s.subject (.instruction id)).title

end Shot

end ShotTiming
