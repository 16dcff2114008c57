import ShotTiming.Fault
import ShotTiming.Shot.Basic

/-!
# Building a shot

An operation of this module checks what it asks for and then writes to the shot, one list or link after
another.
-/
namespace ShotTiming

/-- Checks the values that the equipment of a device is made with. -/
def Equipment.check (owner : String) (e : Equipment) : Except UseFault Unit := do
  let atLeastZero (p : Parameter) (x : Float) : Except UseFault Unit :=
    if 0 ≤ x then .ok () else .error (.parameter owner p x)
  match e with
  | triggerableDevice m | pseudoclockDevice m => atLeastZero .minimumTrigger m
  | clockableDevice m p =>
    atLeastZero .minimumTrigger m
    atLeastZero .minimumPeriod p
  | pseudoclock s =>
    if !(0 < s.timebase) then throw (.parameter owner .timebase s.timebase)
    atLeastZero .minimumWait s.minimumWait
    atLeastZero .minimumPeriod s.minimumPeriod
  | _ => pure ()

/-- A device that is asked for. -/
structure DeviceDraft where
  name : String
  connection : String := ""
  equipment : Equipment
  hooks : Hooks := {}
  deriving Inhabited

/-- The device that a draft asks for, if its values can be used. It belongs to no shot yet. -/
def DeviceDraft.make (d : DeviceDraft) : Except UseFault Device := do
  d.equipment.check d.name
  pure { name := d.name, connection := d.connection, equipment := d.equipment, hooks := d.hooks }

/-- An instruction that is asked for; a ramp may lack its curve. -/
inductive InstructionDraft
  | wait (time : Float) (name : String)
  | function (time duration : Float) (curve : Option Curve) (sampleRate : Float)
  | constant (time value : Float)
  | static (value : Float)

/-- The instruction that a draft asks for, if its values can be used. -/
def InstructionDraft.make : InstructionDraft → Except UseFault Instruction
  | wait time name => .ok { time, action := .wait name }
  | function time duration curve rate =>
    match curve with
    | none => .error .noCurve
    | some c =>
      if 0 ≤ rate then .ok { time, action := .function duration c rate }
      else .error (.sampleRate rate)
  | constant time value => .ok { time, action := .constant value }
  | static value => .ok { time := 0, action := .static value }

namespace Device

/-- Sets the delay of the outputs, which has to be at least 0. -/
def setOutputDelay (d : Device) (title : String) (x : Float) : Except UseFault Device :=
  if 0 ≤ x then .ok { d with outputDelay := x } else .error (.parameter title .outputDelay x)

/-- Sets the time of the first trigger, which has to be at least 0. -/
def setInitialTrigger (d : Device) (title : String) (x : Float) : Except UseFault Device :=
  if 0 ≤ x then .ok { d with initialTrigger := x }
  else .error (.parameter title .initialTrigger x)

end Device

namespace Shot

def checkPhaseAs (s : Shot) (subject : Shot → Subject) (o : Operation) : Except Fault Unit :=
  if s.calls.allows o then .ok () else .error (.call (.wrongPhase (subject s) o s.phase))

/-- Refuses an operation outside its phase. -/
def checkPhase (s : Shot) (n : Node) (o : Operation) : Except Fault Unit :=
  s.checkPhaseAs (·.subject n) o

/-- The clock that reaches the children of a host. -/
def clockBelow (s : Shot) : Host → Option Nat
  | .shot => none
  | .device id => (s.device? id).bind (·.clock)

/-- Enters a node into the list of its host. -/
def listDevice (s : Shot) (h : Host) (id : Nat) : Shot :=
  match h with
  | .shot => { s with children := s.children.push id }
  | .device p => s.setDevice p fun d => { d with children := d.children.push id }

def listInstruction (s : Shot) (h : Host) (id : Nat) : Shot :=
  match h with
  | .shot => { s with ownInstructions := s.ownInstructions.push id }
  | .device p => s.setDevice p fun d => { d with instructions := d.instructions.push id }

end Shot

/-- A change of a shot that keeps what it did before it failed. -/
abbrev Build := EStateM Fault Shot

namespace Build

/-- Passes a check of the shot on as a step without effects. -/
def check (f : Shot → Except Fault Unit) : Build Unit := do
  match f (← get) with
  | .ok () => pure ()
  | .error e => throw e

/-- Inserts a device as the last child of a host that accepts it. -/
def addDevice (h : Host) (d : Device) (site : Site) : Build Unit := do
  check (·.checkPhase h.node .addDevice)
  let s ← get
  let accepted := s.acceptedDevices h
  if !accepted.contains d.kind then
    throw (.structural (.deviceNotAccepted (s.subject h.node) d.kind d.name site accepted))
  if h = .shot ∧ d.kind = .pseudoclockDevice then
    if let some id := s.master then
      let node := Node.device id
      throw (.structural (.duplicateMaster node.ref (s.nameOf node) d.name))
  let id := s.devices.size
  if deviceCapacity ≤ id then throw (.use .full)
  let clock := if d.kind = .pseudoclock then some id else s.clockBelow h
  if h = .shot ∧ d.kind = .pseudoclockDevice then
    modify ({ · with master := some id })
  modify fun s => { s with devices := s.devices.push { d with site, parent := some h, clock } }
  modify (·.listDevice h id)

/-- Appends an instruction to a host that accepts it. Below a device everything but a static value
needs a clock. The arena has to have room for the instruction, and for some more to follow. -/
def addInstruction (h : Host) (i : Instruction) (site : Site) (more : Nat) : Build Unit := do
  check (·.checkPhase h.node .addInstruction)
  let s ← get
  let accepted := s.acceptedInstructions h
  if !accepted.contains i.kind then
    throw (.structural (.instructionNotAccepted (s.subject h.node) i.kind site accepted))
  let clock := s.clockBelow h
  if h ≠ .shot ∧ clock = none ∧ i.kind ≠ .static then
    throw (.structural (.noClock (s.subject h.node) i.kind site))
  let id := s.instructions.size
  if arenaCapacity ≤ id + more then throw (.use .full)
  modify fun s => { s with instructions := s.instructions.push { i with site, owner := some h, clock } }
  modify (·.listInstruction h id)

/-- A high pulse on a trigger: 1 at a time, and 0 at the end of the pulse. -/
def addPulse (id : Nat) (time duration : Float) (site : Site) : Build Unit := do
  addInstruction (.device id) { time, action := .constant 1 } site 1
  addInstruction (.device id) { time := time + duration, action := .constant 0 } site 0

/-- Changes a device while devices may still be configured. -/
def configure (id : Nat) (change : Device → String → Except UseFault Device) : Build Unit := do
  check (·.checkPhase (.device id) .configure)
  let s ← get
  match s.device? id with
  | none => throw (.use .noSuchNode)
  | some d =>
    match change d (s.deviceTitle d) with
    | .ok d' => modify (·.setDevice id fun _ => d')
    | .error f => throw (.use f)

end Build

end ShotTiming
