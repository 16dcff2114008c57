import ShotTiming.Compile.Run
import ShotTiming.Listing

/-!
# Sessions

A session holds several shots, the nodes that belong to none yet, a report of its own and the log.
Everything that changes a shot is a command of a session.
-/
namespace ShotTiming

/-- Where a node is kept. A node that belongs to no shot is loose. -/
inductive Place
  | shot (shot : Nat)
  | device (shot id : Nat)
  | instruction (shot id : Nat)
  | looseDevice (n : Nat)
  | looseInstruction (n : Nat)
  deriving DecidableEq, Repr, Inhabited

structure Session where
  shots : Array Shot := #[]
  /-- The loose nodes; one that was attached or lost leaves a gap. -/
  looseDevices : Array (Option Device) := #[]
  looseInstructions : Array (Option Instruction) := #[]
  /-- A report that is filled by hand and by validating single devices. -/
  report : Report := {}
  threshold : Level := .info
  /-- The messages that passed the threshold. -/
  log : Array Message := #[]
  deriving Inhabited

namespace Session

def shot? (s : Session) (k : Nat) : Option Shot := s.shots[k]?

def device? (s : Session) : Place → Option Device
  | .device k id => (s.shot? k).bind (·.device? id)
  | .looseDevice n => (s.looseDevices[n]?).join
  | _ => none

def instruction? (s : Session) : Place → Option Instruction
  | .instruction k id => (s.shot? k).bind (·.instruction? id)
  | .looseInstruction n => (s.looseInstructions[n]?).join
  | _ => none

/-- What messages say about a node. A loose node has no reference, parent or site. -/
def subject? (s : Session) (p : Place) : Option Subject :=
  match p with
  | .shot k => (s.shot? k).map (·.subject .shot)
  | .device k id => (s.shot? k).map (·.subject (.device id))
  | .instruction k id => (s.shot? k).map (·.subject (.instruction id))
  | .looseDevice _ => (s.device? p).map fun d => ⟨{}, d.titleUnder noParent, d.site⟩
  | .looseInstruction _ => (s.instruction? p).map fun i => ⟨{}, i.titleUnder noParent, i.site⟩

/-- Takes over what a step did to a shot, and the messages that pass the threshold. -/
def absorb (s : Session) (k : Nat) (p : Progress) : Session :=
  { s with
    shots := s.shots.setIfInBounds k p.shot
    log := s.log ++ p.messages.filter (s.threshold.admits ·.level) }

/-- Exchanges the report of a shot for that of the session. -/
def swapReports (s : Session) (k : Nat) : Session :=
  match s.shot? k with
  | none => s
  | some shot =>
    { s with report := shot.report, shots := s.shots.setIfInBounds k { shot with report := s.report } }

end Session

/-- A change of a session that keeps what it did before it failed. -/
abbrev Act := EStateM Fault Session

namespace Act

def found {α : Type} : Option α → Act α
  | some a => pure a
  | none => throw (.use .noSuchNode)

def shot (k : Nat) : Act Shot := do found ((← get).shot? k)

def subject (p : Place) : Act Subject := do found ((← get).subject? p)

def usable {α : Type} : Except UseFault α → Act α
  | .ok a => pure a
  | .error f => throw (.use f)

/-- Takes a step on a shot. -/
def onShot {α : Type} (k : Nat) (step : Compile α) : Act α := do
  let shot ← shot k
  match step.run ⟨shot, #[]⟩ with
  | .ok a p => do
    modify (·.absorb k p)
    pure a
  | .error e p => do
    modify (·.absorb k p)
    throw e

/-- Takes over a shot as a step has left it. -/
def putShot (k : Nat) (shot : Shot) : Act Unit :=
  modify fun s => { s with shots := s.shots.setIfInBounds k shot }

/-- Takes a step that builds on a shot. -/
def build (k : Nat) (step : Build Unit) : Act Unit := do
  match step.run (← shot k) with
  | .ok () shot => putShot k shot
  | .error e shot => do
    putShot k shot
    throw e

/-- A host of a shot; a host from elsewhere is refused. -/
def hostIn (k : Nat) (p : Place) : Act Host := do
  let here ← shot k
  let foreign : Act Host := do throw (.structural (.foreignNode (← subject p) here.title))
  match p with
  | .shot j => if j = k then pure .shot else foreign
  | .device j id => if j = k then pure (.device id) else foreign
  | .looseDevice _ => foreign
  | _ => throw (.use .noSuchNode)

def addDevice (k : Nat) (parent : Place) (d : Device) (site : Site) : Act Place := do
  let id := (← shot k).devices.size
  let h ← hostIn k parent
  build k (Build.addDevice h d site)
  pure (.device k id)

def addInstruction (k : Nat) (owner : Place) (i : Instruction) (site : Site) : Act Place := do
  let id := (← shot k).instructions.size
  let h ← hostIn k owner
  build k (Build.addInstruction h i site 0)
  pure (.instruction k id)

/-- Places a loose device. It is no longer loose afterwards; if it cannot be placed, it is lost. -/
def attachDevice (k : Nat) (parent : Place) (n : Nat) (site : Site) : Act Place := do
  let d ← found ((← get).device? (.looseDevice n))
  try addDevice k parent d site
  finally modify fun s => { s with looseDevices := s.looseDevices.setIfInBounds n none }

/-- Places a loose instruction, likewise. -/
def attachInstruction (k : Nat) (owner : Place) (n : Nat) (site : Site) : Act Place := do
  let i ← found ((← get).instruction? (.looseInstruction n))
  try addInstruction k owner i site
  finally modify fun s => { s with looseInstructions := s.looseInstructions.setIfInBounds n none }

/-- The shot and number of a device, which has to belong to a shot. -/
def attached (p : Place) : Act (Nat × Nat) := do
  match p with
  | .device k id => pure (k, id)
  | .looseDevice _ => throw (.use (.unattached (← subject p).title))
  | _ => throw (.use .noSuchNode)

/-- Changes a device; once it belongs to a shot, only while devices may be configured. -/
def configure (p : Place) (change : Device → String → Except UseFault Device) : Act Unit := do
  match p with
  | .device k id => build k (Build.configure id change)
  | .looseDevice n => do
    let d ← found ((← get).device? p)
    let d ← usable (change d (d.titleUnder noParent))
    modify fun s => { s with looseDevices := s.looseDevices.setIfInBounds n (some d) }
  | _ => throw (.use .noSuchNode)

/-- Makes a pass over a shot or over a device. -/
def pass (p : Place) (whole : Compile Unit) (single : Pass) : Act Unit := do
  match p with
  | .shot k => onShot k whole
  | .device k id => onShot k (single.runAt id)
  | _ => throw (.use .noSuchNode)

/-- Validates a device into the report of the session. -/
def checkDevice (k id : Nat) : Act Unit := fun s =>
  match onShot k (checkPass.runAt id) (s.swapReports k) with
  | .ok a s => .ok a (s.swapReports k)
  | .error e s => .error e (s.swapReports k)

end Act

/-- What can be asked of a session. Where a shot is named beside a node, it is the one that is
asked, and the node may belong elsewhere. -/
inductive Command
  | openShot (name : String) (settings : Settings) (site : Site)
  | makeDevice (draft : DeviceDraft)
  | attachDevice (shot : Nat) (parent : Place) (loose : Nat) (site : Site)
  | addDevice (shot : Nat) (parent : Place) (draft : DeviceDraft) (site : Site)
  | makeInstruction (draft : InstructionDraft)
  | attachInstruction (shot : Nat) (owner : Place) (loose : Nat) (site : Site)
  | addInstruction (shot : Nat) (owner : Place) (draft : InstructionDraft) (site : Site)
  /-- Puts an instruction on an output, in the output's own shot. -/
  | issue (output : Place) (draft : InstructionDraft) (site : Site)
  | pulse (trigger : Place) (time duration : Float) (site : Site)
  | setOutputDelay (device : Place) (x : Float)
  | setInitialTrigger (device : Place) (x : Float)
  | start (shot : Nat)
  | stop (shot : Nat) (time : Float)
  | nextPhase (shot : Nat)
  | establishLimits (node : Place)
  | establishAttributes (node : Place)
  | checkInstructions (node : Place)
  /-- Times a whole shot, or one instruction among the waits of a shot. -/
  | convertTiming (shot : Nat) (node : Place)
  /-- Times one instruction among waits at any times, which may belong to no shot. -/
  | convertAmong (waits : Array Float) (instruction : Place)
  -- These four reach past the passes to the call discipline itself.
  | enterCall (shot : Nat) (node : Place) (o : Operation)
  | checkPhase (shot : Nat) (node : Place) (o : Operation)
  | checkCalled (shot : Nat) (node : Place)
  | advance (shot : Nat) (node : Place)
  | setThreshold (level : Level)
  | addViolation (code : ViolationCode) (node : Place) (message : String)
  | clearReport
  | raiseReport

/-- What a command answers. -/
inductive Reply
  | done
  /-- A node has been made or placed. -/
  | placed (p : Place)
  /-- An output has been given instructions, the last of them here, that take some time. -/
  | issued (last : Place) (length : Float)
  | size (n : Nat)
  deriving DecidableEq, Inhabited

/-- The time that a drafted instruction takes on its output. -/
def InstructionDraft.length : InstructionDraft → Float
  | function _ duration .. => duration
  | _ => 0

namespace Session

open Act in
/-- Carries out a command. -/
def perform : Command → Act Reply
  | .openShot name settings site => do
    match Shot.new? name settings site with
    | .error f => throw (.settings f)
    | .ok shot => do
      let k := (← get).shots.size
      modify fun s => { s with shots := s.shots.push shot }
      pure (.placed (.shot k))
  | .makeDevice draft => do
    let d ← usable draft.make
    let n := (← get).looseDevices.size
    modify fun s => { s with looseDevices := s.looseDevices.push (some d) }
    pure (.placed (.looseDevice n))
  | .attachDevice k parent n site => do
    return .placed (← Act.attachDevice k parent n site)
  | .addDevice k parent draft site => do
    let d ← usable draft.make
    return .placed (← Act.addDevice k parent d site)
  | .makeInstruction draft => do
    let i ← usable draft.make
    let n := (← get).looseInstructions.size
    modify fun s => { s with looseInstructions := s.looseInstructions.push (some i) }
    pure (.placed (.looseInstruction n))
  | .attachInstruction k owner n site => do
    return .placed (← Act.attachInstruction k owner n site)
  | .addInstruction k owner draft site => do
    let i ← usable draft.make
    return .placed (← Act.addInstruction k owner i site)
  | .issue output draft site => do
    let (k, _) ← attached output
    let i ← usable draft.make
    return .issued (← Act.addInstruction k output i site) draft.length
  | .pulse trigger time duration site => do
    let (k, id) ← attached trigger
    build k (Build.addPulse id time duration site)
    return .issued (.instruction k ((← shot k).instructions.size - 1)) duration
  | .setOutputDelay p x => do
    Act.configure p fun d title => d.setOutputDelay title x
    pure .done
  | .setInitialTrigger p x => do
    Act.configure p fun d title => d.setInitialTrigger title x
    pure .done
  | .start k => do
    onShot k Compile.start
    pure .done
  | .stop k time => do
    onShot k (Compile.stop time)
    pure .done
  | .nextPhase k => do
    onShot k Compile.nextPhase
    pure .done
  | .establishLimits p => do
    pass p Compile.establishLimits limitsPass
    pure .done
  | .establishAttributes p => do
    pass p Compile.establishAttributes attributesPass
    pure .done
  | .checkInstructions p => do
    match p with
    | .device k id => checkDevice k id
    | _ => pass p Compile.checkInstructions checkPass
    pure .done
  | .convertTiming k p => do
    match p with
    | .shot j => onShot j Compile.convertTiming
    | .instruction j id => do
      let waits := (← shot k).waitTimes
      onShot j (Compile.convert id waits)
    | _ => throw (.use .noSuchNode)
    pure .done
  | .convertAmong waits p => do
    match p with
    | .instruction j id => onShot j (Compile.convert id waits)
    | _ => throw (.use .noSuchNode)
    pure .done
  | .enterCall k p o => do
    let subject ← subject p
    onShot k (Compile.enterAs subject.ref (fun _ => subject) o)
    pure .done
  | .checkPhase k p o => do
    let subject ← subject p
    onShot k (Compile.check fun s => s.checkPhaseAs (fun _ => subject) o)
    pure .done
  | .checkCalled k p => do
    let subject ← subject p
    onShot k (Compile.check fun s => s.requireCalls subject.ref fun _ => subject)
    pure .done
  | .advance k p => do
    let subject ← subject p
    onShot k (Compile.advanceAs fun _ => subject)
    pure .done
  | .setThreshold level => do
    modify fun s => { s with threshold := level }
    pure .done
  | .addViolation code p message => do
    let subject ← subject p
    modify fun s => { s with report := s.report.add ⟨code, subject.ref, message, subject.site⟩ }
    return .size (← get).report.size
  | .clearReport => do
    modify fun s => { s with report := {} }
    pure .done
  | .raiseReport => do throw (.invalid (← get).report)

end Session

end ShotTiming
