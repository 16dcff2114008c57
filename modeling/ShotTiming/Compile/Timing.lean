import ShotTiming.Compile.Phases
import ShotTiming.Sorted

/-!
# Timing

Waits cut a shot into segments. An instruction is timed from the moment its clock responds in its
segment, and its times become ticks of that clock.
-/
namespace ShotTiming

/-- The segment of a time among the times of the waits. At the time of a wait, an instruction
belongs to the segment after it, and the wait itself to the one before. -/
def segmentOf (i : Instruction) (waits : Array Float) : Nat :=
  match i.action with
  | .wait _ => Sorted.split (fun w => w < i.time) waits
  | _ => Sorted.split (fun w => !(i.time < w)) waits

/-- When a segment starts: at zero, or once the clocks have recovered from its wait. -/
def segmentStart (waits : Array Float) (deadTime : Float) : Nat → Float
  | 0 => 0
  | k + 1 => waits.getD k 0 + deadTime

/-- The field that has no tick, its value, and why. -/
structure Setback where
  quantity : Quantity
  value : Float
  miss : Miss

/-- Fills in a timing field by field; a setback keeps the fields before it. -/
abbrev Placing := EStateM Setback Timing

namespace Placing

def field (g : Grid) (q : Quantity) (x : Float) (store : Int → Timing → Timing) : Placing Unit :=
  match g.place x with
  | .ok n => modify (store n)
  | .error miss => throw ⟨q, x, miss⟩

def time (g : Grid) (waits : Array Float) (deadTime : Float) (i : Instruction) : Placing Unit := do
  let segment := segmentOf i waits
  let relative := i.time - segmentStart waits deadTime segment
  modify fun t => { t with segment, relative }
  field g .time relative fun n t => { t with ticks := n }

def samplePeriod (g : Grid) (rate : Float) : Placing Unit :=
  if 0 < rate then field g .samplePeriod (1 / rate) fun n t => { t with samplePeriod := n }
  else modify fun t => { t with samplePeriod := 0 }

/-- The timing of an instruction among some waits. Static values are at the start of the shot. -/
def instruction (g : Grid) (waits : Array Float) (deadTime : Float) (i : Instruction) :
    Placing Unit :=
  match i.kind with
  | .wait => time g waits deadTime i
  | .function | .constant => do
    time g waits deadTime i
    field g .duration i.action.duration fun n t => { t with duration := n }
    samplePeriod g i.action.sampleRate
  | .static => modify fun t => { t with segment := 0, relative := 0, ticks := 0 }

end Placing

namespace Shot

def timesOf (s : Shot) (ids : Array Nat) : Array Float :=
  ids.filterMap fun id => (s.instruction? id).map (·.time)

/-- The times of the waits that the shot has collected. -/
def waitTimes (s : Shot) : Array Float := s.timesOf s.waits

/-- Whether an instruction comes earlier in nominal time. -/
def isEarlier (s : Shot) (a b : Nat) : Bool :=
  match s.instruction? a, s.instruction? b with
  | some i, some j => i.time < j.time
  | _, _ => false

/-- The shot's own instructions by time, in order of creation where the time is the same. -/
def sortedWaits (s : Shot) : List Nat := Sorted.sort s.isEarlier s.ownInstructions.toList

def isSimultaneous (s : Shot) (a b : Nat) : Bool :=
  match s.instruction? a, s.instruction? b with
  | some i, some j => i.time == j.time
  | _, _ => false

/-- The first neighbours of a list that have the same time. -/
def firstClash? (s : Shot) : List Nat → Option (Nat × Nat)
  | a :: b :: rest => if s.isSimultaneous a b then some (a, b) else s.firstClash? (b :: rest)
  | _ => none

/-- The order of the instructions of an output: by segment, tick and creation. -/
def isPlacedBefore (s : Shot) (a b : Nat) : Bool :=
  match s.instruction? a, s.instruction? b with
  | some i, some j =>
    i.timing.isBefore j.timing || !j.timing.isBefore i.timing && a < b
  | _, _ => false

/-- The shot with the instructions of one output in order. -/
def sortOutput (s : Shot) (id : Nat) : Shot :=
  s.setDevice id fun d =>
    { d with instructions := (Sorted.sort s.isPlacedBefore d.instructions.toList).toArray }

def sortOutputs (s : Shot) : Shot := s.outputs.foldl sortOutput s

def misplaced (s : Shot) (id : Nat) (i : Instruction) (b : Setback) : Misplaced :=
  ⟨s.subject (.instruction id), b.quantity, b.value, s.grid i, b.miss⟩

end Shot

namespace Compile

/-- Times one instruction among some waits. What was placed before a setback stays. -/
def convert (id : Nat) (waits : Array Float) : Compile Unit := do
  match (← shot).instruction? id with
  | none => throw (.use .noSuchNode)
  | some i =>
    enter (.instruction id) .convertTiming
    let s ← shot
    match (Placing.instruction (s.grid i) waits s.deadTime i).run i.timing with
    | .ok _ timing =>
      modifyShot fun s => s.setInstruction id fun i => { i with timing, converted := true }
    | .error b timing =>
      modifyShot fun s => s.setInstruction id fun i => { i with timing }
      throw (.quantisation (.single (s.misplaced id i b)))

/-- Puts the waits in order, and refuses two at the same time. -/
def collectWaits : Compile Unit := do
  modifyShot fun s => { s with waits := s.sortedWaits.toArray }
  let s ← shot
  match s.firstClash? s.waits.toList with
  | none => pure ()
  | some (a, b) =>
    throw (.structural (.duplicateWait (s.subject (.instruction a)) (s.subject (.instruction b))))

/-- Times instructions one after another, and passes over those that miss the grid. -/
def convertEach (waits : Array Float) : List Nat → Compile (List Misplaced)
  | [] => pure []
  | id :: ids => do
    let missed ← tryCatch (do convert id waits; pure none) fun
      | .quantisation (.single m) => do
        say .error (m.message ++ "\n")
        pure (some m)
      | e => throw e
    let others ← convertEach waits ids
    pure (missed.toList ++ others)

/-- Times all instructions, or reports all that miss the grid. -/
def convertTogether (waits : Array Float) (ids : List Nat) : Compile Unit := do
  match ← convertEach waits ids with
  | [] => pure ()
  | first :: others => throw (.quantisation (.batch first others))

/-- Times all instructions and puts those of each output in order. -/
def convertTiming : Compile Unit := do
  check fun s => s.checkPhase .shot .convertTiming
  collectWaits
  let s ← shot
  let waits := s.waitTimes
  let ids := s.descendantInstructions .shot true
  if s.settings.batch then convertTogether waits ids else ids.forM fun id => convert id waits
  modifyShot Shot.sortOutputs

end Compile

end ShotTiming
