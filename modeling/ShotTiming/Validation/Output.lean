import ShotTiming.Validation.Finding

/-!
# Validation of an output

Each timed instruction is checked on its own and against those before it in its segment. Of those,
only the ramp that reaches furthest and the last point can matter.
-/
namespace ShotTiming

/-- What is wrong with the placement of an instruction by itself. -/
def Entry.placementFindings (e : Entry) : List Finding :=
  let t := e.timing
  (if t.ticks < 0 then [.startsTooEarly e] else []) ++
  (if t.duration < 0 then [.negativeDuration e]
    else if 0 < t.duration ∧ 0 < t.samplePeriod ∧ t.duration % t.samplePeriod ≠ 0 then
      [.partialSample e]
    else [])

namespace Shot

/-- The wait that ends the segment of an instruction, if one does. -/
def waitAfter? (s : Shot) (e : Entry) : Option Entry :=
  s.waits[e.timing.segment]?.bind fun id => (s.instruction? id).map fun i => ⟨id, i⟩

/-- Whether an instruction runs past the wait after it, or past the end of the shot. -/
def boundaryFindings (s : Shot) (e : Entry) : List Finding :=
  let tolerance := s.settings.tolerance * s.timebase e.instruction
  let finish := e.instruction.finish
  (if 0 < e.instruction.action.duration then
    match s.waitAfter? e with
    | some w => if w.instruction.time + tolerance < finish then [.crossesWait e w] else []
    | none => []
  else []) ++
  (if s.stopTime + tolerance < finish then [.afterStop e] else [])

end Shot

/-- What later instructions of a segment have to be compared with. -/
structure Scan where
  segment : Nat := 0
  /-- The ramp that ends last. -/
  ramp : Option Entry := none
  /-- The last point. -/
  point : Option Entry := none

namespace Scan

/-- Nothing in another segment matters. -/
def enter (c : Scan) (segment : Nat) : Scan := if segment = c.segment then c else { segment }

/-- The last point, if it is at a tick. -/
def pointAt? (c : Scan) (tick : Int) : Option Entry := c.point.filter (·.timing.ticks == tick)

/-- The conflict of a point with what was scanned. -/
def pointConflict? (c : Scan) (e : Entry) : Option Finding :=
  match c.pointAt? e.timing.ticks with
  | some p => some (.sameTick e p)
  | none =>
    (c.ramp.filter fun r =>
      r.timing.ticks ≤ e.timing.ticks && e.timing.ticks ≤ r.timing.finish).map (.sharedTick e)

/-- The conflict of a ramp with what was scanned. -/
def rampConflict? (c : Scan) (e : Entry) : Option Finding :=
  match c.ramp.filter fun r => e.timing.ticks < r.timing.finish with
  | some r => some (.overlap e r)
  | none => (c.pointAt? e.timing.ticks).map (.sharedTick e)

/-- Adds an instruction of the current segment. -/
def add (c : Scan) (e : Entry) : Scan :=
  if e.timing.isPoint then { c with point := some e }
  else if c.ramp.all (·.timing.finish < e.timing.finish) then { c with ramp := some e }
  else c

/-- The conflict of each instruction with those before it, if there is one. -/
def conflicts (c : Scan) : List Entry → List (Option Finding)
  | [] => []
  | e :: es =>
    let c := c.enter e.timing.segment
    let conflict := if e.timing.isPoint then c.pointConflict? e else c.rampConflict? e
    conflict :: (c.add e).conflicts es

end Scan

namespace Shot

/-- The timed instructions among some. -/
def timedEntries (s : Shot) (ids : List Nat) : List Entry :=
  (s.entries ids).filter (·.instruction.kind.isTimed)

/-- The findings on the instructions of an output, which are in order. -/
def outputFindings (s : Shot) (id : Nat) : List Finding :=
  let es := s.timedEntries (s.instructionsOf (.device id))
  (List.zipWith (fun e conflict =>
    e.placementFindings ++ s.boundaryFindings e ++ conflict.toList) es
      (Scan.conflicts {} es)).flatten

/-- Every static value of an output but the first is one too many. -/
def staticFindings (s : Shot) (id : Nat) : List Finding :=
  match (s.entries (s.instructionsOf (.device id))).filter (·.instruction.kind == .static) with
  | [] => []
  | first :: others => others.map (.setAgain · first)

end Shot

end ShotTiming
