import ShotTiming.Shot.Tree

/-!
# The listing of a compiled shot
-/
namespace ShotTiming.Shot

/-- A wait, and the segment it ends. -/
def waitLine (s : Shot) (id : Nat) : String :=
  (s.instruction? id).elim "" fun i =>
    "  " ++ s.instructionTitle i ++ " ends segment " ++ toString i.timing.segment ++ " at tick " ++
      toString i.timing.ticks ++ "\n"

/-- An instruction behind its place, with its extent if it has any. -/
def instructionLine (s : Shot) (id : Nat) : String :=
  (s.instruction? id).elim "" fun i =>
    let t := i.timing
    let extent := if i.kind.isTimed && !t.isPoint then
      " for " ++ toString t.duration ++ " ticks every " ++ toString t.samplePeriod else ""
    "    [" ++ toString t.segment ++ "] " ++ toString t.ticks ++ ": " ++ s.instructionTitle i ++
      extent ++ "\n"

/-- An output above its instructions. -/
def outputLines (s : Shot) (id : Nat) : String :=
  "  " ++ (s.subject (.device id)).title ++ ":\n" ++
    String.join ((s.instructionsOf (.device id)).map s.instructionLine)

def listing (s : Shot) : String :=
  s.title ++ ":\n" ++ String.join (s.waits.toList.map s.waitLine) ++
    String.join (s.outputs.map s.outputLines)

end ShotTiming.Shot
