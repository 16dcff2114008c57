import ShotTiming.Compile.Attributes
import ShotTiming.Compile.Check
import ShotTiming.Compile.Limits
import ShotTiming.Compile.Timing

/-!
# Starting and stopping a shot
-/
namespace ShotTiming

namespace Shot

/-- The first instruction that is not over by a stop time. -/
def firstAfter? (s : Shot) (time : Float) : Option Nat :=
  (List.range s.instructions.size).find? fun id => (s.instruction? id).any fun i => !(i.time ≤ time)

end Shot

namespace Compile

/-- Fixes the tree and works out its limits and attributes. -/
def start : Compile Unit := do
  check fun s => s.checkPhase .shot .start
  nextPhase
  establishLimits
  nextPhase
  establishAttributes
  nextPhase

/-- Accepts a stop time that no instruction comes after. -/
def setStopTime (time : Float) : Compile Unit := do
  let s ← shot
  match s.firstAfter? time with
  | some id => throw (.structural (.stopBeforeEnd time s.title (s.subject (.instruction id))))
  | none => modifyShot fun s => { s with stopTime := time }

/-- The verdict on a shot whose report is complete. -/
def conclude : Compile Unit := do
  let s ← shot
  if s.report.isEmpty then
    say .debug (s.name ++ ": compiled " ++ toString s.instructions.size ++ " instructions\n")
  else
    s.report.violations.forM fun v => say .error (v.text ++ "\n")
    throw (.invalid s.report)

/-- Times and validates the instructions. -/
def stop (time : Float) : Compile Unit := do
  check fun s => s.checkPhase .shot .stop
  setStopTime time
  nextPhase
  convertTiming
  nextPhase
  checkInstructions
  checkAllCalled
  conclude

end Compile

end ShotTiming
