import ShotTiming.Compile.Pass
import ShotTiming.Validation.ClockLine
import ShotTiming.Validation.Trigger

/-!
# Validation

The pass that collects the findings of every device, children first, in the report of the shot.
-/
namespace ShotTiming

namespace Shot

/-- What is found on a device itself. -/
def findingsAt (s : Shot) (id : Nat) : List Finding :=
  (s.device? id).elim [] fun d =>
    match d.kind with
    | .clockLine => s.clockLineFindings id
    | .output => s.outputFindings id
    | .trigger => s.outputFindings id ++ s.triggerFindings id
    | .staticOutput => s.outputFindings id ++ s.staticFindings id
    | _ => []

/-- The waits that come before the clock has recovered from the one before. -/
def waitFindings (s : Shot) : List Finding :=
  ((s.entries s.waits.toList).filter (·.timing.ticks < 0)).map .waitTooEarly

end Shot

namespace Compile

def note (f : Finding) : Compile Unit := do
  match f.note (← shot) with
  | .violation v => report v
  | .warning text => say .warn text

end Compile

def checkPass : Pass where
  operation := .checkInstructions
  hook := (·.check)
  after id := do ((← Compile.shot).findingsAt id).forM Compile.note

/-- Fills the report of the shot anew. -/
def Compile.checkInstructions : Compile Unit := do
  enter .shot .checkInstructions
  modifyShot fun s => { s with report := {} }
  (← shot).waitFindings.forM note
  checkPass.runBelowShot

end ShotTiming
