import ShotTiming.Fault
import ShotTiming.Log
import ShotTiming.Shot.Build
import ShotTiming.Shot.Tree

/-!
# Steps of a compilation

A step works on a shot and a log, and may end in a fault. What it did before the fault stays.
-/
namespace ShotTiming

structure Progress where
  shot : Shot
  messages : Array Message := #[]
  deriving Inhabited

/-- A step that keeps its effects when it fails. -/
abbrev Compile := EStateM Fault Progress

namespace Compile

def shot : Compile Shot := return (← get).shot

def modifyShot (f : Shot → Shot) : Compile Unit := modify fun p => { p with shot := f p.shot }

def say (level : Level) (text : String) : Compile Unit :=
  modify fun p => { p with messages := p.messages.push ⟨level, text⟩ }

def report (v : Violation) : Compile Unit :=
  modifyShot fun s => { s with report := s.report.add v }

/-- Passes a check of the shot on as a step without effects. -/
def check (f : Shot → Except Fault Unit) : Compile Unit := do
  match f (← shot) with
  | .ok () => pure ()
  | .error e => throw e

end Compile

end ShotTiming
