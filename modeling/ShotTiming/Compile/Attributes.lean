import ShotTiming.Compile.Pass

/-!
# Initial attributes

Delays add up from the shot down: a device starts, and lags, by the delay of its parent more than
the parent does.
-/
namespace ShotTiming

namespace Shot

/-- When a device starts and how far it lags, from its parent. -/
def startAndLatency (s : Shot) (d : Device) : Float × Float :=
  let (start, latency) := match d.parent.bind fun
      | .device p => s.device? p
      | .shot => none with
    | some p => (p.start + p.delayTo d, p.latency + p.delayTo d)
    | none => (0, 0)
  match d.equipment with
  | .pseudoclockDevice _ => (start + d.initialTrigger, latency)
  | _ => (start, latency)

/-- The longest time that any pseudoclock of the tree needs after a wait. -/
def longestWait (s : Shot) : Float :=
  (s.descendants .shot true).foldl (fun x id =>
    ((s.device? id).bind (·.equipment.source?)).elim x fun c =>
      if x < c.minimumWait then c.minimumWait else x) 0

end Shot

def attributesPass : Pass where
  operation := .establishAttributes
  hook := (·.attributes)
  before id := Compile.modifyShot fun s =>
    (s.device? id).elim s fun d =>
      let (start, latency) := s.startAndLatency d
      s.setDevice id fun d => { d with start, latency }

/-- The attributes of the whole tree. -/
def Compile.establishAttributes : Compile Unit := do
  enter .shot .establishAttributes
  modifyShot fun s => { s with waitDelay := s.longestWait }
  attributesPass.runBelowShot

end ShotTiming
