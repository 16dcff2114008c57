import ShotTiming.Compile.Pass

/-!
# Common limits

A clock line has to suit the slowest device it clocks, a pseudoclock its clock lines, and a trigger
the device that needs the longest pulse.
-/
namespace ShotTiming
open Number (larger)

/-- The largest of some values and who holds it. -/
structure Peak where
  value : Float
  holder : Option Nat

/-- The largest of a start value and the values of some devices; of equals, the first holds it. -/
def Peak.over (start : Peak) (values : List (Nat × Float)) : Peak :=
  values.foldl (fun p (id, x) => if p.value < x then ⟨x, some id⟩ else p) start

namespace Shot

/-- Some devices with one of their values, where they have it. -/
def valuesOf (s : Shot) (value? : Equipment → Option Float) (ids : List Nat) : List (Nat × Float) :=
  ids.filterMap fun id => ((s.device? id).bind (value? ·.equipment)).map fun x => (id, x)

/-- The devices that a clock line clocks. -/
def clockedBy (s : Shot) (line : Nat) : List Nat :=
  (s.descendants (.device line) false).filter fun id =>
    (s.device? id).any (·.kind == .clockableDevice)

/-- The limits of a clock line of a pseudoclock. The period is a whole number of ticks; the pulse is
a matter of the duty cycle and is not. -/
def clockLineLimits (s : Shot) (line clock : Nat) (source : ClockSource) : Limits :=
  let clocked := s.clockedBy line
  let period := Peak.over ⟨source.minimumPeriod, some clock⟩ (s.valuesOf (·.minimumPeriod?) clocked)
  let trigger := Peak.over ⟨0, none⟩ (s.valuesOf (·.minimumTrigger?) clocked)
  let ticks := ceilCount period.value source.timebase defaultSlack
  { period := Float.ofInt ticks * source.timebase
    periodTicks := ticks
    periodLimiter := period.holder
    triggerDuration := trigger.value
    triggerLimiter := trigger.holder }

/-- The largest limits of the clock lines of a pseudoclock. -/
def pseudoclockLimits (s : Shot) (clock : Nat) : Limits :=
  let lines := (s.childrenOf (.device clock)).filterMap s.device?
  { period := lines.foldl (fun x d => larger x d.limits.period) 0
    triggerDuration := lines.foldl (fun x d => larger x d.limits.triggerDuration) 0 }

/-- The longest pulse that the triggered devices need. -/
def triggerLimits (s : Shot) (trigger : Nat) : Limits :=
  let peak := Peak.over ⟨0, none⟩ (s.valuesOf (·.minimumTrigger?) (s.childrenOf (.device trigger)))
  { triggerDuration := peak.value, triggerLimiter := peak.holder }

/-- The limits of a device that has any, from those of its children. -/
def limitsOf? (s : Shot) (id : Nat) : Option Limits :=
  match s.device? id with
  | none => none
  | some d =>
    match d.equipment with
    | .clockLine =>
      d.parent.bind fun
        | .device clock => (s.source? (some clock)).map (s.clockLineLimits id clock)
        | .shot => none
    | .pseudoclock _ => some (s.pseudoclockLimits id)
    | .trigger => some (s.triggerLimits id)
    | _ => none

end Shot

def limitsPass : Pass where
  operation := .establishLimits
  hook := (·.limits)
  after id := Compile.modifyShot fun s =>
    (s.limitsOf? id).elim s fun limits => s.setDevice id fun d => { d with limits }

/-- The limits of the whole tree. -/
def Compile.establishLimits : Compile Unit := do
  enter .shot .establishLimits
  limitsPass.runBelowShot

end ShotTiming
