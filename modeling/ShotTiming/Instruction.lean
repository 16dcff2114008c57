import ShotTiming.Kind
import ShotTiming.Node
import ShotTiming.Number.Decimal

/-!
# Instructions
-/
namespace ShotTiming
open Number (significant)

/-- A function of the time since the start of a ramp. -/
abbrev Curve := Float → Float

/-- The value at `t` of the polynomial with the given coefficients, lowest first. -/
def polynomial (coefficients : List Float) : Curve :=
  fun t => coefficients.foldr (fun c r => r * t + c) 0

/-- What an instruction does. -/
inductive Action
  /-- Ends a segment of the shot. -/
  | wait (name : String)
  /-- Follows a curve, sampled at a rate; rate 0 is not sampled. -/
  | function (duration : Float) (curve : Curve) (sampleRate : Float)
  /-- Sets an output to a value. -/
  | constant (value : Float)
  /-- Holds a static output at a value for the whole shot. -/
  | static (value : Float)

namespace Action

def kind : Action → InstructionKind
  | wait _ => .wait
  | function .. => .function
  | constant _ => .constant
  | static _ => .static

def duration : Action → Float
  | function d .. => d
  | _ => 0

def sampleRate : Action → Float
  | function _ _ r => r
  | _ => 0

/-- The curve that a timed action follows. -/
def curve? : Action → Option Curve
  | function _ c _ => some c
  | constant v => some fun _ => v
  | _ => none

def value? : Action → Option Float
  | constant v | static v => some v
  | _ => none

/-- What the printed form says about an action at a time. -/
def fields (time : Float) : Action → String
  | wait name => ", t=" ++ significant time ++ ", name=" ++ name
  | function d _ r =>
    ", t=" ++ significant time ++ ", duration=" ++ significant d ++ ", samplerate=" ++
      significant r
  | constant v => ", t=" ++ significant time ++ ", value=" ++ significant v
  | static v => ", value=" ++ significant v

end Action

/-- The place of an instruction on its clock. -/
structure Timing where
  /-- The number of waits before the instruction. -/
  segment : Nat := 0
  /-- Time since the clock became responsive in the segment. -/
  relative : Float := 0
  ticks : Int := 0
  duration : Int := 0
  /-- Ticks between two samples; 0 is not sampled. -/
  samplePeriod : Int := 0
  deriving DecidableEq, Inhabited

namespace Timing

/-- The segment that starts after a wait. -/
def boundary (t : Timing) : Nat := t.segment + 1

/-- Takes no time on the output. -/
def isPoint (t : Timing) : Bool := t.duration == 0

def finish (t : Timing) : Int := t.ticks + t.duration

/-- Collects the samples of a ramp from some tick after its start on. -/
def samplesFrom (t : Timing) (h : 0 < t.samplePeriod) (tick : Int) (samples : Array Int) : Array Int :=
  if tick ≤ t.duration then
    samplesFrom t h (tick + t.samplePeriod) (samples.push (t.ticks + tick))
  else samples
termination_by (t.duration + 1 - tick).toNat

/-- The ticks at which the curve is evaluated, from the start on. -/
def sampleTimes (t : Timing) : List Int :=
  if h : t.samplePeriod ≤ 0 ∨ t.duration ≤ 0 then [t.ticks]
  else (t.samplesFrom (by omega) 0 #[]).toList

/-- The number of ticks at which the curve is evaluated. -/
def sampleCount (t : Timing) : Nat :=
  if t.samplePeriod ≤ 0 ∨ t.duration ≤ 0 then 1 else (t.duration / t.samplePeriod).toNat + 1

def sampleAt (t : Timing) (i : Nat) : Int := t.ticks + i * t.samplePeriod

/-- Earlier segments come first, then earlier ticks. -/
def isBefore (a b : Timing) : Bool :=
  a.segment < b.segment || a.segment == b.segment && a.ticks < b.ticks

end Timing

structure Instruction where
  /-- The time asked for. -/
  time : Float
  action : Action
  site : Site := {}
  owner : Option Host := none
  /-- The pseudoclock of the owner. -/
  clock : Option Nat := none
  /-- Whether the timing is complete. -/
  converted : Bool := false
  timing : Timing := {}

instance : Inhabited Instruction := ⟨⟨0, .static 0, {}, none, none, false, {}⟩⟩

namespace Instruction

def kind (i : Instruction) : InstructionKind := i.action.kind

/-- The printed form, given the name of the owner. -/
def titleUnder (i : Instruction) (owner : String) : String :=
  Named.name i.kind ++ "(parent=" ++ owner ++ i.action.fields i.time ++ ")"

/-- The time at which the instruction is over, if it ever starts. -/
def finish (i : Instruction) : Float := i.time + Number.larger i.action.duration 0

end Instruction

end ShotTiming
