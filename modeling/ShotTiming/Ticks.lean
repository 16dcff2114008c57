import ShotTiming.Number.Exact

/-!
# Whole numbers of ticks

A time becomes a count of ticks of a timebase, either the closest one or the first one at or after
it. Counts are limited to the 64-bit range; a time whose count would not fit has none.
-/
namespace ShotTiming
open Number

/-- How a time between two ticks is placed. -/
inductive Rounding
  | nearest
  | up
  /-- A value that names no rule; it is placed as `nearest`, and refused by a shot. -/
  | other (code : Nat)
  deriving DecidableEq, Repr, Inhabited

namespace Rounding

def name : Rounding → String
  | nearest => "nearest"
  | up => "up"
  | other _ => "unknown"

def ofName? (s : String) : Option Rounding :=
  if s = "nearest" then some nearest else if s = "up" then some up else none

def code : Rounding → Nat
  | nearest => 0
  | up => 1
  | other n => n

def ofCode : Nat → Rounding
  | 0 => nearest
  | 1 => up
  | n => other n

end Rounding

/-- Whether the integers next to a number are 64-bit integers. -/
def fitsInt64 (x : Float) : Bool := x.isFinite && x.abs < 9223372036854775808.0

/-- The share of a count by which it may lie below the ratio it stands for. -/
def defaultSlack : Float := 1e-9

/-- A ratio rounded up, except that a ratio within the slack of an integer is that integer: what is
nominally a whole number is not moved a whole count up by rounding noise. -/
def ceilWithin (slack ratio : Float) : Int :=
  let near := nearestEven (rational ratio)
  let r := Float.ofInt near
  if (ratio - r).abs ≤ slack * larger 1 r.abs then near else (rational ratio).ceil

/-- The number of units that a value takes up. -/
def ceilCount (value unit slack : Float) : Int := ceilWithin slack (value / unit)

/-- A count of ticks, and its distance from the time asked for in units of the timebase. -/
structure Quantised where
  ticks : Int
  error : Float
  deriving Inhabited

/-- Without a timebase every time is tick 0. A ratio out of range is tick 0 at infinite distance. -/
def toTicks (value timebase : Float) (rounding : Rounding) : Quantised :=
  if timebase ≤ 0 then ⟨0, 0⟩ else
    let ratio := value / timebase
    if fitsInt64 ratio then
      let ticks := if rounding = .up then ceilCount value timebase defaultSlack
        else nearestAway (rational ratio)
      ⟨ticks, (ratio - Float.ofInt ticks).abs⟩
    else ⟨0, 1 / 0⟩

/-- Whether a count may be used: rounding up accepts any distance but an infinite one. -/
def Quantised.within (q : Quantised) (rounding : Rounding) (tolerance : Float) : Bool :=
  !q.error.isInf && (rounding == .up || q.error ≤ tolerance)

/-- The ticks of a clock, and how closely a time has to meet them. -/
structure Grid where
  timebase : Float
  rounding : Rounding
  tolerance : Float

/-- Why a value has no tick on a grid. -/
inductive Miss
  | outOfRange
  | off (error : Float)

/-- The tick of a value, if there is an acceptable one. -/
def Grid.place (g : Grid) (value : Float) : Except Miss Int :=
  let q := toTicks value g.timebase g.rounding
  if q.within g.rounding g.tolerance then .ok q.ticks
  else .error (if q.error.isInf then .outOfRange else .off q.error)

end ShotTiming
