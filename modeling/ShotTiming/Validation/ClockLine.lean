import ShotTiming.Sorted
import ShotTiming.Validation.Output

/-!
# Validation of a clock line

A clock line has to pulse wherever an instruction below it starts or ends, and within a ramp at
every sample.
-/
namespace ShotTiming

/-- Whether a ramp is sampled in less than a period. -/
def Timing.isSampledWithin (t : Timing) (period : Int) : Bool :=
  !t.isPoint && 0 < t.samplePeriod && t.samplePeriod < period

/-- Whether the period is too short for a high and a low pulse. -/
def Limits.cannotHoldPulses (l : Limits) : Bool :=
  0 < l.triggerDuration && l.period * (1 + 1e-9) < 2 * l.triggerDuration

namespace Pulse

/-- By segment, then by tick, then by creation of the instruction. -/
def isBefore (a b : Pulse) : Bool :=
  a.segment < b.segment || a.segment == b.segment &&
    (a.tick < b.tick || a.tick == b.tick && a.entry.id < b.entry.id)

/-- The pulses at the start and the end of an instruction, which for a point are the same. -/
def ofEntry (e : Entry) : List Pulse :=
  ⟨e.timing.segment, e.timing.ticks, e⟩ ::
    if e.timing.isPoint then [] else [⟨e.timing.segment, e.timing.finish, e⟩]

/-- Whether two pulses follow each other too closely; at one tick they are one pulse. -/
def tooClose (period : Int) (a b : Pulse) : Bool :=
  a.segment == b.segment && a.tick != b.tick && b.tick - a.tick < period

/-- The neighbours of a list that are too close. -/
def closeNeighbours (period : Int) (ps : List Pulse) : List (Pulse × Pulse) :=
  (ps.zip ps.tail).filter fun (a, b) => tooClose period a b

/-- The violations of the period of a clock line. A period of one tick always holds between ticks. -/
def findings (line : Nat) (period : Int) (es : List Entry) : List Finding :=
  (es.filter (·.timing.isSampledWithin period)).map (.sampleTooFast line) ++
  (if period ≤ 1 then []
  else (closeNeighbours period (Sorted.sort isBefore (es.flatMap ofEntry))).map
    fun (a, b) => .ticksTooClose line a b)

end Pulse

/-- The findings on a clock line, from the timed instructions that its clock reaches. -/
def Shot.clockLineFindings (s : Shot) (line : Nat) : List Finding :=
  let limits := s.limitsAt line
  (if limits.cannotHoldPulses then [.pulsesDoNotFit line] else []) ++
    Pulse.findings line limits.periodTicks
      (s.timedEntries (s.descendantInstructions (.device line) false))

end ShotTiming
