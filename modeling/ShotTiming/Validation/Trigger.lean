import ShotTiming.Validation.Output

/-!
# Validation of a trigger

A pulse lasts from the first of some values other than 0 to the next 0 in the same segment.
-/
namespace ShotTiming

/-- A pulse of a trigger: the instruction it starts with, and its length in ticks. -/
structure HighTime where
  rise : Entry
  fall : Entry

namespace HighTime

def ticks (h : HighTime) : Int := h.fall.timing.ticks - h.rise.timing.ticks

/-- The pulses of a list of values in order, given the start of one that has not ended. -/
def pulses (high : Option Entry) : List Entry → List HighTime
  | [] => []
  | e :: es =>
    let high := high.filter (·.timing.segment == e.timing.segment)
    if e.instruction.action.value?.any (· != 0) then pulses (high.or (some e)) es
    else match high with
      | some rise => ⟨rise, e⟩ :: pulses none es
      | none => pulses none es

end HighTime

namespace Shot

/-- The pulses that are shorter than the triggered devices need. -/
def triggerFindings (s : Shot) (trigger : Nat) : List Finding :=
  let needed := (s.limitsAt trigger).triggerDuration
  if needed ≤ 0 then [] else
    (HighTime.pulses none (s.entries (s.instructionsOf (.device trigger)))).filterMap fun h =>
      let width := Float.ofInt h.ticks * s.timebase h.fall.instruction
      if width < needed * (1 - 1e-9) then some (.pulseTooShort trigger h.rise width) else none

end Shot

end ShotTiming
