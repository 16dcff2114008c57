import ShotTiming.Compile.Timing
import ShotTiming.Proofs.Shot.WellFormed

/-! # The place of one instruction

What the conversion of one instruction makes of it depends on the waits, the links of the shot and its
settings, and not on the other instructions.
-/
namespace ShotTiming

namespace Shot

variable {s s' : Shot}

/-- The timing of an instruction among some waits, as far as it gets. -/
def placing (s : Shot) (waits : Array Float) (i : Instruction) : EStateM.Result Setback Timing Unit :=
  (Placing.instruction (s.grid i) waits s.deadTime i).run i.timing

/-- Every field of the instruction has a tick. -/
def Fits (s : Shot) (waits : Array Float) (i : Instruction) : Prop :=
  ∃ t, s.placing waits i = .ok () t

/-- The instruction as its conversion leaves it. -/
def placed (s : Shot) (waits : Array Float) (i : Instruction) : Instruction :=
  match s.placing waits i with
  | .ok _ timing => { i with timing, converted := true }
  | .error _ timing => { i with timing }

theorem fixed_placed (waits : Array Float) (i : Instruction) : (s.placed waits i).fixed = i.fixed := by
  unfold placed
  split <;> rfl

/-- Placing an instruction converts it if every field has a tick. -/
theorem converted_placed (waits : Array Float) {i : Instruction} (hi : i.converted = false) :
    (s.placed waits i).converted ↔ s.Fits waits i := by
  unfold placed Fits
  cases hp : s.placing waits i with
  | ok u t => simp
  | error b t => simp [hi]

namespace SameTree

theorem source? (h : SameTree s s') (clock : Option Nat) : s'.source? clock = s.source? clock := by
  cases clock with
  | none => rfl
  | some id => exact bind_congr_map (h.map_device? _ (fun _ => rfl) id)

theorem timebase (h : SameTree s s') (i : Instruction) : s'.timebase i = s.timebase i := by
  have hmaster : s'.masterClock = s.masterClock := by
    unfold masterClock
    rw [h.master]
    cases s.master with
    | none => rfl
    | some id => exact congrArg List.head? (h.childrenOf (.device id))
  unfold Shot.timebase timebaseOf
  simp only [h.source?, hmaster]

theorem placing (h : SameTree s s') (hw : s'.waitDelay = s.waitDelay) (waits : Array Float)
    (i : Instruction) : s'.placing waits i = s.placing waits i := by
  unfold Shot.placing grid deadTime
  rw [h.timebase, h.settings, hw]

theorem placed (h : SameTree s s') (hw : s'.waitDelay = s.waitDelay) (waits : Array Float)
    (i : Instruction) : s'.placed waits i = s.placed waits i := by
  unfold Shot.placed
  rw [h.placing hw]

end SameTree

end Shot

end ShotTiming
