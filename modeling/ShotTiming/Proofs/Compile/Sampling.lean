import ShotTiming.Proofs.Compile.Changes
import ShotTiming.Proofs.Compile.Period
import ShotTiming.Proofs.Session.Clocks
import ShotTiming.Proofs.Ticks.Bounds

/-! # Which ramps of a compiled shot are sampled

Validation compares the sample period of a ramp with the period of its line, but takes a period of no ticks for
a ramp that is not sampled. So a ramp is sampled as its line allows unless the period asked for is so short
that its clock does not tell it from none.
-/
namespace ShotTiming
open Number

namespace Shot

/-- A ramp has samples, and every clock line that drives it can produce them. -/
def IsSampled (s : Shot) (e : Entry) : Prop :=
  1 ≤ e.timing.samplePeriod ∧ ∀ line, s.kind? line = some .clockLine → s.Drives line e →
    (s.limitsAt line).periodTicks ≤ e.timing.samplePeriod

variable {s : Shot} {e : Entry}

theorem isTimed_of_sampleRate (h : 0 < e.instruction.action.sampleRate) : e.IsTimed := by
  have hzero : ¬ (0 : Float) < 0 := by decide
  unfold Entry.IsTimed Instruction.kind
  cases ha : e.instruction.action <;> rw [ha] at h
  · exact absurd h hzero
  · rfl
  · rfl
  · exact absurd h hzero

/-- A timed instruction is placed on the grid of a clock. -/
theorem Clocked.timebase_pos_of_timed (hs : s.Clocked) (hw : s.WellFormed) (ht : s.KeepsTables)
    (he : e.IsIn s) (htimed : e.IsTimed) : 0 < (s.grid e.instruction).timebase := by
  obtain ⟨p, c, -, -, hc, hbelow⟩ := hs.clock_of_timed hw ht he htimed
  have hbase : (s.grid e.instruction).timebase = s.timebaseOf (some c) := by
    rw [← hc]
    unfold grid timebase
    unfold Entry.IsTimed Instruction.kind at htimed
    cases ha : e.instruction.action <;> rw [ha] at htimed <;> first | rfl | cases htimed
  rw [hbase]
  exact hs.timebase_pos (hs.of_clockBelow hw.devices hbelow).1

/-- On a legal shot, a ramp for which samples are asked for is sampled exactly if its clock tells the period
from none. -/
theorem Legal.isSampled_iff_not_swallows (h : s.Legal) (hr : s.Resolved) (he : e.IsIn s)
    (hclock : 0 < (s.grid e.instruction).timebase) (hrate : 0 < e.instruction.action.sampleRate)
    (hduration : 0 < e.timing.duration) :
    s.IsSampled e ↔ ¬ (s.grid e.instruction).Swallows (1 / e.instruction.action.sampleRate) := by
  have hplace : (s.grid e.instruction).place (1 / e.instruction.action.sampleRate) =
      .ok e.timing.samplePeriod := by
    obtain ⟨-, -, -, -, hplace⟩ :=
      Placing.instruction_eq_ok (isTimed_of_sampleRate hrate) (hr.timed e.id _ he)
    rw [if_pos hrate] at hplace
    exact hplace
  have haccepts := Grid.place_eq_ok.mp hplace
  have hone : (0 : Float) ≤ 1 := by decide
  have hperiod := div_nonneg_of_number hone hrate (haccepts.not_isNaN hclock)
  obtain ⟨hge, hzero⟩ := haccepts.eq_zero_iff hclock hperiod
  have hramp : ¬ e.timing.isPoint := by
    simp only [Timing.isPoint, beq_iff_eq]
    omega
  rw [← not_congr hzero]
  constructor
  · rintro ⟨hpos, -⟩ hnone
    omega
  · intro hne
    have hpos : 1 ≤ e.timing.samplePeriod := by omega
    exact ⟨hpos, fun line hk hd => (h.lines line hk).samples e hd hramp hpos⟩

theorem isSampled_checked : s.advanced.checked.IsSampled e ↔ s.IsSampled e := by
  unfold IsSampled
  simp only [drives_checked]
  rfl

end Shot

namespace Compile
open Shot

variable {raw : Bool} {p q : Progress} {time : Float} {e : Entry}

/-- A ramp of a compiled shot for which samples are asked for is sampled at a rate that its clock line can
produce, unless the clock does not tell the period asked for from none: then it is not sampled at all. -/
theorem isSampled_iff (h : p.shot.Reachable raw) (hp : p.shot.IsPlain) (hq : (stop time).run p = .ok () q)
    (he : e.IsIn q.shot) (hrate : 0 < e.instruction.action.sampleRate) (hduration : 0 < e.timing.duration) :
    q.shot.IsSampled e ↔
      ¬ (q.shot.grid e.instruction).Swallows (1 / e.instruction.action.sampleRate) := by
  have hgrown : q.shot.Grown raw := (moves_stop time).grown h.grown hq
  obtain ⟨s, hr, hplain, hl, hs⟩ := legal_of_stop_ok h hp hq
  have hlinks : SameLinks s s.advanced.checked := .of_eq rfl rfl rfl rfl rfl rfl
  have htables := hs ▸ hlinks.toSameTree.keepsTables hplain.keepsTables
  have hclock := hgrown.clocked.timebase_pos_of_timed hgrown.wellFormed htables he
    (isTimed_of_sampleRate hrate)
  rw [hs] at he hclock ⊢
  rw [isSampled_checked]
  exact hl.isSampled_iff_not_swallows hr he hclock hrate hduration

/-- A ramp with a thousand samples asked for in every tick, and one with a sample every twenty ticks. -/
private def twoRates : List Command := Session.bench ++ [
  .issue (.device 0 4) (.function 0 100 (some (polynomial [0, 1])) 1000) {},
  .issue (.device 0 5) (.function 0 100 (some (polynomial [0, 1])) 0.05) {}]

/-- A ramp for which samples are asked for, with the period that it got. -/
private def IsRamp (s : Shot) (id : Nat) (period : Int) : Prop :=
  (s.instruction? id).any fun i => 0 < i.action.sampleRate ∧ 0 < i.timing.duration ∧
    i.timing.samplePeriod = period ∧ ((s.grid i).Swallows (1 / i.action.sampleRate) ↔ period = 0)

private instance (s : Shot) (id : Nat) (period : Int) : Decidable (IsRamp s id period) :=
  inferInstanceAs (Decidable (_ = true))

private theorem exists_twoRates : ∃ p q : Progress, p.shot.Reachable false ∧ p.shot.IsPlain ∧
    (stop 200).run p = .ok () q ∧ IsRamp q.shot 0 0 ∧ IsRamp q.shot 1 20 :=
  exists_of_script twoRates (stop 200) Shot.IsPlain (fun s => IsRamp s 0 0 ∧ IsRamp s 1 20)
    (by decide) (by decide +kernel)

private theorem exists_ramp {s : Shot} {id : Nat} {period : Int} (h : IsRamp s id period) :
    ∃ e : Entry, e.IsIn s ∧ 0 < e.instruction.action.sampleRate ∧ 0 < e.timing.duration ∧
      e.timing.samplePeriod = period ∧
      ((s.grid e.instruction).Swallows (1 / e.instruction.action.sampleRate) ↔ period = 0) := by
  obtain ⟨i, hi, hd⟩ := (Option.any_eq_true _ _).mp h
  exact ⟨⟨id, i⟩, hi, of_decide_eq_true hd⟩

/-- Only the slower one of them is sampled. -/
theorem isSampled_iff_twoRates : ∃ (p q : Progress) (fast slow : Entry), p.shot.Reachable false ∧
    p.shot.IsPlain ∧ (stop 200).run p = .ok () q ∧ fast.IsIn q.shot ∧ slow.IsIn q.shot ∧
    ¬ q.shot.IsSampled fast ∧ q.shot.IsSampled slow := by
  obtain ⟨p, q, hr, hp, hq, hfast, hslow⟩ := exists_twoRates
  obtain ⟨fast, hf, hfr, hfd, -, hfs⟩ := exists_ramp hfast
  obtain ⟨slow, hs, hsr, hsd, -, hss⟩ := exists_ramp hslow
  refine ⟨p, q, fast, slow, hr, hp, hq, hf, hs, fun hsampled => ?_, ?_⟩
  · exact (isSampled_iff hr hp hq hf hfr hfd).mp hsampled (hfs.mpr rfl)
  · exact (isSampled_iff hr hp hq hs hsr hsd).mpr fun h => absurd (hss.mp h) (by decide)

/-- A compiled shot with a ramp that is not sampled although samples are asked for. -/
theorem not_isSampled_twoRates : ¬ ∀ (p q : Progress) (time : Float) (e : Entry),
    p.shot.Reachable false → p.shot.IsPlain → (stop time).run p = .ok () q → e.IsIn q.shot →
      0 < e.instruction.action.sampleRate → 0 < e.timing.duration → q.shot.IsSampled e := by
  intro hall
  obtain ⟨p, q, hr, hp, hq, hfast, -⟩ := exists_twoRates
  obtain ⟨e, he, hrate, hduration, hperiod, -⟩ := exists_ramp hfast
  have hsampled := hall p q 200 e hr hp hq he hrate hduration
  have := hsampled.1
  omega

end Compile
end ShotTiming
