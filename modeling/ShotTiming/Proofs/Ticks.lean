import ShotTiming.Proofs.Number.Division
import ShotTiming.Ticks

/-! # Counts of ticks that do not depend on the timebase -/
namespace ShotTiming

section

open Number

variable {slack ratio : Float}

theorem ceilWithin_nonneg (h : 0 ≤ rational ratio) : 0 ≤ ceilWithin slack ratio := by
  unfold ceilWithin
  dsimp only
  split
  · exact nearestEven_nonneg h
  · have hceil : (0 : ℚ) ≤ (rational ratio).ceil := h.trans Rat.le_ceil
    exact_mod_cast hceil

theorem ceilWithin_of_eq_zero (h : rational ratio = 0) : ceilWithin slack ratio = 0 := by
  have hnear : nearestEven 0 = 0 := nearestEven_intCast 0
  unfold ceilWithin
  rw [h, hnear]
  dsimp only
  split
  · rfl
  · exact Rat.ceil_intCast 0

end

/-- A value has a tick that a grid accepts. -/
structure Grid.Accepts (g : Grid) (value : Float) (n : Int) : Prop where
  ticks : n = (toTicks value g.timebase g.rounding).ticks
  within : (toTicks value g.timebase g.rounding).within g.rounding g.tolerance

theorem Grid.place_eq_ok {g : Grid} {value : Float} {n : Int} :
    g.place value = .ok n ↔ g.Accepts value n := by
  unfold place
  dsimp only
  by_cases hw : (toTicks value g.timebase g.rounding).within g.rounding g.tolerance
  · rw [if_pos hw]
    exact ⟨fun h => ⟨(Except.ok.inj h).symm, hw⟩, fun h => congrArg Except.ok h.ticks.symm⟩
  · rw [if_neg hw]
    exact iff_of_false (by simp) fun h => hw h.within

/-- Without a clock there is tick 0 only. -/
theorem Grid.Accepts.eq_zero {g : Grid} {value : Float} {n : Int} (h : g.Accepts value n)
    (hg : g.timebase ≤ 0) : n = 0 := by
  rw [h.ticks, toTicks, if_pos hg]

private theorem Grid.Accepts.fits_of_not_le {g : Grid} {value : Float} {n : Int} (h : g.Accepts value n)
    (hg : ¬ g.timebase ≤ 0) : fitsInt64 (value / g.timebase) := by
  by_contra hfit
  have hq : toTicks value g.timebase g.rounding = ⟨0, 1 / 0⟩ := by
    unfold toTicks
    rw [if_neg hg]
    simp [hfit]
  have hwithin := h.within
  rw [hq] at hwithin
  have hinf : (1 / 0 : Float).isInf := by decide
  simp [Quantised.within, hinf] at hwithin

/-- A clock takes only times whose ratio is in the range of the counts. -/
theorem Grid.Accepts.fits {g : Grid} {value : Float} {n : Int} (h : g.Accepts value n)
    (hg : 0 < g.timebase) : fitsInt64 (value / g.timebase) :=
  h.fits_of_not_le (Number.Double.not_le_of_lt hg)

/-- What takes a time is a clock or none; it is no number of its own. -/
theorem Grid.Accepts.pos_of_not_le {g : Grid} {value : Float} {n : Int} (h : g.Accepts value n)
    (hg : ¬ g.timebase ≤ 0) : 0 < g.timebase := by
  have hfit := h.fits_of_not_le hg
  rw [fitsInt64, Bool.and_eq_true] at hfit
  have hnan := (Number.isFinite_of_div hfit.1).2
  by_contra hpos
  exact hg ((Number.Double.not_lt_iff (by decide) hnan).mp hpos)

/-- A clock takes numbers only. -/
theorem Grid.Accepts.not_isNaN {g : Grid} {value : Float} {n : Int} (h : g.Accepts value n)
    (hg : 0 < g.timebase) : ¬ value.isNaN := by
  intro hnan
  have hfit := h.fits hg
  rw [fitsInt64, Number.not_isFinite_of_isNaN (Number.isNaN_div _ hnan), Bool.false_and] at hfit
  cases hfit

open Number in
/-- No time takes no ticks, on any grid on which it has a tick. -/
theorem Grid.place_zero {g : Grid} {n : Int} (h : g.place 0 = .ok n) : n = 0 := by
  have hq : (toTicks 0 g.timebase g.rounding).ticks = 0 := by
    unfold toTicks
    split
    · rfl
    · dsimp only
      split
      · split
        · exact ceilWithin_of_eq_zero (rational_zero_div _)
        · have haway : nearestAway 0 = 0 := by decide +kernel
          rw [rational_zero_div, haway]
      · rfl
  unfold place at h
  dsimp only at h
  split at h
  · cases h
    exact hq
  · cases h

end ShotTiming
