import Mathlib.Data.Int.Basic
import Mathlib.Tactic.Ring
import ShotTiming.Instruction

/-! # The samples of a ramp

The loop goes on from sample to sample as long as it is within the ramp. So it takes one sample more than
periods fit in the ramp, and comes to the end if the ramp is in whole periods.
-/
namespace ShotTiming.Timing

variable {t : Timing}

/-- The number of samples from some tick of a ramp on. -/
private def stepsFrom (t : Timing) (tick : Int) : Nat := ((t.duration - tick) / t.samplePeriod + 1).toNat

private theorem stepsFrom_of_le (h : 0 < t.samplePeriod) {tick : Int} (hle : tick ≤ t.duration) :
    t.stepsFrom tick = t.stepsFrom (tick + t.samplePeriod) + 1 := by
  have hnext : (t.duration - (tick + t.samplePeriod)) / t.samplePeriod =
      (t.duration - tick) / t.samplePeriod - 1 := by
    rw [show t.duration - (tick + t.samplePeriod) = t.duration - tick + t.samplePeriod * (-1) by ring,
      Int.add_mul_ediv_left _ _ (Int.ne_of_gt h)]
    rfl
  have hnonneg : 0 ≤ (t.duration - tick) / t.samplePeriod := Int.ediv_nonneg (by omega) (Int.le_of_lt h)
  unfold stepsFrom
  omega

private theorem stepsFrom_of_lt (h : 0 < t.samplePeriod) {tick : Int} (hlt : t.duration < tick) :
    t.stepsFrom tick = 0 := by
  have hneg : (t.duration - tick) / t.samplePeriod < 0 := Int.ediv_neg_of_neg_of_pos (by omega) h
  unfold stepsFrom
  omega

private theorem toList_samplesFrom (h : 0 < t.samplePeriod) (tick : Int) (samples : Array Int) :
    (t.samplesFrom h tick samples).toList =
      samples.toList ++
        (List.range (t.stepsFrom tick)).map fun i : Nat => t.ticks + tick + i * t.samplePeriod := by
  induction tick, samples using samplesFrom.induct t h with
  | case1 tick samples hle ih =>
    have hsteps : (fun i : Nat => t.ticks + tick + i * t.samplePeriod) ∘ Nat.succ =
        fun i : Nat => t.ticks + (tick + t.samplePeriod) + i * t.samplePeriod := by
      funext i
      simp only [Function.comp_apply]
      push_cast
      ring
    rw [samplesFrom, if_pos hle, ih, stepsFrom_of_le h hle, List.range_succ_eq_map, List.map_cons,
      List.map_map, hsteps, Array.toList_push, List.append_assoc]
    simp
  | case2 tick samples hlt =>
    rw [samplesFrom, if_neg hlt, stepsFrom_of_lt h (by omega)]
    simp

/-- The loop counts its samples in advance. -/
theorem sampleTimes_eq (t : Timing) : t.sampleTimes = (List.range t.sampleCount).map t.sampleAt := by
  unfold sampleTimes sampleCount
  split_ifs with hone
  · simp [sampleAt]
  · have hs : 0 < t.samplePeriod := by omega
    have hnonneg : 0 ≤ t.duration / t.samplePeriod := Int.ediv_nonneg (by omega) (Int.le_of_lt hs)
    have hsteps : t.stepsFrom 0 = (t.duration / t.samplePeriod).toNat + 1 := by
      unfold stepsFrom
      rw [Int.sub_zero]
      omega
    rw [toList_samplesFrom, hsteps, List.nil_append]
    simp only [Int.add_zero]
    rfl

theorem mem_sampleTimes {n : Int} :
    n ∈ t.sampleTimes ↔ ∃ i < t.sampleCount, n = t.ticks + i * t.samplePeriod := by
  simp only [sampleTimes_eq, List.mem_map, List.mem_range, sampleAt, eq_comm (a := n)]

/-- A ramp is sampled evenly from its start on, as long as samples fit. -/
structure SamplesEvenly (t : Timing) : Prop where
  exactly : t.sampleTimes = (List.range ((t.duration / t.samplePeriod).toNat + 1)).map t.sampleAt
  rising : t.sampleTimes.Pairwise (· < ·)
  within : ∀ n ∈ t.sampleTimes, t.ticks ≤ n ∧ n ≤ t.finish
  complete : ∀ i : Nat, t.sampleAt i ≤ t.finish → t.sampleAt i ∈ t.sampleTimes

section

variable (hd : 0 < t.duration) (hs : 0 < t.samplePeriod)

include hd hs

theorem sampleCount_of_pos : t.sampleCount = (t.duration / t.samplePeriod).toNat + 1 := by
  unfold sampleCount
  rw [if_neg (by omega)]

/-- A sample is one of the ramp exactly if it is not behind its end. -/
theorem sampleAt_le_finish {i : Nat} : t.sampleAt i ≤ t.finish ↔ i < t.sampleCount := by
  have hnonneg : 0 ≤ t.duration / t.samplePeriod := Int.ediv_nonneg (by omega) (Int.le_of_lt hs)
  have hfit : (i : Int) ≤ t.duration / t.samplePeriod ↔ i * t.samplePeriod ≤ t.duration :=
    Int.le_ediv_iff_mul_le hs
  rw [sampleCount_of_pos hd hs]
  unfold sampleAt finish
  omega

theorem samplesEvenly : t.SamplesEvenly where
  exactly := by rw [sampleTimes_eq, sampleCount_of_pos hd hs]
  rising := by
    rw [sampleTimes_eq, List.pairwise_map]
    refine List.pairwise_lt_range.imp fun {i j} hij => ?_
    have hlt : (i : Int) * t.samplePeriod < j * t.samplePeriod :=
      Int.mul_lt_mul_of_pos_right (by omega) hs
    unfold sampleAt
    omega
  within n hn := by
    rw [sampleTimes_eq] at hn
    obtain ⟨i, hi, rfl⟩ := List.mem_map.mp hn
    have hge : 0 ≤ (i : Int) * t.samplePeriod := Int.mul_nonneg (by omega) (Int.le_of_lt hs)
    refine ⟨?_, (sampleAt_le_finish hd hs).mpr (List.mem_range.mp hi)⟩
    unfold sampleAt
    omega
  complete i hi := by
    rw [sampleTimes_eq]
    exact List.mem_map_of_mem (List.mem_range.mpr ((sampleAt_le_finish hd hs).mp hi))

/-- The last sample is at the end of the ramp exactly if the ramp is in whole periods. -/
theorem getLast?_sampleTimes_eq : t.sampleTimes.getLast? = some t.finish ↔ t.samplePeriod ∣ t.duration := by
  have hnonneg : 0 ≤ t.duration / t.samplePeriod := Int.ediv_nonneg (by omega) (Int.le_of_lt hs)
  have hlast : t.sampleTimes.getLast? = some (t.sampleAt (t.duration / t.samplePeriod).toNat) := by
    rw [sampleTimes_eq, sampleCount_of_pos hd hs, List.range_succ, List.map_append, List.map_singleton,
      List.getLast?_concat]
  rw [hlast, Option.some_inj, sampleAt, finish, Int.toNat_of_nonneg hnonneg, Int.add_right_inj]
  exact ⟨fun h => ⟨_, by rw [Int.mul_comm]; exact h.symm⟩, Int.ediv_mul_cancel⟩

end

end ShotTiming.Timing
