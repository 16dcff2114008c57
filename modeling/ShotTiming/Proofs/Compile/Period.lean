import ShotTiming.Proofs.Compile.Verdict
import ShotTiming.Proofs.Samples

/-! # Where the pulses of a compiled shot keep the period of a clock line

Validation compares starts and ends, and the sample period of each ramp with the period of the line.
What it leaves open is a tick of one instruction between two samples of another one.
-/
namespace ShotTiming

namespace Timing

variable {t : Timing} {m n period : Int}

/-- The ticks at which a clock line has to pulse for an instruction: every sample and the end. -/
def Needs (t : Timing) (tick : Int) : Prop := tick ∈ t.sampleTimes ∨ tick = t.finish

/-- A sample that is neither at the start nor at the end. -/
def IsInner (t : Timing) (tick : Int) : Prop :=
  0 < t.samplePeriod ∧ t.ticks < tick ∧ tick < t.finish ∧ t.samplePeriod ∣ tick - t.ticks

/-- A tick is on a sample, or a period away from the samples before and after it. -/
def LeavesRoom (t : Timing) (period tick : Int) : Prop :=
  t.samplePeriod ∣ tick - t.ticks ∨
    (period ≤ (tick - t.ticks) % t.samplePeriod ∧
      (tick - t.ticks) % t.samplePeriod + period ≤ t.samplePeriod)

/-- A ramp is sampled at both ends. -/
def InWholeSamples (t : Timing) : Prop :=
  0 ≤ t.duration ∧ (0 < t.duration → 0 < t.samplePeriod → t.samplePeriod ∣ t.duration)

/-- The samples of a ramp in whole samples. -/
private theorem mem_sampleTimes_of_pos (hw : t.InWholeSamples) (hs : 0 < t.samplePeriod)
    (hd : 0 < t.duration) :
    n ∈ t.sampleTimes ↔ t.ticks ≤ n ∧ n ≤ t.finish ∧ t.samplePeriod ∣ n - t.ticks := by
  obtain ⟨c, hc⟩ := hw.2 hd hs
  have hquot : t.duration / t.samplePeriod = c := by
    rw [hc, Int.mul_ediv_cancel_left _ (Int.ne_of_gt hs)]
  have hcount : t.sampleCount = c.toNat + 1 := by
    have hone : ¬ (t.samplePeriod ≤ 0 ∨ t.duration ≤ 0) := by omega
    simp [sampleCount, hone, hquot]
  rw [mem_sampleTimes, hcount, finish, hc]
  constructor
  · rintro ⟨i, hi, rfl⟩
    have hi' : (i : Int) ≤ c := by
      have : 0 < c := Int.pos_of_mul_pos_left (by rwa [Int.mul_comm, ← hc]) hs
      omega
    have hlow : 0 ≤ (i : Int) * t.samplePeriod := Int.mul_nonneg (by omega) (Int.le_of_lt hs)
    have hhigh : (i : Int) * t.samplePeriod ≤ c * t.samplePeriod :=
      Int.mul_le_mul_of_nonneg_right hi' (Int.le_of_lt hs)
    rw [Int.mul_comm c] at hhigh
    exact ⟨by omega, by omega, i, by rw [Int.mul_comm]; omega⟩
  · rintro ⟨hlow, hhigh, k, hk⟩
    have hk₀ : 0 ≤ k := Int.nonneg_of_mul_nonneg_right (a := t.samplePeriod) (by omega) hs
    have hkc : k ≤ c := Int.le_of_mul_le_mul_left (a := t.samplePeriod) (by omega) hs
    refine ⟨k.toNat, by omega, ?_⟩
    rw [Int.toNat_of_nonneg hk₀, Int.mul_comm]
    omega

/-- A ramp in whole samples is sampled at its ends and at its inner samples. -/
theorem needs_iff (hw : t.InWholeSamples) : t.Needs n ↔ t.IsEdge n ∨ t.IsInner n := by
  unfold Needs IsEdge IsInner
  by_cases hone : t.samplePeriod ≤ 0 ∨ t.duration ≤ 0
  · have hsingle : n ∈ t.sampleTimes ↔ n = t.ticks := by
      have hcount : t.sampleCount = 1 := by simp [sampleCount, hone]
      simp [mem_sampleTimes, hcount]
    have hnone : ¬ (0 < t.samplePeriod ∧ t.ticks < n ∧ n < t.finish ∧ t.samplePeriod ∣ n - t.ticks) := by
      rintro ⟨hs, h₁, h₂, -⟩
      unfold finish at h₂
      omega
    rw [hsingle, or_iff_left hnone]
  · have hs : 0 < t.samplePeriod := by omega
    have hd : 0 < t.duration := by omega
    rw [mem_sampleTimes_of_pos hw hs hd]
    constructor
    · rintro (⟨hlow, hhigh, hk⟩ | rfl)
      · by_cases h₁ : n = t.ticks
        · exact .inl (.inl h₁)
        · by_cases h₂ : n = t.finish
          · exact .inl (.inr h₂)
          · exact .inr ⟨hs, by omega, by omega, hk⟩
      · exact .inl (.inr rfl)
    · rintro ((rfl | rfl) | ⟨-, hlow, hhigh, hk⟩)
      · refine .inl ⟨Int.le_refl _, ?_, by simp⟩
        unfold finish
        omega
      · exact .inr rfl
      · exact .inl ⟨by omega, by omega, hk⟩

/-- Every tick that a sampled ramp needs is a whole number of samples behind its start. -/
theorem dvd_of_needs (hw : t.InWholeSamples) (hs : 0 < t.samplePeriod) (h : t.Needs n) :
    t.samplePeriod ∣ n - t.ticks := by
  rcases (needs_iff hw).mp h with (rfl | rfl) | h
  · simp
  · rcases Int.lt_or_le 0 t.duration with hd | hd
    · have := hw.2 hd hs
      rwa [finish, show t.ticks + t.duration - t.ticks = t.duration by omega]
    · have : t.finish - t.ticks = 0 := by
        have := hw.1
        unfold finish
        omega
      simp [this]
  · exact h.2.2.2

/-- Two ticks of one ramp are apart if its ends are and its samples are. -/
theorem apart_self (hw : t.InWholeSamples) (hperiod : ¬ t.isPoint → 0 < t.samplePeriod → period ≤ t.samplePeriod)
    (hedges : t.IsEdge m → t.IsEdge n → m + period ≤ n) (hm : t.Needs m) (hn : t.Needs n) (hlt : m < n) :
    m + period ≤ n := by
  have hsampled : t.IsInner m ∨ t.IsInner n → m + period ≤ n := by
    intro hinner
    obtain ⟨hs, hp⟩ : 0 < t.samplePeriod ∧ ¬ t.isPoint := by
      simp only [isPoint, beq_iff_eq]
      rcases hinner with ⟨hs, h₁, h₂, -⟩ | ⟨hs, h₁, h₂, -⟩ <;> unfold finish at h₂ <;> omega
    have hdvd := Int.dvd_sub (dvd_of_needs hw hs hn) (dvd_of_needs hw hs hm)
    have hle := Int.le_of_dvd (by omega) hdvd
    have := hperiod hp hs
    omega
  rcases (needs_iff hw).mp hm with hm | hm
  · rcases (needs_iff hw).mp hn with hn | hn
    · exact hedges hm hn
    · exact hsampled (.inr hn)
  · exact hsampled (.inl hm)

/-- An inner sample is apart from a tick that leaves room between the samples. -/
theorem IsInner.apart (hw : t.InWholeSamples) (hperiod : period ≤ t.samplePeriod) (hm : t.IsInner m)
    (hroom : t.ticks < n → n < t.finish → t.LeavesRoom period n) :
    (m < n → m + period ≤ n) ∧ (n < m → n + period ≤ m) := by
  obtain ⟨hs, hlow, hhigh, hdvd⟩ := hm
  have hfinish : t.samplePeriod ∣ t.finish - m := by
    have := Int.dvd_sub (dvd_of_needs hw hs (.inr rfl : t.Needs t.finish)) hdvd
    rwa [show t.finish - t.ticks - (m - t.ticks) = t.finish - m by omega] at this
  have hstart := Int.le_of_dvd (by omega) hdvd
  have hend := Int.le_of_dvd (by omega) hfinish
  have hr₀ := Int.emod_nonneg (n - t.ticks) (Int.ne_of_gt hs)
  have hr₁ := Int.emod_lt_of_pos (n - t.ticks) hs
  have hsample : t.samplePeriod ∣ n - (n - t.ticks) % t.samplePeriod - m := by
    have := Int.dvd_sub (Int.dvd_self_sub_emod (x := n - t.ticks)) hdvd
    rwa [show n - t.ticks - (n - t.ticks) % t.samplePeriod - (m - t.ticks) =
      n - (n - t.ticks) % t.samplePeriod - m by omega] at this
  have hnext : t.samplePeriod ∣ n - t.ticks → t.samplePeriod ∣ n - m := fun h => by
    have := Int.dvd_sub h hdvd
    rwa [show n - t.ticks - (m - t.ticks) = n - m by omega] at this
  refine ⟨fun hlt => ?_, fun hlt => ?_⟩
  · by_cases hin : n < t.finish
    · rcases hroom (by omega) hin with hn | ⟨hbefore, -⟩
      · have := Int.le_of_dvd (by omega) (hnext hn)
        omega
      · by_contra hclose
        have := Int.le_of_dvd (by omega) (Int.dvd_neg.mpr hsample)
        omega
    · omega
  · by_cases hin : t.ticks < n
    · rcases hroom hin (by omega) with hn | ⟨-, hafter⟩
      · have := Int.le_of_dvd (by omega) (Int.dvd_neg.mpr (hnext hn))
        omega
      · have := Int.le_of_dvd (by omega) (Int.dvd_neg.mpr hsample)
        omega
    · omega

/-- A tick that is apart from all that a ramp needs leaves room between its samples. -/
theorem leavesRoom_of_apart (hw : t.InWholeSamples) (hs : 0 < t.samplePeriod) (hlow : t.ticks < n)
    (hhigh : n < t.finish)
    (hapart : ∀ m, t.Needs m → (m < n → m + period ≤ n) ∧ (n < m → n + period ≤ m)) :
    t.LeavesRoom period n := by
  by_cases hdvd : t.samplePeriod ∣ n - t.ticks
  · exact .inl hdvd
  · have hr₀ := Int.emod_nonneg (n - t.ticks) (Int.ne_of_gt hs)
    have hr₁ := Int.emod_lt_of_pos (n - t.ticks) hs
    have hr : (n - t.ticks) % t.samplePeriod ≠ 0 := fun h => hdvd (Int.dvd_of_emod_eq_zero h)
    obtain ⟨q, hq⟩ : ∃ q, q = n - (n - t.ticks) % t.samplePeriod := ⟨_, rfl⟩
    have hdvdq : t.samplePeriod ∣ q - t.ticks := by
      have := Int.dvd_self_sub_emod (x := n - t.ticks) (m := t.samplePeriod)
      rwa [show n - t.ticks - (n - t.ticks) % t.samplePeriod = q - t.ticks by omega] at this
    have hstart : t.ticks ≤ q := by
      by_contra hneg
      have := Int.le_of_dvd (by omega) (Int.dvd_neg.mpr hdvdq)
      omega
    have hend : t.samplePeriod ≤ t.finish - q := by
      have := Int.dvd_sub (dvd_of_needs hw hs (.inr rfl : t.Needs t.finish)) hdvdq
      rw [show t.finish - t.ticks - (q - t.ticks) = t.finish - q by omega] at this
      exact Int.le_of_dvd (by omega) this
    -- The samples in front of the tick and behind it.
    have hneeds : ∀ m, t.ticks ≤ m → m ≤ t.finish → t.samplePeriod ∣ m - t.ticks → t.Needs m := by
      intro m h₁ h₂ h₃
      refine (needs_iff hw).mpr ?_
      rcases Int.lt_or_eq_of_le h₁ with h₁ | rfl
      · rcases Int.lt_or_eq_of_le h₂ with h₂ | rfl
        · exact .inr ⟨hs, h₁, h₂, h₃⟩
        · exact .inl (.inr rfl)
      · exact .inl (.inl rfl)
    have hbefore := (hapart q (hneeds q hstart (by omega) hdvdq)).1 (by omega)
    have hnext : t.samplePeriod ∣ q + t.samplePeriod - t.ticks := by
      rw [show q + t.samplePeriod - t.ticks = q - t.ticks + t.samplePeriod by omega]
      exact Int.dvd_add hdvdq (Int.dvd_refl _)
    have hafter := (hapart (q + t.samplePeriod) (hneeds _ (by omega) (by omega) hnext)).2 (by omega)
    exact .inr ⟨by omega, by omega⟩

end Timing

namespace Shot

variable {s : Shot} {line : Nat}

/-- All ticks that a clock line has to pulse at for the instructions it drives leave its period between
them. -/
def KeepsPeriod (s : Shot) (line : Nat) : Prop :=
  ∀ a b, s.Drives line a → s.Drives line b → a.timing.segment = b.timing.segment →
    ∀ m n, a.timing.Needs m → b.timing.Needs n → m < n → m + (s.limitsAt line).periodTicks ≤ n

/-- Wherever an instruction needs a tick within a sampled ramp of another output, the tick is on a
sample of the ramp or a period away from the samples around it. -/
def LeavesRoom (s : Shot) (line : Nat) : Prop :=
  ∀ a b, s.Drives line a → s.Drives line b → a.id ≠ b.id → a.timing.segment = b.timing.segment →
    0 < a.timing.samplePeriod → ∀ n, b.timing.Needs n → a.timing.ticks < n → n < a.timing.finish →
      a.timing.LeavesRoom (s.limitsAt line).periodTicks n

theorem Contains.inWholeSamples {e : Entry} (h : s.Contains e) : e.timing.InWholeSamples :=
  ⟨h.duration, h.samples⟩

/-- On a legal shot, a line keeps its period exactly if ticks within sampled ramps leave room. -/
theorem Legal.keepsPeriod_iff (h : s.Legal) (hk : s.kind? line = some .clockLine) :
    s.KeepsPeriod line ↔ s.LeavesRoom line := by
  have hpaces := h.lines line hk
  have hwhole : ∀ e, s.Drives line e → e.timing.InWholeSamples := fun e he =>
    (h.contains e he.1 he.2.1).inWholeSamples
  constructor
  · intro hkeeps a b ha hb _ hseg hs n hn hlow hhigh
    refine Timing.leavesRoom_of_apart (hwhole a ha) hs hlow hhigh fun m hm => ⟨fun hlt => ?_, fun hlt => ?_⟩
    · exact hkeeps a b ha hb hseg m n hm hn hlt
    · exact hkeeps b a hb ha hseg.symm n m hn hm hlt
  · intro hroom a b ha hb hseg m n hm hn hlt
    have hperiod : ∀ e t, s.Drives line e → e.timing.IsInner t →
        (s.limitsAt line).periodTicks ≤ e.timing.samplePeriod := by
      rintro e t he ⟨hs, h₁, h₂, -⟩
      refine hpaces.samples e he ?_ hs
      simp only [Timing.isPoint, beq_iff_eq]
      unfold Timing.finish at h₂
      omega
    by_cases hid : a.id = b.id
    · obtain rfl := eq_of_id ha.1 hb.1 hid
      exact Timing.apart_self (hwhole a ha) (hpaces.samples a ha)
        (fun h₁ h₂ => hpaces.edges a a ha ha rfl m n h₁ h₂ hlt) hm hn hlt
    · rcases (Timing.needs_iff (hwhole a ha)).mp hm with hm' | hm'
      · rcases (Timing.needs_iff (hwhole b hb)).mp hn with hn' | hn'
        · exact hpaces.edges a b ha hb hseg m n hm' hn' hlt
        · exact (hn'.apart (hwhole b hb) (hperiod b n hb hn')
            (hroom b a hb ha (Ne.symm hid) hseg.symm hn'.1 m hm)).2 hlt
      · exact (hm'.apart (hwhole a ha) (hperiod a m ha hm')
          (hroom a b ha hb hid hseg hm'.1 n hn)).1 hlt

/-! ## Compiled shots -/

theorem drives_checked {e : Entry} : s.advanced.checked.Drives line e ↔ s.Drives line e := by
  have hlinks : SameLinks s s.advanced.checked := .of_eq rfl rfl rfl rfl rfl rfl
  have hshares : ∀ p, s.advanced.checked.SharesClock line p ↔ s.SharesClock line p :=
    fun _ => hlinks.sharesClock
  unfold Drives
  simp only [hshares]
  rfl

theorem keepsPeriod_checked : s.advanced.checked.KeepsPeriod line ↔ s.KeepsPeriod line := by
  unfold KeepsPeriod
  simp only [drives_checked]
  rfl

theorem leavesRoom_checked : s.advanced.checked.LeavesRoom line ↔ s.LeavesRoom line := by
  unfold LeavesRoom
  simp only [drives_checked]
  rfl

end Shot

namespace Compile
open Shot

variable {raw : Bool} {p q : Progress} {time : Float} {line : Nat}

/-- A compiled shot keeps the period of a clock line exactly if ticks within sampled ramps leave room,
which validation does not look at. -/
theorem keepsPeriod_iff_leavesRoom (h : p.shot.Reachable raw) (hp : p.shot.IsPlain)
    (hq : (stop time).run p = .ok () q) (hk : q.shot.kind? line = some .clockLine) :
    q.shot.KeepsPeriod line ↔ q.shot.LeavesRoom line := by
  obtain ⟨s, -, -, hl, hs⟩ := legal_of_stop_ok h hp hq
  have hk' : s.kind? line = some .clockLine := by
    rw [hs] at hk
    exact hk
  rw [hs, keepsPeriod_checked, leavesRoom_checked]
  exact hl.keepsPeriod_iff hk'

/-- A ramp with a sample at tick 10, and on another output of the line a value at tick 15. -/
private def stray : List Command := Session.bench ++ [
  .issue (.device 0 4) (.function 0 100 (some (polynomial [0, 1])) 0.1) {},
  .issue (.device 0 5) (.constant 15 1) {}]

/-- An instruction on an output of the line of the bench needs a tick of the first segment. -/
private def NeedsAt (s : Shot) (id output : Nat) (tick : Int) : Prop :=
  (s.instruction? id).any fun i =>
    i.kind.isTimed ∧ i.owner = some (.device output) ∧ i.timing.segment = 0 ∧ tick ∈ i.timing.sampleTimes

private instance (s : Shot) (id output : Nat) (tick : Int) : Decidable (NeedsAt s id output tick) :=
  inferInstanceAs (Decidable (_ = true))

private theorem drives_of_needsAt {s : Shot} {id output : Nat} {tick : Int}
    (h : NeedsAt s id output tick) (ho : s.parent? output = some (.device 3))
    (hc : s.parent? 3 = some (.device 2)) (hk : s.kind? 3 = some .clockableDevice)
    (hk' : s.kind? output = some .output) :
    ∃ e : Entry, s.Drives 2 e ∧ e.timing.segment = 0 ∧ e.timing.Needs tick := by
  obtain ⟨i, hi, hd⟩ := (Option.any_eq_true _ _).mp h
  obtain ⟨ht, hown, hseg, htick⟩ := of_decide_eq_true hd
  refine ⟨⟨id, i⟩, ⟨hi, ht, output, ?_, hown⟩, hseg, .inl htick⟩
  exact .step (.step .self hc (by simp [hk])) ho (by simp [hk'])

private def IsStray (s : Shot) : Prop :=
  (s.kind? 2 = some .clockLine ∧ s.kind? 3 = some .clockableDevice ∧ s.kind? 4 = some .output ∧
    s.kind? 5 = some .output) ∧
  (s.parent? 3 = some (.device 2) ∧ s.parent? 4 = some (.device 3) ∧ s.parent? 5 = some (.device 3)) ∧
  NeedsAt s 0 4 10 ∧ NeedsAt s 1 5 15 ∧ (s.limitsAt 2).periodTicks = 10

private instance (s : Shot) : Decidable (IsStray s) := inferInstanceAs (Decidable (_ ∧ _))

private theorem exists_stray : ∃ p q : Progress, p.shot.Reachable false ∧ p.shot.IsPlain ∧
    (stop 200).run p = .ok () q ∧ q.shot.kind? 2 = some .clockLine ∧ ¬ q.shot.KeepsPeriod 2 := by
  have hrun : ((Session.script stray).shot? 0).any fun s => s.IsPlain ∧
      isOk ((stop 200).run ⟨s, #[]⟩) ∧ IsStray (after (stop 200) ⟨s, #[]⟩).shot := by decide +kernel
  obtain ⟨s, hs, hd⟩ := (Option.any_eq_true _ _).mp hrun
  obtain ⟨hplain, hok, hstray⟩ := of_decide_eq_true hd
  obtain ⟨q, hq⟩ := exists_of_isOk hok
  rw [show after (stop 200) ⟨s, #[]⟩ = q by simp [after, hq]] at hstray
  obtain ⟨⟨hline, hcard, hkA, hkB⟩, ⟨hpc, hpA, hpB⟩, hA, hB, hperiod⟩ := hstray
  refine ⟨⟨s, #[]⟩, q, reachable_of_script (by decide) hs, hplain, hq, hline, fun hkeeps => ?_⟩
  obtain ⟨a, ha, hsa, hna⟩ := drives_of_needsAt hA hpA hpc hcard hkA
  obtain ⟨b, hb, hsb, hnb⟩ := drives_of_needsAt hB hpB hpc hcard hkB
  have := hkeeps a b ha hb (hsa.trans hsb.symm) 10 15 hna hnb (by decide)
  rw [hperiod] at this
  omega

/-- A compiled shot whose clock line does not keep its period. -/
theorem not_keepsPeriod_stray : ¬ ∀ (p q : Progress) (time : Float) (line : Nat),
    p.shot.Reachable false → p.shot.IsPlain → (stop time).run p = .ok () q →
      q.shot.kind? line = some .clockLine → q.shot.KeepsPeriod line := by
  intro hall
  obtain ⟨p, q, hr, hp, hq, hk, hnot⟩ := exists_stray
  exact hnot (hall p q 200 2 hr hp hq hk)

/-- It is the room between the samples that is missing there. -/
theorem not_leavesRoom_stray : ∃ p q : Progress, p.shot.Reachable false ∧ p.shot.IsPlain ∧
    (stop 200).run p = .ok () q ∧ q.shot.kind? 2 = some .clockLine ∧ ¬ q.shot.LeavesRoom 2 := by
  obtain ⟨p, q, hr, hp, hq, hk, hnot⟩ := exists_stray
  exact ⟨p, q, hr, hp, hq, hk, mt (keepsPeriod_iff_leavesRoom hr hp hq hk).mpr hnot⟩

end Compile
end ShotTiming
