import ShotTiming.Proofs.Compile.Placing
import ShotTiming.Proofs.Shot.Plain
import ShotTiming.Proofs.Shot.Settled
import ShotTiming.Validation.Output

/-! # The segments between the waits

In a settled shot whose waits have a time, both searches for the segment of a time count waits: the
one for the waits themselves those that are before it, and the other one those that are not after it.
-/
namespace ShotTiming.Shot
open Number

/-- The number of waits at times of some sort. -/
def countWaits (s : Shot) (sort : Float → Bool) : Nat :=
  (List.range s.instructions.size).countP fun id =>
    (s.instruction? id).any fun w => w.kind == .wait && sort w.time

/-- When a segment starts: at zero, or a dead time after the wait in front of it. -/
inductive SegmentStart (s : Shot) : Nat → Float → Prop
  | first : SegmentStart s 0 0
  | behind {k : Nat} {w : Entry} : w.IsIn s → s.waits[k]? = some w.id →
    SegmentStart s (k + 1) (w.instruction.time + s.deadTime)

/-- The first of the waits that come after a time. -/
structure IsFirstAfter (s : Shot) (time : Float) (w : Entry) : Prop where
  isIn : w.IsIn s
  kind : w.instruction.kind = .wait
  after : time < w.instruction.time
  first : ∀ v : Entry, v.IsIn s → v.instruction.kind = .wait → time < v.instruction.time →
    w = v ∨ w.instruction.time < v.instruction.time

variable {s : Shot} {e w : Entry}

theorem waitAfter?_eq_some :
    s.waitAfter? e = some w ↔ s.waits[e.timing.segment]? = some w.id ∧ w.IsIn s := by
  simp only [waitAfter?, Option.bind_eq_some_iff, Option.map_eq_some_iff]
  constructor
  · rintro ⟨id, hid, i, hi, rfl⟩
    exact ⟨hid, hi⟩
  · rintro ⟨hid, hin⟩
    exact ⟨w.id, hid, w.instruction, hin, rfl⟩

theorem countWaits_congr {sort sort' : Float → Bool}
    (h : ∀ w : Entry, w.IsIn s → w.instruction.kind = .wait →
      sort w.instruction.time = sort' w.instruction.time) : s.countWaits sort = s.countWaits sort' := by
  refine List.countP_congr fun id _ => ?_
  cases hi : s.instruction? id with
  | none => simp
  | some i =>
    by_cases hk : i.kind = .wait
    · simp [h ⟨id, i⟩ hi hk]
    · simp [hk]

namespace Settled

theorem mem_waits (h : s.Settled) (hp : s.KeepsTables) (hw : w.IsIn s) :
    w.id ∈ s.waits ↔ w.instruction.kind = .wait := by
  have howner : s.owner? w.id = w.instruction.owner := by simp [owner?, show s.instruction? _ = _ from hw]
  rw [h.wellFormed.isWait_iff hp hw, ← howner, ← h.wellFormed.instructions.mem_instructionsOf,
    ← Array.mem_toList_iff, h.waits.mem_iff]
  rfl

theorem exists_wait (h : s.Settled) {id : Nat} (hid : id ∈ s.waits) :
    ∃ i, s.instruction? id = some i := by
  rw [← Array.mem_toList_iff, h.waits.mem_iff] at hid
  have howner := h.wellFormed.instructions.mem_instructionsOf (h := .shot).mp hid
  exact exists_instruction (lt_of_owner? howner)

/-- The times of the waits, one by one. -/
theorem waitTimes_eq (h : s.Settled) :
    s.waitTimes = s.waits.map fun id => (s.instruction? id).elim 0 (·.time) := by
  rw [← Array.toList_inj, waitTimes, timesOf, Array.toList_filterMap, Array.toList_map,
    ← List.filterMap_eq_map]
  refine List.filterMap_congr fun id hid => ?_
  obtain ⟨i, hi⟩ := h.exists_wait (Array.mem_toList_iff.mp hid)
  simp [hi]

/-- The waits in order, and their times beside them. -/
theorem wait_at (h : s.Settled) {k : Nat} (hk : k < s.waits.size) :
    ∃ i, ∃ hk' : k < s.waitTimes.size, s.instruction? s.waits[k] = some i ∧ s.waitTimes[k] = i.time := by
  obtain ⟨i, hi⟩ := h.exists_wait (Array.getElem_mem hk)
  refine ⟨i, by simpa [h.waitTimes_eq] using hk, hi, ?_⟩
  simp [h.waitTimes_eq, hi]

theorem time_at (h : s.Settled) (hw : w.IsIn s) {k : Nat} (hk : s.waits[k]? = some w.id) :
    ∃ hk' : k < s.waitTimes.size, s.waitTimes[k] = w.instruction.time := by
  obtain ⟨hlt, hid⟩ := Array.getElem?_eq_some_iff.mp hk
  obtain ⟨i, hk', hi, htime⟩ := h.wait_at hlt
  refine ⟨hk', htime.trans (congrArg Instruction.time ?_)⟩
  exact Option.some_inj.mp (hi.symm.trans (hid ▸ hw))

theorem exists_index (h : s.Settled) (hp : s.KeepsTables) (hw : w.IsIn s)
    (hk : w.instruction.kind = .wait) : ∃ k : Nat, s.waits[k]? = some w.id :=
  Array.mem_iff_getElem?.mp ((h.mem_waits hp hw).mpr hk)

theorem size_waitTimes (h : s.Settled) : s.waitTimes.size = s.waits.size := by simp [h.waitTimes_eq]

/-- In some order, the waits are the instructions that are waits. -/
theorem waits_perm (h : s.Settled) (hp : s.KeepsTables) :
    s.waits.toList.Perm ((List.range s.instructions.size).filter fun id =>
      (s.instruction? id).any (·.kind == .wait)) := by
  have hnd : s.waits.toList.Nodup := h.waits.nodup_iff.mpr (h.wellFormed.instructions.nodup .shot)
  refine (List.perm_ext_iff_of_nodup hnd (List.nodup_range.filter _)).mpr fun id => ?_
  rw [Array.mem_toList_iff, List.mem_filter, List.mem_range, Option.any_eq_true]
  constructor
  · intro hid
    obtain ⟨i, hi⟩ := h.exists_wait hid
    have hk := (h.mem_waits hp (w := ⟨id, i⟩) hi).mp hid
    exact ⟨instruction?_eq_some hi, i, hi, by simp [hk]⟩
  · rintro ⟨-, i, hi, hk⟩
    exact (h.mem_waits hp (w := ⟨id, i⟩) hi).mpr (by simpa using hk)

/-- The search for the end of a sort of times counts the waits at such times. -/
theorem split_waitTimes (h : s.Settled) (hp : s.KeepsTables) {sort : Float → Bool}
    (hi : Sorted.Initial sort s.waitTimes) : Sorted.split sort s.waitTimes = s.countWaits sort := by
  rw [Sorted.split_eq_countP hi, waitTimes, timesOf, Array.toList_filterMap, List.countP_filterMap,
    (h.waits_perm hp).countP_eq, List.countP_filter, countWaits]
  refine List.countP_congr fun id _ => ?_
  cases s.instruction? id <;> simp [and_comm]

theorem segmentStart (h : s.Settled) {k : Nat} (hk : k ≤ s.waits.size) :
    s.SegmentStart k (ShotTiming.segmentStart s.waitTimes s.deadTime k) := by
  cases k with
  | zero => exact .first
  | succ k =>
    obtain ⟨i, hk', hi, htime⟩ := h.wait_at (k := k) (by omega)
    have hstart : ShotTiming.segmentStart s.waitTimes s.deadTime (k + 1) = i.time + s.deadTime := by
      rw [ShotTiming.segmentStart, Array.getD_eq_getD_getElem?, Array.getElem?_eq_getElem hk', htime]
      rfl
    rw [hstart]
    exact .behind (w := ⟨s.waits[k], i⟩) hi (Array.getElem?_eq_getElem (by omega))

/-! ## Waits that have a time -/

section

variable (h : s.Settled) (ht : ∀ id ∈ s.ownInstructions, s.IsTimely id)

include h ht

theorem waitTimes_lt {j k : Nat} (hj : j < s.waitTimes.size) (hk : k < s.waitTimes.size) (hjk : j < k) :
    s.waitTimes[j] < s.waitTimes[k] := by
  have hj' := h.size_waitTimes ▸ hj
  have hk' := h.size_waitTimes ▸ hk
  obtain ⟨a, _, ha, hta⟩ := h.wait_at hj'
  obtain ⟨b, _, hb, htb⟩ := h.wait_at hk'
  have hrise := List.pairwise_iff_getElem.mp (h.rising ht) j k (by simpa using hj') (by simpa using hk') hjk
  rw [hta, htb]
  exact (isEarlier_iff ha hb).mp (by simpa using hrise)

/-- The waits that come after a time stand behind those that do not. -/
theorem initial_not_before (time : Float) :
    Sorted.Initial (fun w => !(decide (time < w))) s.waitTimes := by
  intro i j hi hj hij hnot
  rcases Nat.lt_or_eq_of_le hij with hlt | rfl
  · have hw := h.waitTimes_lt ht hi hj hlt
    simp only [Bool.not_eq_true', decide_eq_false_iff_not] at hnot ⊢
    exact fun hb => hnot (Double.lt_trans hb hw)
  · exact hnot

/-- The waits that come before a time stand in front of those that do not. -/
theorem initial_before (time : Float) : Sorted.Initial (fun w => decide (w < time)) s.waitTimes := by
  intro i j hi hj hij hbefore
  rcases Nat.lt_or_eq_of_le hij with hlt | rfl
  · rw [decide_eq_true_iff] at hbefore ⊢
    exact Double.lt_trans (h.waitTimes_lt ht hi hj hlt) hbefore
  · exact hbefore

/-- In front of a wait are those before it in the order of the waits. -/
theorem split_before {k : Nat} (hk : k < s.waitTimes.size) :
    Sorted.split (fun w => decide (w < s.waitTimes[k])) s.waitTimes = k := by
  have hfront := fun {j : Nat} (hj : j < s.waitTimes.size) =>
    Sorted.holds_iff_lt_split (h.initial_before ht s.waitTimes[k]) hj
  simp only [decide_eq_true_iff] at hfront
  have hle : Sorted.split (fun w => decide (w < s.waitTimes[k])) s.waitTimes ≤ k :=
    Nat.not_lt.mp fun hlt => Double.lt_irrefl _ ((hfront hk).mpr hlt)
  refine Nat.le_antisymm hle (Nat.not_lt.mp fun hlt => ?_)
  exact Nat.lt_irrefl _ ((hfront (by omega)).mp (h.waitTimes_lt ht (by omega) hk hlt))

end

end Settled

/-! ## Instructions among the waits -/

/-- A settled shot whose waits have a time, with every instruction where the waits put it. -/
structure InPlace (s : Shot) : Prop extends s.Settled where
  isTimely : ∀ id ∈ s.ownInstructions, s.IsTimely id
  placed : ∀ e : Entry, e.IsIn s →
    ∃ t, s.placing s.waitTimes { e.instruction with timing := t } = .ok () e.timing

namespace InPlace

variable (h : s.InPlace) (he : e.IsIn s)

include h he

theorem segment_of_timed (ht : e.IsTimed) : e.timing.segment =
    Sorted.split (fun w => !(decide (e.instruction.time < w))) s.waitTimes := by
  obtain ⟨t, hplaced⟩ := h.placed e he
  rw [(Placing.instruction_eq_ok ht hplaced).1]
  unfold Entry.IsTimed Instruction.kind at ht
  unfold segmentOf
  cases ha : e.instruction.action <;> simp_all [Action.kind, InstructionKind.isTimed]

theorem segment_of_wait (hk : e.instruction.kind = .wait) : e.timing.segment =
    Sorted.split (fun w => decide (w < e.instruction.time)) s.waitTimes := by
  obtain ⟨t, hplaced⟩ := h.placed e he
  have hstatic : e.instruction.kind ≠ .static := by simp [hk]
  rw [(Placing.start_eq_ok hstatic hplaced).1]
  unfold Instruction.kind at hk
  unfold segmentOf
  cases ha : e.instruction.action <;> simp_all [Action.kind]

/-- Of the waits after a timed instruction, the first one stands at its segment. -/
theorem before_wait_iff (ht : e.IsTimed) {k : Nat} (hk : k < s.waitTimes.size) :
    e.instruction.time < s.waitTimes[k] ↔ e.timing.segment ≤ k := by
  have hsplit := Sorted.holds_iff_lt_split (h.initial_not_before h.isTimely e.instruction.time) hk
  rw [← h.segment_of_timed he ht] at hsplit
  simp only [Bool.not_eq_true', decide_eq_false_iff_not] at hsplit
  rw [← Nat.not_lt, ← hsplit, Classical.not_not]

/-- The segment of a wait is its position among the waits. -/
theorem segment_eq_index (hk : e.instruction.kind = .wait) {k : Nat} (hget : s.waits[k]? = some e.id) :
    e.timing.segment = k := by
  obtain ⟨hlt, htime⟩ := h.time_at he hget
  rw [h.segment_of_wait he hk, ← htime]
  exact h.split_before h.isTimely hlt

/-- Behind the last wait there is no wait after an instruction. -/
theorem not_before (hp : s.KeepsTables) (ht : e.IsTimed) (hnone : s.waitAfter? e = none) (hw : w.IsIn s)
    (hk : w.instruction.kind = .wait) : ¬ e.instruction.time < w.instruction.time := by
  intro hbefore
  obtain ⟨k, hget⟩ := h.exists_index hp hw hk
  obtain ⟨hlt, htime⟩ := h.time_at hw hget
  rw [← htime, h.before_wait_iff he ht hlt] at hbefore
  have hsegment : e.timing.segment < s.waits.size := by
    rw [← h.size_waitTimes]
    omega
  obtain ⟨i, -, hi, -⟩ := h.wait_at hsegment
  have hsome : s.waitAfter? e = some ⟨s.waits[e.timing.segment], i⟩ :=
    waitAfter?_eq_some.mpr ⟨Array.getElem?_eq_getElem hsegment, hi⟩
  cases hnone.symm.trans hsome

/-- The wait at the segment of an instruction is the first one after it. -/
theorem isFirstAfter (hp : s.KeepsTables) (ht : e.IsTimed) (hw : s.waitAfter? e = some w) :
    s.IsFirstAfter e.instruction.time w := by
  obtain ⟨hget, hin⟩ := waitAfter?_eq_some.mp hw
  obtain ⟨hlt, htime⟩ := h.time_at hin hget
  refine ⟨hin, (h.mem_waits hp hin).mp (Array.mem_of_getElem? hget), ?_, fun v hv hk hbefore => ?_⟩
  · rw [← htime]
    exact (h.before_wait_iff he ht hlt).mpr (Nat.le_refl _)
  · obtain ⟨k, hgetv⟩ := h.exists_index hp hv hk
    obtain ⟨hltv, htimev⟩ := h.time_at hv hgetv
    rw [← htimev, h.before_wait_iff he ht hltv] at hbefore
    rcases Nat.lt_or_eq_of_le hbefore with hgt | rfl
    · rw [← htime, ← htimev]
      exact .inr (h.waitTimes_lt h.isTimely hlt hltv hgt)
    · exact .inl (eq_of_id hin hv (Option.some_inj.mp (hget.symm.trans hgetv)))

theorem segment_le (hk : e.instruction.kind ≠ .static) : e.timing.segment ≤ s.waits.size := by
  rw [← h.size_waitTimes]
  by_cases ht : e.IsTimed
  · rw [h.segment_of_timed he ht]
    exact Sorted.split_le_size _ _
  · have hwait : e.instruction.kind = .wait := by
      unfold Entry.IsTimed at ht
      cases hi : e.instruction.kind <;> simp [hi, InstructionKind.isTimed] at hk ht ⊢
    rw [h.segment_of_wait he hwait]
    exact Sorted.split_le_size _ _

end InPlace

end ShotTiming.Shot
