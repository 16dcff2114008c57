import Mathlib.Data.List.Perm.Basic
import Mathlib.Logic.Equiv.Basic
import ShotTiming.Proofs.Shot.Settled

/-! # The same shot under other numbers

Two shots with the same devices and the same instructions under other numbers are timed alike: what a
timing depends on are the waits in order of their times and the fields of the instruction, and as long
as the waits are apart, their order does not depend on their numbers.
-/
namespace ShotTiming

/-- An instruction without the place that it was created at. -/
def Instruction.siteless (i : Instruction) : Instruction := { i with site := {} }

theorem Instruction.eq_of_siteless {i j : Instruction} (h : j.siteless = i.siteless) :
    j = { i with site := j.site } :=
  congrArg (fun k : Instruction => { k with site := j.site }) h

namespace Shot
open Number

/-- Two shots with the same devices and settings, up to the delays of the devices and their lists of
instructions. -/
structure SameBench (s s' : Shot) : Prop extends SameTree s s' where
  waitDelay : s'.waitDelay = s.waitDelay
  stopTime : s'.stopTime = s.stopTime
  limitsAt : ∀ id, s'.limitsAt id = s.limitsAt id

/-- Two shots with the same devices and settings, and the same instructions under other numbers. -/
structure Renumbers (σ : Equiv.Perm Nat) (s s' : Shot) : Prop extends SameBench s s' where
  instructions : ∀ id, (s'.instruction? (σ id)).map Instruction.siteless =
    (s.instruction? id).map Instruction.siteless

variable {s s' s'' : Shot} {σ : Equiv.Perm Nat} {id : Nat} {time : Float} {waits : Array Float}

namespace SameBench

theorem refl (s : Shot) : SameBench s s := ⟨.refl s, rfl, rfl, fun _ => rfl⟩

theorem symm (h : SameBench s s') : SameBench s' s :=
  ⟨h.toSameTree.symm, h.waitDelay.symm, h.stopTime.symm, fun id => (h.limitsAt id).symm⟩

theorem trans (h : SameBench s s') (h' : SameBench s' s'') : SameBench s s'' :=
  ⟨h.toSameTree.trans h'.toSameTree, h'.waitDelay.trans h.waitDelay, h'.stopTime.trans h.stopTime,
    fun id => (h'.limitsAt id).trans (h.limitsAt id)⟩

end SameBench

theorem limitsAt_sortOutputs (hs : s.DevicesLinked) (id : Nat) :
    s.sortOutputs.limitsAt id = s.limitsAt id := by
  rw [limitsAt, limitsAt, device?_sortOutputs hs]
  cases s.device? id with
  | none => rfl
  | some d =>
    simp only [Option.map_some, Option.elim_some]
    split <;> rfl

/-- Timing the instructions leaves the devices alone. -/
theorem sameBench_timed (hs : s.WellFormed) : SameBench s s.timed where
  toSameTree := (sameLinks_timed hs).toSameTree
  waitDelay := waitDelay_timed
  stopTime := stopTime_timed
  limitsAt id := by
    have htimed := sameLinks_orderedWaits.trans
      (sameLinks_timedOn (s := s.orderedWaits) s.sortedTimes (s.descendantInstructions .shot true))
    rw [timed, limitsAt_sortOutputs (htimed.wellFormed hs).devices]
    rfl

/-! ## Counterparts -/

namespace Renumbers

theorem symm (h : Renumbers σ s s') : Renumbers σ.symm s' s where
  toSameBench := h.toSameBench.symm
  instructions id := by
    have hid := h.instructions (σ.symm id)
    rw [Equiv.apply_symm_apply] at hid
    exact hid.symm

/-- The counterpart of an instruction differs from it in its site only. -/
theorem exists_instruction (h : Renumbers σ s s') {i : Instruction} (hi : s.instruction? id = some i) :
    ∃ site, s'.instruction? (σ id) = some { i with site } := by
  have hid := h.instructions id
  rw [hi] at hid
  obtain ⟨j, hj, he⟩ := Option.map_eq_some_iff.mp hid
  exact ⟨j.site, hj.trans (congrArg some (Instruction.eq_of_siteless he))⟩

theorem map_instruction? {α : Type} (h : Renumbers σ s s') (f : Instruction → α)
    (hf : ∀ i : Instruction, f i.siteless = f i) (id : Nat) :
    (s'.instruction? (σ id)).map f = (s.instruction? id).map f := by
  have hfs : f ∘ Instruction.siteless = f := funext hf
  rw [← hfs, ← Option.map_map, ← Option.map_map, h.instructions]

theorem owner? (h : Renumbers σ s s') (id : Nat) : s'.owner? (σ id) = s.owner? id := by
  have howner := h.map_instruction? (·.owner) (fun _ => rfl) id
  unfold Shot.owner?
  cases hi' : s'.instruction? (σ id) <;> cases hi : s.instruction? id <;> simp_all

theorem isSimultaneous (h : Renumbers σ s s') (a b : Nat) :
    s'.isSimultaneous (σ a) (σ b) = s.isSimultaneous a b := by
  have ha := h.map_instruction? (·.time) (fun _ => rfl) a
  have hb := h.map_instruction? (·.time) (fun _ => rfl) b
  unfold Shot.isSimultaneous
  cases hi' : s'.instruction? (σ a) <;> cases hi : s.instruction? a <;>
    cases hj' : s'.instruction? (σ b) <;> cases hj : s.instruction? b <;> simp_all

theorem endsBy (h : Renumbers σ s s') (hs : s.EndsBy time) : s'.EndsBy time := by
  intro id i hi
  obtain ⟨site, hi'⟩ := h.symm.exists_instruction hi
  exact hs (σ.symm id) { i with site } hi'

theorem mem_own (h : Renumbers σ s s') (hs : s.WellFormed) (hs' : s'.WellFormed) (id : Nat) :
    σ id ∈ s'.ownInstructions ↔ id ∈ s.ownInstructions := by
  rw [hs'.instructions.mem_own, hs.instructions.mem_own, h.owner?]

theorem waitsApart (h : Renumbers σ s s') (hs : s.WellFormed) (hs' : s'.WellFormed)
    (hw : s.WaitsApart) : s'.WaitsApart := by
  intro a ha b hb hne
  rw [← h.symm.isSimultaneous]
  refine hw _ ((h.symm.mem_own hs' hs a).mpr ha) _ ((h.symm.mem_own hs' hs b).mpr hb) ?_
  exact fun he => hne (σ.symm.injective he)

theorem own_perm (h : Renumbers σ s s') (hs : s.WellFormed) (hs' : s'.WellFormed) :
    s'.ownInstructions.toList.Perm (s.ownInstructions.toList.map σ) := by
  have hnodup : (s.ownInstructions.toList.map σ).Nodup :=
    (hs.instructions.nodup .shot).map σ.injective
  refine (List.perm_ext_iff_of_nodup (hs'.instructions.nodup .shot) hnodup).mpr fun id => ?_
  have hid := h.mem_own hs hs' (σ.symm id)
  rw [Equiv.apply_symm_apply] at hid
  rw [instructionsOf, Array.mem_toList_iff, hid, List.mem_map]
  constructor
  · exact fun hmem => ⟨σ.symm id, by simpa using hmem, σ.apply_symm_apply id⟩
  · rintro ⟨k, hk, rfl⟩
    simpa using hk

end Renumbers

/-! ## The times of the waits -/

theorem sortedTimes_perm : s.sortedTimes.toList.Perm
    (s.ownInstructions.toList.filterMap fun id => (s.instruction? id).map (·.time)) := by
  rw [sortedTimes, timesOf, Array.toList_filterMap]
  exact sortedWaits_perm.filterMap _

/-- The times of waits that are apart rise strictly. -/
theorem WellFormed.sortedTimes_rising (hs : s.WellFormed) (ht : s.EndsBy time) (hw : s.WaitsApart) :
    s.sortedTimes.toList.Pairwise (· < ·) := by
  have htimely := isTimely_of_endsBy hs ht
  have hrise := rising_sortedWaits htimely ((hs.firstClash?_eq_none htimely).mpr hw)
  rw [sortedTimes, timesOf, Array.toList_filterMap]
  refine List.pairwise_filterMap.mpr (hrise.imp fun {a b} hab x hx y hy => ?_)
  obtain ⟨i, hi, rfl⟩ := Option.map_eq_some_iff.mp hx
  obtain ⟨j, hj, rfl⟩ := Option.map_eq_some_iff.mp hy
  exact (isEarlier_iff hi hj).mp hab

namespace Renumbers

/-- Waits that are apart have the same times in the same order. -/
theorem sortedTimes (h : Renumbers σ s s') (hs : s.WellFormed) (hs' : s'.WellFormed)
    (ht : s.EndsBy time) (hw : s.WaitsApart) : s'.sortedTimes = s.sortedTimes := by
  have hrise := hs.sortedTimes_rising ht hw
  have hrise' := hs'.sortedTimes_rising (h.endsBy ht) (h.waitsApart hs hs' hw)
  have htimes : (fun id => (s'.instruction? (σ id)).map (·.time)) =
      fun id => (s.instruction? id).map (·.time) := funext (h.map_instruction? _ fun _ => rfl)
  have hperm : s'.sortedTimes.toList.Perm s.sortedTimes.toList := by
    refine sortedTimes_perm.trans (((h.own_perm hs hs').filterMap _).trans ?_)
    rw [List.filterMap_map, Function.comp_def, htimes]
    exact sortedTimes_perm.symm
  refine Array.toList_inj.mp (hperm.eq_of_pairwise ?_ hrise' hrise)
  exact fun a b _ _ hab hba => absurd hba (Double.lt_asymm hab)

end Renumbers

/-! ## Timing -/

theorem siteless_placed (waits : Array Float) (i : Instruction) :
    (s.placed waits i).siteless = s.placed waits i.siteless := by
  have hplacing : s.placing waits i.siteless = s.placing waits i := rfl
  unfold placed
  rw [hplacing]
  cases s.placing waits i <;> rfl

namespace Renumbers

theorem allFit (h : Renumbers σ s s') (hw : s'.sortedTimes = s.sortedTimes) (hs : s.AllFit) :
    s'.AllFit := by
  intro id i hi
  obtain ⟨site, hi'⟩ := h.symm.exists_instruction hi
  obtain ⟨t, ht⟩ := hs (σ.symm id) { i with site } hi'
  refine ⟨t, ?_⟩
  rw [h.toSameTree.placing h.waitDelay, hw]
  exact ht

theorem stopped (h : Renumbers σ s s') (time : Float) : Renumbers σ (s.stopped time) (s'.stopped time) where
  settings := h.settings
  master := h.master
  children := h.children
  devices := h.devices
  waitDelay := h.waitDelay
  stopTime := rfl
  limitsAt := h.limitsAt
  instructions := h.instructions

/-- Counterparts are timed alike. -/
theorem timed (h : Renumbers σ s s') (hs : s.WellFormed) (hs' : s'.WellFormed)
    (hw : s'.sortedTimes = s.sortedTimes) : Renumbers σ s.timed s'.timed where
  toSameBench := (sameBench_timed hs).symm.trans (h.toSameBench.trans (sameBench_timed hs'))
  instructions id := by
    have hplaced : s'.placed s'.sortedTimes = s.placed s.sortedTimes := by
      funext i
      rw [h.toSameTree.placed h.waitDelay, hw]
    have hcomm : Instruction.siteless ∘ s.placed s.sortedTimes =
        s.placed s.sortedTimes ∘ Instruction.siteless := funext (siteless_placed s.sortedTimes)
    rw [instruction?_timed hs, instruction?_timed hs', hplaced, Option.map_map, Option.map_map, hcomm,
      ← Option.map_map, ← Option.map_map, h.instructions]

end Renumbers

end Shot
end ShotTiming
