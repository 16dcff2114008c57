import ShotTiming.Proofs.Compile.Resolve
import ShotTiming.Proofs.Validation.Entries

/-! # Shots whose timing is settled

What a conversion that ended well leaves behind, and what no later change takes back: every instruction
is converted, the waits are in order of time, and the instructions of every output are in order.
-/
namespace ShotTiming.Shot
open Relation Sorted

variable {s s' : Shot} {raw : Bool}

/-! ## What depends on the links only -/

namespace SameLinks

theorem timesOf (h : SameLinks s s') (ids : Array Nat) : s'.timesOf ids = s.timesOf ids := by
  unfold Shot.timesOf
  congr
  funext id
  exact h.map_instruction? _ (fun _ => rfl) id

theorem isEarlier (h : SameLinks s s') : s'.isEarlier = s.isEarlier := by
  funext a b
  have ha := h.map_instruction? (·.time) (fun _ => rfl) a
  have hb := h.map_instruction? (·.time) (fun _ => rfl) b
  unfold Shot.isEarlier
  cases ha' : s'.instruction? a <;> cases ha'' : s.instruction? a <;>
    cases hb' : s'.instruction? b <;> cases hb'' : s.instruction? b <;> simp_all

end SameLinks

/-! ## The timed shot -/

theorem sortOutputs_eq (s : Shot) : s.sortOutputs = { s with devices := s.sortOutputs.devices } := by
  unfold sortOutputs
  generalize s.outputs = ids
  induction ids generalizing s with
  | nil => rfl
  | cons id ids ih =>
    rw [List.foldl_cons, ih]
    rfl

theorem sameLinks_sortOutputs (hs : s.DevicesLinked) : SameLinks s s.sortOutputs where
  settings := by rw [sortOutputs_eq]
  master := by rw [sortOutputs_eq]
  children := by rw [sortOutputs_eq]
  devices id := by
    rw [device?_sortOutputs hs, Option.map_map]
    congr 1
    funext d
    simp only [Function.comp]
    split <;> rfl
  instructions id := by
    rw [sortOutputs_eq]
    rfl
  listed h := by
    cases h with
    | shot =>
      rw [sortOutputs_eq]
      exact .rfl
    | device id =>
      simp only [instructionsOf, device?_sortOutputs hs]
      cases s.device? id with
      | none => exact .rfl
      | some d =>
        simp only [Option.map_some, Option.elim_some]
        split
        · exact sort_perm _
        · exact .rfl

theorem sameLinks_timedOn (waits : Array Float) (ids : List Nat) : SameLinks s (s.timedOn waits ids) where
  settings := rfl
  master := rfl
  children := rfl
  devices id := rfl
  instructions id := by
    rw [instruction?_timedOn, Option.map_map]
    congr 1
    funext i
    simp only [Function.comp, placed]
    split
    · split <;> rfl
    · rfl
  listed h := by cases h <;> exact .rfl

theorem sameLinks_stopped (s : Shot) (time : Float) : SameLinks s (s.stopped time) :=
  .of_eq rfl rfl rfl rfl rfl rfl

theorem sameLinks_orderedWaits : SameLinks s s.orderedWaits := .of_eq rfl rfl rfl rfl rfl rfl

theorem sameLinks_timed (hs : s.WellFormed) : SameLinks s s.timed := by
  have h := sameLinks_orderedWaits.trans
    (sameLinks_timedOn (s := s.orderedWaits) s.sortedTimes (s.descendantInstructions .shot true))
  exact h.trans (sameLinks_sortOutputs (h.wellFormed hs).devices)

theorem instruction?_timed (hs : s.WellFormed) (id : Nat) :
    s.timed.instruction? id = (s.instruction? id).map (s.placed s.sortedTimes) := by
  have hsort : s.timed.instruction? id = (s.orderedWaits.timedOn s.sortedTimes
      (s.descendantInstructions .shot true)).instruction? id := by
    unfold timed
    rw [sortOutputs_eq]
    rfl
  rw [hsort, instruction?_timedOn]
  cases hi : s.instruction? id with
  | none =>
    have : s.orderedWaits.instruction? id = none := hi
    simp [this]
  | some i =>
    have hi' : s.orderedWaits.instruction? id = some i := hi
    have hmem : id ∈ s.descendantInstructions .shot true :=
      hs.mem_allInstructions.mpr (instruction?_eq_some hi)
    simp only [hi', Option.map_some, hmem, if_true]
    rfl

theorem calls_timed : s.timed.calls = s.calls.markAll
    ((s.descendantInstructions .shot true).map fun id => (Node.instruction id).ref) .convertTiming := by
  unfold timed
  rw [sortOutputs_eq]
  rfl

theorem waits_timed : s.timed.waits = s.sortedWaits.toArray := by
  unfold timed
  rw [sortOutputs_eq]
  rfl

theorem waitTimes_timed (hs : s.WellFormed) : s.timed.waitTimes = s.sortedTimes := by
  unfold waitTimes
  rw [waits_timed, (sameLinks_timed hs).timesOf]
  rfl

theorem ownInstructions_timed : s.timed.ownInstructions = s.ownInstructions := by
  unfold timed
  rw [sortOutputs_eq]
  rfl

theorem stopTime_timed : s.timed.stopTime = s.stopTime := by
  unfold timed
  rw [sortOutputs_eq]
  rfl

theorem waitDelay_timed : s.timed.waitDelay = s.waitDelay := by
  unfold timed
  rw [sortOutputs_eq]
  rfl

/-- An instruction of the timed shot is where the waits put it, from wherever it was before. -/
theorem WellFormed.placing_timed (hs : s.WellFormed) (hf : s.AllFit) {id : Nat} {i : Instruction}
    (hi : s.timed.instruction? id = some i) : ∃ j, s.instruction? id = some j ∧
      s.timed.placing s.timed.waitTimes { i with timing := j.timing } = .ok () i.timing := by
  rw [instruction?_timed hs] at hi
  obtain ⟨j, hj, rfl⟩ := Option.map_eq_some_iff.mp hi
  obtain ⟨t, hfit⟩ := hf id j hj
  refine ⟨j, hj, ?_⟩
  rw [waitTimes_timed hs, (sameLinks_timed hs).placing waitDelay_timed]
  have hplaced : s.placed s.sortedTimes j = { j with timing := t, converted := true } := by
    simp [placed, hfit]
  rw [hplaced]
  exact hfit

theorem isPlacedBefore_sortOutputs : s.sortOutputs.isPlacedBefore = s.isPlacedBefore := by
  rw [sortOutputs_eq]
  rfl

/-- The instructions of a host can be put in order. -/
theorem WellFormed.ascending_sort (hs : s.WellFormed) (h : Host) :
    Ascending s.isPlacedBefore (Sorted.sort s.isPlacedBefore (s.instructionsOf h)) := by
  refine Sorted.ascending_sort weakOrder_isPlacedBefore fun id hid => ?_
  exact exists_instruction (lt_of_owner? (hs.instructions.mem_instructionsOf.mp hid))

theorem instructionsOf_sortOutput (id k : Nat) :
    (s.sortOutput id).instructionsOf (.device k) =
      if k = id then Sorted.sort s.isPlacedBefore (s.instructionsOf (.device k))
      else s.instructionsOf (.device k) := by
  simp only [instructionsOf, sortOutput, device?_setDevice]
  split
  · cases s.device? k <;> rfl
  · rfl

theorem ascending_sortOutputs (hs : s.WellFormed) {id : Nat} {k : DeviceKind}
    (hk : s.sortOutputs.kind? id = some k) (ho : k.isOutput) :
    Ascending s.sortOutputs.isPlacedBefore (s.sortOutputs.instructionsOf (.device id)) := by
  rw [(sameLinks_sortOutputs hs.devices).kind?] at hk
  obtain ⟨d, hd, rfl⟩ := Option.map_eq_some_iff.mp hk
  have hlist : s.sortOutputs.instructionsOf (.device id) =
      Sorted.sort s.isPlacedBefore (s.instructionsOf (.device id)) := by
    simp [instructionsOf, device?_sortOutputs hs.devices, hd, ho]
  rw [isPlacedBefore_sortOutputs, hlist]
  exact hs.ascending_sort _

/-! ## Settled shots -/

/-- A shot after a conversion of its timing that ended well. -/
structure Settled (s : Shot) : Prop where
  wellFormed : s.WellFormed
  late : Phase.convertTiming.rank ≤ s.phase.rank
  called : ∀ id < s.instructions.size, s.calls.called (Node.instruction id).ref .convertTiming
  converted : ∀ id i, s.instruction? id = some i → i.converted
  waits : s.waits.toList.Perm s.ownInstructions.toList
  rising : (∀ id ∈ s.ownInstructions, s.IsTimely id) → s.waits.toList.Pairwise fun a b => s.isEarlier a b
  sorted : ∀ {id k}, s.kind? id = some k → k.isOutput →
    Ascending s.isPlacedBefore (s.instructionsOf (.device id))

theorem SameLinks.isTimely (h : SameLinks s s') (id : Nat) : s'.IsTimely id ↔ s.IsTimely id := by
  have ht := h.map_instruction? (·.time) (fun _ => rfl) id
  unfold IsTimely
  cases hi' : s'.instruction? id <;> cases hi : s.instruction? id <;> simp_all

/-- The timed shot is settled if no waits clash and every instruction has a place. -/
theorem WellFormed.settled_timed (hw : s.WellFormed) (hp : s.phase = .convertTiming)
    (hc : s.firstClash? s.sortedWaits = none) (hf : s.AllFit) : s.timed.Settled := by
  have hlinks := sameLinks_timed hw
  constructor
  case wellFormed => exact hlinks.wellFormed hw
  case late =>
    have hphase : s.timed.phase = .convertTiming := by
      rw [phase, calls_timed, Calls.phase_markAll]
      exact hp
    rw [hphase]
  case called =>
    intro id hid
    rw [hlinks.instructions_size] at hid
    rw [calls_timed, Calls.called_markAll]
    refine .inr ⟨List.mem_map.mpr ⟨id, ?_, rfl⟩, rfl⟩
    exact hw.mem_allInstructions.mpr hid
  case converted =>
    intro id i hi
    rw [instruction?_timed hw] at hi
    obtain ⟨j, hj, rfl⟩ := Option.map_eq_some_iff.mp hi
    obtain ⟨t, hfit⟩ := hf id j hj
    simp [placed, hfit]
  case waits =>
    rw [waits_timed, ownInstructions_timed]
    exact sortedWaits_perm
  case rising =>
    intro ht
    rw [waits_timed, hlinks.isEarlier]
    refine rising_sortedWaits (fun id hid => (hlinks.isTimely id).mp (ht id ?_)) hc
    rwa [ownInstructions_timed]
  case sorted =>
    intro id k hk ho
    exact ascending_sortOutputs
      ((sameLinks_timedOn (s := s.orderedWaits) _ _).wellFormed (sameLinks_orderedWaits.wellFormed hw))
      hk ho

namespace Settled

theorem firstClash? (h : s.Settled) (ht : ∀ id ∈ s.ownInstructions, s.IsTimely id) :
    s.firstClash? s.sortedWaits = none := by
  by_contra hc
  obtain ⟨a, ha, b, hb, hne, hsim⟩ :=
    (firstClash?_sortedWaits ht (h.wellFormed.instructions.nodup .shot)).mp hc
  have hmem : ∀ {id}, id ∈ s.ownInstructions → id ∈ s.waits.toList := fun hid =>
    h.waits.mem_iff.mpr (by simpa using hid)
  exact not_isSimultaneous_of_rising (h.rising ht) (hmem ha) (hmem hb) hne hsim

/-- Instructions that have had their call have no other. -/
private theorem not_enter (h : s.Settled) {id : Nat} {i : Instruction} {calls : Calls}
    (hi : s.instruction? id = some i) :
    s.calls.enter (Node.instruction id).ref .convertTiming ≠ .ok calls := by
  intro hc
  have hcalled := h.called id (instruction?_eq_some hi)
  rw [(Calls.enter_eq_ok.mp hc).2.1] at hcalled
  cases hcalled

private theorem enter (h : s.Settled) {r : NodeRef} {o : Operation} {calls : Calls}
    (hc : s.calls.enter r o = .ok calls) : ({ s with calls } : Shot).Settled where
  wellFormed := SameLinks.wellFormed (s := s) (.of_eq rfl rfl rfl rfl rfl rfl) h.wellFormed
  late := by
    change _ ≤ calls.phase.rank
    rw [Calls.phase_of_enter hc]
    exact h.late
  called id hid := Calls.called_mono hc (h.called id hid)
  converted := h.converted
  waits := h.waits
  rising := h.rising
  sorted := h.sorted

private theorem sortOutput (h : s.Settled) (id : Nat) : (s.sortOutput id).Settled where
  wellFormed := (sameLinks_sortOutput id).wellFormed h.wellFormed
  late := h.late
  called := h.called
  converted := h.converted
  waits := h.waits
  rising := h.rising
  sorted := by
    intro k kind hk ho
    rw [isPlacedBefore_sortOutput, instructionsOf_sortOutput]
    split
    · exact h.wellFormed.ascending_sort _
    · refine h.sorted ?_ ho
      rwa [(sameLinks_sortOutput id).kind?] at hk

private theorem edit (h : s.Settled) (he : Edit s s') : s'.Settled := by
  have hearly : ∀ {ph : Phase}, s.phase = ph → ph.rank < Phase.convertTiming.rank → s'.Settled :=
    fun hp hlt => absurd (hp ▸ h.late) (Nat.not_le_of_lt hlt)
  cases he with
  | device _ ha => exact hearly (addDevice_eq_ok ha).1.phase (by decide)
  | instruction _ ha => exact hearly (addInstruction_eq_ok ha).1.phase (by decide)
  | configure _ _ hp | limits _ _ hp | attributes _ _ _ hp | waitDelay _ hp | stopTime _ hp =>
    exact hearly hp (by decide)
  | enter _ hc => exact h.enter hc
  | convert waits hc hi => exact absurd hc (h.not_enter hi)
  | sort id _ => exact h.sortOutput id
  | waits =>
    have hlinks : SameLinks s { s with waits := s.sortedWaits.toArray } :=
      .of_eq rfl rfl rfl rfl rfl rfl
    have hwf := hlinks.wellFormed h.wellFormed
    refine ⟨hwf, h.late, h.called, h.converted, sortedWaits_perm, fun ht => ?_, h.sorted⟩
    have hrise := rising_sortedWaits (s := s) ht (h.firstClash? ht)
    exact hrise
  | report r =>
    have hlinks : SameLinks s { s with report := r } := .of_eq rfl rfl rfl rfl rfl rfl
    have hwf := hlinks.wellFormed h.wellFormed
    exact ⟨hwf, h.late, h.called, h.converted, h.waits, h.rising, h.sorted⟩

/-- No change takes it back. -/
theorem change (h : s.Settled) (hc : Change raw s s') : s'.Settled := by
  have hrank := hc.phase_rank
  cases hc with
  | edit he => exact h.edit he
  | mark _ hm => exact h.enter hm
  | @advance calls ha =>
    have hlinks : SameLinks s { s with calls } := .of_eq rfl rfl rfl rfl rfl rfl
    have hwf := hlinks.wellFormed h.wellFormed
    refine ⟨hwf, Nat.le_trans h.late hrank, fun id hid => ?_, h.converted, h.waits, h.rising, h.sorted⟩
    rw [Calls.called, (Calls.advance?_eq_some.mp ha).2]
    exact h.called id hid

theorem run (h : s.Settled) (hc : ReflTransGen (Change raw) s s') : s'.Settled := by
  induction hc with
  | refl => exact h
  | tail _ hc ih => exact ih.change hc

theorem sameLinks (h : s.Settled) (hc : ReflTransGen (Change raw) s s') : SameLinks s s' := by
  induction hc with
  | refl => exact .refl s
  | tail hr hc ih => exact ih.trans (hc.sameLinks (h.run hr).late)

end Settled

/-! ## What it means for the instructions -/

/-- Every instruction is converted, and everything is in order. -/
structure InOrder (s : Shot) : Prop where
  converted : ∀ e : Entry, e.IsIn s → e.instruction.converted
  nodup : s.waits.toList.Nodup
  mem_waits : ∀ id, id ∈ s.waits ↔
    ∃ i, s.instruction? id = some i ∧ i.kind = .wait ∧ i.owner = some .shot
  rising : (∀ w ∈ s.entries s.waits.toList, ¬ w.instruction.time.isNaN) →
    (s.entries s.waits.toList).Pairwise fun a b => a.instruction.time < b.instruction.time
  sorted : ∀ id k, s.kind? id = some k → k.isOutput →
    (s.entries (s.instructionsOf (.device id))).Pairwise Entry.StandsBefore

theorem Settled.inOrder (h : s.Settled) : s.InOrder where
  converted e he := h.converted e.id e.instruction he
  nodup := h.waits.nodup_iff.mpr (h.wellFormed.instructions.nodup .shot)
  mem_waits id := by
    have hown : id ∈ s.waits ↔ s.owner? id = some .shot := by
      rw [← Array.mem_toList_iff, h.waits.mem_iff]
      exact h.wellFormed.instructions.mem_instructionsOf (h := .shot)
    rw [hown]
    constructor
    · intro ho
      obtain ⟨i, hi⟩ := exists_instruction (lt_of_owner? ho)
      have ho' : i.owner = some .shot := by simpa [owner?, hi] using ho
      exact ⟨i, hi, h.wellFormed.isWait_of_own hi ho', ho'⟩
    · rintro ⟨i, hi, -, ho⟩
      simp [owner?, hi, ho]
  rising ht := by
    refine pairwise_entries (h.rising fun id hid => ?_) fun a b ha hb hab => (isEarlier_iff ha hb).mp hab
    have hid' : id ∈ s.waits.toList := h.waits.mem_iff.mpr (by simpa using hid)
    have ho : s.owner? id = some .shot :=
      h.wellFormed.instructions.mem_instructionsOf.mp (by simpa [instructionsOf] using hid)
    obtain ⟨i, hi⟩ := exists_instruction (lt_of_owner? ho)
    exact ⟨i, hi, ht ⟨id, i⟩ (mem_entries.mpr ⟨hid', hi⟩)⟩
  sorted id k hk ho := by
    have hpair := (h.sorted hk ho).and (h.wellFormed.instructions.nodup (.device id))
    refine pairwise_entries hpair fun a b ha hb hab => ?_
    have hnot := hab.1
    rw [isPlacedBefore_iff hb ha, Timing.isBefore_iff, Timing.isBefore_iff] at hnot
    unfold Entry.StandsBefore Entry.timing
    omega

end ShotTiming.Shot
