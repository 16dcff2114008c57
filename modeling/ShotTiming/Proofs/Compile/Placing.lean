import ShotTiming.Compile.Timing
import ShotTiming.Proofs.Ticks

/-! # What a place on a clock says

An instruction that has a place was put on the grid of its clock field by field, relative to the start
of its segment.
-/
namespace ShotTiming.Placing

variable {g : Grid} {waits : Array Float} {i : Instruction} {t t' : Timing}

theorem run_field (g : Grid) (q : Quantity) (x : Float) (store : Int → Timing → Timing) (t : Timing) :
    (field g q x store).run t =
      match g.place x with
      | .ok n => .ok () (store n t)
      | .error miss => .error ⟨q, x, miss⟩ t := by
  unfold field
  cases g.place x <;> rfl

theorem time_eq_ok {dead : Float} (h : (time g waits dead i).run t = .ok () t') :
    ∃ n, g.place (i.time - segmentStart waits dead (segmentOf i waits)) = .ok n ∧
      t' = { t with
        segment := segmentOf i waits
        relative := i.time - segmentStart waits dead (segmentOf i waits)
        ticks := n } := by
  have hrun : (time g waits dead i).run t = _ := run_field g .time _ (fun n t => { t with ticks := n })
    { t with segment := segmentOf i waits, relative := i.time - segmentStart waits dead (segmentOf i waits) }
  rw [hrun] at h
  split at h
  · rename_i n hn
    cases h
    exact ⟨n, hn, rfl⟩
  · cases h

theorem samplePeriod_eq_ok {rate : Float} (h : (samplePeriod g rate).run t = .ok () t') :
    ∃ n, t' = { t with samplePeriod := n } ∧ if 0 < rate then g.place (1 / rate) = .ok n else n = 0 := by
  unfold samplePeriod at h
  by_cases hr : 0 < rate
  · rw [if_pos hr, run_field] at h
    cases hp : g.place (1 / rate) with
    | error m => simp [hp] at h
    | ok n =>
      rw [hp] at h
      cases h
      exact ⟨n, rfl, by simp [hr]⟩
  · rw [if_neg hr] at h
    cases h
    exact ⟨0, rfl, by simp [hr]⟩

/-- What is known of an instruction that has a place. -/
theorem instruction_eq_ok {dead : Float} (hk : i.kind.isTimed)
    (h : (instruction g waits dead i).run t = .ok () t') :
    t'.segment = segmentOf i waits ∧
    t'.relative = i.time - segmentStart waits dead (segmentOf i waits) ∧
    g.place t'.relative = .ok t'.ticks ∧ g.place i.action.duration = .ok t'.duration ∧
    if 0 < i.action.sampleRate then g.place (1 / i.action.sampleRate) = .ok t'.samplePeriod
    else t'.samplePeriod = 0 := by
  have hseq : instruction g waits dead i = time g waits dead i >>= fun _ =>
      field g .duration i.action.duration (fun n t => { t with duration := n }) >>= fun _ =>
        samplePeriod g i.action.sampleRate := by
    unfold instruction
    cases hik : i.kind <;> simp [hik, InstructionKind.isTimed] at hk ⊢
  rw [hseq, EStateM.run_bind] at h
  cases ht : (time g waits dead i).run t with
  | error e u => simp [ht] at h
  | ok a u =>
    rw [ht] at h
    dsimp only at h
    rw [EStateM.run_bind, run_field] at h
    cases hd : g.place i.action.duration with
    | error m => simp [hd] at h
    | ok n =>
      rw [hd] at h
      obtain ⟨k, rfl, hs⟩ := samplePeriod_eq_ok h
      obtain ⟨m, hm, rfl⟩ := time_eq_ok ht
      exact ⟨rfl, rfl, hm, rfl, hs⟩

/-- All but static values are timed from the start of their segment. -/
theorem start_eq_ok {dead : Float} (hk : i.kind ≠ .static)
    (h : (instruction g waits dead i).run t = .ok () t') :
    t'.segment = segmentOf i waits ∧
    t'.relative = i.time - segmentStart waits dead (segmentOf i waits) ∧
    g.place t'.relative = .ok t'.ticks := by
  by_cases ht : i.kind.isTimed
  · obtain ⟨hsegment, hrelative, hplace, -⟩ := instruction_eq_ok ht h
    exact ⟨hsegment, hrelative, hplace⟩
  · have hwait : instruction g waits dead i = time g waits dead i := by
      unfold instruction
      cases hik : i.kind <;> simp [hik, InstructionKind.isTimed] at hk ht ⊢
    rw [hwait] at h
    obtain ⟨n, hn, rfl⟩ := time_eq_ok h
    exact ⟨rfl, rfl, hn⟩

theorem static_eq_ok {dead : Float} (hk : i.kind = .static)
    (h : (instruction g waits dead i).run t = .ok () t') :
    t' = { t with segment := 0, relative := 0, ticks := 0 } := by
  unfold instruction at h
  rw [hk] at h
  cases h
  rfl

/-- A constant takes no ticks. -/
theorem isPoint_of_constant {dead : Float} (hk : i.kind = .constant)
    (h : (instruction g waits dead i).run t = .ok () t') : t'.isPoint := by
  obtain ⟨-, -, -, hd, -⟩ := instruction_eq_ok (by simp [hk, InstructionKind.isTimed]) h
  have hz : i.action.duration = 0 := by
    unfold Instruction.kind at hk
    cases ha : i.action <;> simp_all [Action.kind, Action.duration]
  rw [hz] at hd
  simp [Timing.isPoint, Grid.place_zero hd]

end ShotTiming.Placing
