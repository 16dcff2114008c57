import ShotTiming.Proofs.Samples
import ShotTiming.Proofs.Session.Lists
import ShotTiming.Proofs.Validation.Conflicts
import ShotTiming.Proofs.Validation.Gaps

/-! # Whole samples

The loop over the samples of a ramp and the validation of the ramp divide in different places. They agree on
whether a ramp is sampled at both of its ends.
-/
namespace ShotTiming

/-- The samples of a ramp miss its end. -/
def Timing.isPartial (t : Timing) : Bool :=
  0 < t.duration ∧ 0 < t.samplePeriod ∧ t.duration % t.samplePeriod ≠ 0

theorem Timing.isPartial_iff {t : Timing} (hd : 0 < t.duration) (hs : 0 < t.samplePeriod) :
    t.isPartial ↔ t.sampleTimes.getLast? ≠ some t.finish := by
  rw [Ne, getLast?_sampleTimes_eq hd hs, Int.dvd_iff_emod_eq_zero]
  simp [isPartial, hd, hs]

namespace Shot

variable {s : Shot} {id : Nat} {k : DeviceKind} {e : Entry}

/-! ## The findings on samples -/

private theorem filter_placement_partial (s : Shot) (e : Entry) :
    (e.placementFindings ++ s.boundaryFindings e).filter (·.code? = some .partialSample) =
      if e.timing.isPartial then [.partialSample e] else [] := by
  have hboundary : (s.boundaryFindings e).filter (·.code? = some .partialSample) = [] := by
    refine List.filter_eq_nil_iff.mpr fun f hf => ?_
    obtain ⟨w, rfl⟩ | rfl := crossesWait_or_afterStop hf
    · simp [Finding.code?]
    · simp [Finding.code?]
  have hearly : (if e.timing.ticks < 0 then [Finding.startsTooEarly e] else []).filter
      (·.code? = some .partialSample) = [] := by
    split <;> rfl
  rw [List.filter_append, hboundary, List.append_nil, Entry.placementFindings, List.filter_append, hearly,
    List.nil_append]
  by_cases hneg : e.timing.duration < 0
  · have hzero : e.timing.isPartial = false := by
      rw [Timing.isPartial, decide_eq_false_iff_not]
      exact fun hc => by omega
    rw [if_pos hneg, hzero]
    rfl
  · rw [if_neg hneg]
    unfold Timing.isPartial
    split <;> simp_all [Finding.code?]

private theorem filter_zipWith_left {q : Finding → Bool} {f : Entry → List Finding} {es : List Entry}
    {os : List (Option Finding)} (hl : os.length = es.length) (ho : ∀ g ∈ os.reduceOption, ¬ q g) :
    (List.zipWith (fun e o => f e ++ o.toList) es os).flatten.filter q =
      es.flatMap fun e => (f e).filter q := by
  induction es generalizing os with
  | nil => rfl
  | cons e es ih =>
    cases os with
    | nil => simp at hl
    | cons o os =>
      have hlength : os.length = es.length := by simpa using hl
      have hrest := ih hlength fun g hg =>
        ho g (List.reduceOption_mem_iff.mpr (List.mem_cons_of_mem _ (List.reduceOption_mem_iff.mp hg)))
      have hlast : o.toList.filter q = [] := by
        refine List.filter_eq_nil_iff.mpr fun g hg => ho g (List.reduceOption_mem_iff.mpr ?_)
        rw [Option.mem_toList.mp hg]
        exact List.mem_cons_self
      rw [List.zipWith_cons_cons, List.flatten_cons, List.filter_append, List.filter_append, hlast,
        List.append_nil, hrest, List.flatMap_cons]

private theorem flatMap_if {α β : Type} (P : α → Bool) (f : α → β) (xs : List α) :
    (xs.flatMap fun a => if P a then [f a] else []) = (xs.filter P).map f := by
  induction xs with
  | nil => rfl
  | cons a xs ih => cases h : P a <;> simp [h, ih]

private theorem filter_outputFindings_partial (s : Shot) (id : Nat) :
    (s.outputFindings id).filter (·.code? = some .partialSample) =
      ((s.timedEntries (s.instructionsOf (.device id))).filter (·.timing.isPartial)).map .partialSample := by
  rw [outputFindings, filter_zipWith_left (f := fun e => e.placementFindings ++ s.boundaryFindings e)
    (Scan.length_conflicts _ _)]
  · simp only [filter_placement_partial]
    exact flatMap_if _ _ _
  · intro g hg hcode
    obtain ⟨a, -, hconf, -⟩ := Scan.mem_conflicts hg
    cases g <;> simp [Finding.isConflict, Finding.code?] at hconf hcode

private theorem filter_triggerFindings_partial (s : Shot) (id : Nat) :
    (s.triggerFindings id).filter (·.code? = some .partialSample) = [] := by
  refine List.filter_eq_nil_iff.mpr fun f hf => ?_
  obtain ⟨h, -, width, rfl⟩ := exists_pulse hf
  simp [Finding.code?]

private theorem filter_staticFindings_partial (s : Shot) (id : Nat) :
    (s.staticFindings id).filter (·.code? = some .partialSample) = [] := by
  refine List.filter_eq_nil_iff.mpr fun f hf => ?_
  obtain ⟨e, first, rfl⟩ := exists_setAgain hf
  simp [Finding.code?]

private theorem filter_clockLineFindings_partial (s : Shot) (line : Nat) :
    (s.clockLineFindings line).filter (·.code? = some .partialSample) = [] := by
  have hfits : (if (s.limitsAt line).cannotHoldPulses then [Finding.pulsesDoNotFit line] else []).filter
      (·.code? = some .partialSample) = [] := by
    split <;> rfl
  rw [clockLineFindings_eq, List.filter_append, List.filter_append, hfits,
    Finding.filter_map_code (d := .sampleTooFast) fun _ => rfl,
    Finding.filter_map_code (d := .tickTooShort) fun _ => rfl, if_neg (by decide), if_neg (by decide)]
  rfl

/-- The findings on samples are on the ramps of a device, whatever else is checked on the device. -/
theorem WellFormed.filter_findingsAt_partial (hs : s.WellFormed) (hk : s.kind? id = some k) :
    (s.findingsAt id).filter (·.code? = some .partialSample) =
      ((s.timedEntries (s.instructionsOf (.device id))).filter (·.timing.isPartial)).map .partialSample := by
  have hnone (ho : k.isOutput = false) : s.instructionsOf (.device id) = [] := by
    refine List.eq_nil_iff_forall_not_mem.mpr fun i hi => ?_
    obtain ⟨d, hd, hout⟩ := (Option.any_eq_true _ _).mp
      (hs.isOutput_of_owner (hs.instructions.mem_instructionsOf.mp hi))
    rw [kind?, hd, Option.map_some, Option.some_inj] at hk
    rw [hk, ho] at hout
    cases hout
  rw [findingsAt_eq hk]
  cases k with
  | output => exact filter_outputFindings_partial s id
  | trigger =>
    rw [findingsOf, List.filter_append, filter_triggerFindings_partial, List.append_nil]
    exact filter_outputFindings_partial s id
  | staticOutput =>
    rw [findingsOf, List.filter_append, filter_staticFindings_partial, List.append_nil]
    exact filter_outputFindings_partial s id
  | clockLine =>
    rw [findingsOf, filter_clockLineFindings_partial, hnone rfl]
    rfl
  | _ =>
    rw [hnone rfl]
    rfl

private theorem timedEntries_flatMap (s : Shot) (f : Nat → List Nat) (ids : List Nat) :
    s.timedEntries (ids.flatMap f) = ids.flatMap fun id => s.timedEntries (f id) := by
  unfold timedEntries entries
  rw [List.filterMap_flatMap, List.filter_flatMap]

/-- The instructions of the devices in the order in which the devices are checked. -/
def checkedInstructions (s : Shot) : List Nat :=
  (s.below .shot).postorder.flatMap fun id => s.instructionsOf (.device id)

theorem WellFormed.nodup_checkedInstructions (hs : s.WellFormed) : s.checkedInstructions.Nodup := by
  have hsub : ((s.below .shot).toList.flatMap fun id => s.instructionsOf (.device id)).Sublist
      (s.descendantInstructions .shot true) := List.sublist_append_right _ _
  have hperm := (Forest.postorder_perm (s.below .shot)).flatMap_right fun id => s.instructionsOf (.device id)
  exact hperm.nodup_iff.mpr (hsub.nodup (hs.nodup_descendantInstructions .shot true))

theorem WellFormed.filter_allFindings_partial (hs : s.WellFormed) :
    s.allFindings.filter (·.code? = some .partialSample) =
      ((s.timedEntries s.checkedInstructions).filter (·.timing.isPartial)).map .partialSample := by
  have hwaits : s.waitFindings.filter (·.code? = some .partialSample) = [] := by
    rw [waitFindings, Finding.filter_map_code (d := .negativeTime) fun _ => rfl, if_neg (by decide)]
  rw [allFindings, List.filter_append, hwaits, List.nil_append, List.filter_flatMap, checkedInstructions,
    timedEntries_flatMap, List.filter_flatMap, List.map_flatMap]
  refine List.flatMap_congr fun id hid => ?_
  obtain ⟨d, hd⟩ := exists_device (hs.devices.mem_below_shot.mp ((Forest.postorder_perm _).mem_iff.mp hid))
  exact hs.filter_findingsAt_partial (k := d.kind) (by simp [kind?, hd])

/-! ## What is reported -/

theorem WellFormed.exists_output (hs : s.WellFormed) (he : e.IsIn s) (hk : e.instruction.kind ≠ .wait) :
    ∃ id k, e.IsOn id ∧ s.kind? id = some k := by
  obtain ⟨h, howner, -⟩ := hs.instructions.owner e.id (instruction?_eq_some he)
  have ho : e.instruction.owner = some h := by
    rwa [owner?, he] at howner
  cases h with
  | shot => exact absurd (hs.isWait_of_own he ho) hk
  | device id =>
    obtain ⟨d, hd, -⟩ := (Option.any_eq_true _ _).mp (hs.isOutput_of_owner howner)
    exact ⟨id, d.kind, ho, by simp [kind?, hd]⟩

/-- A ramp is sampled evenly. The check of its output, and the first validation of the shot, report a partial
sample for it once if its last sample is not at its end, and otherwise do not. -/
structure ChecksSamples (s : Shot) (e : Entry) : Prop where
  samples : e.timing.SamplesEvenly
  output : ∃ id, e.IsOn id ∧ ∀ messages, ∃ vs ms, Compile.Reports (checkPass.after id) ⟨s, messages⟩ vs ms ∧
    OnceIf (timesBlamed .partialSample e vs) (e.timing.sampleTimes.getLast? ≠ some e.timing.finish)
  shot : s.phase = .checkInstructions → (∀ r, s.calls.called r .checkInstructions = false) → s.ChecksAll →
    ∀ messages, ∃ q, Compile.checkInstructions.run ⟨s, messages⟩ = .ok () q ∧
      OnceIf (timesBlamed .partialSample e q.shot.report.violations.toList)
        (e.timing.sampleTimes.getLast? ≠ some e.timing.finish)

theorem checksSamples_of_function (hs : s.WellFormed) (he : e.IsIn s) (hk : e.instruction.kind = .function)
    (hd : 0 < e.timing.duration) (hp : 0 < e.timing.samplePeriod) : s.ChecksSamples e := by
  have ht : e.IsTimed := by
    rw [Entry.IsTimed, hk]
    rfl
  obtain ⟨id, k, ho, hkind⟩ := hs.exists_output he (by simp [hk])
  have hlist : e.id ∈ s.instructionsOf (.device id) :=
    (mem_entries.mp (hs.mem_entries_of.mpr ⟨he, ho⟩)).1
  constructor
  case samples => exact Timing.samplesEvenly hd hp
  case output =>
    refine ⟨id, ho, fun messages => ⟨_, _, Compile.reports_check ⟨s, messages⟩ id, ?_⟩⟩
    have honce := onceIf_timesBlamed hs.instructions_fit (hs.instructions.nodup _) (fun a => ⟨rfl, rfl⟩)
      (hs.filter_findingsAt_partial hkind) (mem_timedEntries.mpr ⟨hlist, he, ht⟩)
    exact honce.congr (Timing.isPartial_iff hd hp)
  case shot =>
    intro hphase hfresh hstd messages
    obtain ⟨messages', hrun⟩ := Compile.run_checkInstructions (p := ⟨s, messages⟩) hs.devices hs.devices_referable
      hphase hfresh hstd
    refine ⟨_, hrun, ?_⟩
    have hmem : e.id ∈ s.checkedInstructions := by
      refine List.mem_flatMap.mpr ⟨id, (Forest.postorder_perm _).mem_iff.mpr ?_, hlist⟩
      obtain ⟨d, hdev, -⟩ := Option.map_eq_some_iff.mp hkind
      exact hs.devices.mem_below_shot.mpr (device?_eq_some hdev)
    have honce := onceIf_timesBlamed hs.instructions_fit hs.nodup_checkedInstructions (fun a => ⟨rfl, rfl⟩)
      hs.filter_allFindings_partial (mem_timedEntries.mpr ⟨hmem, he, ht⟩)
    have hreport : s.checked.report.violations.toList = s.violations s.allFindings := by
      rw [checked, noted, violations_entered, violations_opened]
      simp [entered, opened]
    rw [hreport]
    exact honce.congr (Timing.isPartial_iff hd hp)

/-- A ramp of 10 ticks with a sample at every fourth, and one of 12 ticks. -/
private def frayed : List Command := Session.bench ++ [
  .issue (.device 0 4) (.function 0 10 (some (polynomial [0, 1])) 0.25) {},
  .issue (.device 0 4) (.function 20 12 (some (polynomial [0, 1])) 0.25) {}]

theorem checksSamples_of_frayed : ∃ (s : Shot) (e : Entry) (q : Progress), s.WellFormed ∧ e.IsIn s ∧
    e.instruction.kind = .function ∧ 0 < e.timing.duration ∧ 0 < e.timing.samplePeriod ∧ s.ChecksSamples e ∧
    e.timing.sampleTimes = [0, 4, 8] ∧ e.timing.finish = 10 ∧
    Compile.checkInstructions.run ⟨s, #[]⟩ = .ok () q ∧
    timesBlamed .partialSample e q.shot.report.violations.toList = 1 := by
  have hrun : ((Session.script frayed).shot? 0).any fun s => s.IsPlain ∧ s.phase = .addInstructions ∧
      isOk ((Compile.resolve 200).run ⟨s, #[]⟩) ∧
      ((after (Compile.resolve 200) ⟨s, #[]⟩).shot.instruction? 0).any fun i => i.kind = .function ∧
        i.timing.duration = 10 ∧ i.timing.samplePeriod = 4 ∧ i.timing.sampleTimes = [0, 4, 8] ∧
        i.timing.finish = 10 := by
    decide +kernel
  obtain ⟨s, hs, hp⟩ := (Option.any_eq_true _ _).mp hrun
  obtain ⟨hplain, hphase, hok, hi⟩ := of_decide_eq_true hp
  have hr : s.Reachable false := reachable_of_script (by decide) hs
  have hstop := hr.grown.stoppable hphase
  obtain ⟨q, hq⟩ := exists_of_isOk hok
  rw [after, hq] at hi
  obtain ⟨i, hi, hd⟩ := (Option.any_eq_true _ _).mp hi
  obtain ⟨hkind, hduration, hperiod, hsamples, hfinish⟩ := of_decide_eq_true hd
  -- the shot as its timing has left it, in the phase of the validation
  have hres := (Compile.resolved_of_run (p := ⟨s, #[]⟩) hstop hq).2
  have hadvanced : SameLinks q.shot q.shot.advanced := .of_eq rfl rfl rfl rfl rfl rfl
  have hw : q.shot.advanced.WellFormed := hadvanced.wellFormed hres.wellFormed
  have hstd : q.shot.advanced.ChecksAll :=
    (hadvanced.isPlain ((Compile.sameLinks_of_resolve (p := ⟨s, #[]⟩) hstop hq).isPlain hplain)).checksAll
  have hpos : 0 < i.timing.duration ∧ 0 < i.timing.samplePeriod := by omega
  have hchecks := checksSamples_of_function (s := q.shot.advanced) (e := ⟨0, i⟩) hw hi hkind hpos.1 hpos.2
  obtain ⟨r, hcheck, honce⟩ := hchecks.shot rfl hres.fresh hstd #[]
  have hblamed := honce.1 (by simp [Entry.timing, hsamples, hfinish])
  exact ⟨_, ⟨0, i⟩, r, hw, hi, hkind, hpos.1, hpos.2, hchecks, hsamples, hfinish, hcheck, hblamed⟩

end Shot
end ShotTiming
