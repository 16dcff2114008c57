import ShotTiming.Proofs.Session.Clocks
import ShotTiming.Proofs.Validation.Conflicts

/-! # Runs of high values on a trigger

A pulse is a maximal run of values other than 0 within its segment and the 0 behind it. Every pulse that
is too short is reported once, on the value that it starts with, and no other value is reported.
-/
namespace ShotTiming

namespace HighTime

variable {h : HighTime} {es : List Entry} {e r : Entry} {k : Nat}

/-- A pulse of the values of one segment: a run of high values, with none in front, and the low value
behind it. -/
def IsRun (h : HighTime) (es : List Entry) : Prop :=
  ∃ pre mid post, es = pre ++ h.rise :: (mid ++ h.fall :: post) ∧ (∀ e ∈ h.rise :: mid, e.IsHigh) ∧
    ¬ h.fall.IsHigh ∧ ∀ l, pre.getLast? = some l → ¬ l.IsHigh

/-- Within one segment, a pulse is cut out wherever there is a run. -/
theorem isCut_iff_isRun (hk : ∀ e ∈ es, e.timing.segment = k) : h.IsCut es ↔ h.IsRun es := by
  constructor
  · rintro ⟨pre, mid, post, hc⟩
    refine ⟨pre, mid, post, hc.eq, ?_, hc.fall, fun l hl hh => ?_⟩
    · exact List.forall_mem_cons.mpr ⟨hc.rise, fun e he => (hc.run e he).1⟩
    · have hmem : l ∈ es := by simp [hc.eq, List.mem_of_getLast? hl]
      have hrise : h.rise ∈ es := by simp [hc.eq]
      exact hc.first l hl hh ((hk l hmem).trans (hk _ hrise).symm)
  · rintro ⟨pre, mid, post, rfl, hrun, hfall, hfirst⟩
    obtain ⟨hrise, hmid⟩ := List.forall_mem_cons.mp hrun
    refine ⟨pre, mid, post, rfl, hrise, fun e he => ⟨hmid e he, ?_⟩, hfall, ?_, fun l hl hh => ?_⟩
    · exact (hk e (by simp [he])).trans (hk _ (by simp)).symm
    · exact (hk _ (by simp)).trans (hk _ (by simp)).symm
    · exact absurd hh (hfirst l hl)

/-! ## Pulses by segment -/

/-- No two pulses start with the same value. -/
theorem rises_sublist (es : List Entry) : ((pulses none es).map rise).Sublist es ∧
    ∀ r, ((pulses (some r) es).map rise).Sublist (r :: es) := by
  induction es with
  | nil => simp [pulses]
  | cons e es ih =>
    have hnone : ((pulses none (e :: es)).map rise).Sublist (e :: es) := by
      by_cases he : e.IsHigh
      · rw [pulses_high he]
        exact ih.2 e
      · rw [pulses_low he]
        exact ih.1.cons e
    refine ⟨hnone, fun r => ?_⟩
    by_cases hs : r.timing.segment = e.timing.segment
    · by_cases he : e.IsHigh
      · rw [pulses_run he hs]
        exact (ih.2 r).trans ((List.sublist_cons_self e es).cons_cons r)
      · rw [pulses_fall he hs, List.map_cons]
        exact (ih.1.cons e).cons_cons r
    · rw [pulses_segment hs]
      exact hnone.cons r

/-- The pulses that start in a segment are those of the segment alone, where it does not come back. -/
theorem pulses_inSegment (k : Nat) (hord : es.Pairwise fun a b => a.timing.segment ≤ b.timing.segment) :
    (pulses none es).filter (·.rise.timing.segment = k) = pulses none (es.filter (·.timing.segment = k)) ∧
    ∀ r : Entry, (∀ e ∈ es, r.timing.segment ≤ e.timing.segment) →
      (pulses (some r) es).filter (·.rise.timing.segment = k) =
        if r.timing.segment = k then pulses (some r) (es.filter (·.timing.segment = k))
        else pulses none (es.filter (·.timing.segment = k)) := by
  induction es with
  | nil => simp [pulses]
  | cons e es ih =>
    obtain ⟨hlater, hrest⟩ := List.pairwise_cons.mp hord
    obtain ⟨hnone, hsome⟩ := ih hrest
    have hfirst : (pulses none (e :: es)).filter (·.rise.timing.segment = k) =
        pulses none ((e :: es).filter (·.timing.segment = k)) := by
      by_cases hk : e.timing.segment = k
      · rw [List.filter_cons_of_pos (by simpa using hk)]
        by_cases he : e.IsHigh
        · rw [pulses_high he, pulses_high he, hsome e hlater, if_pos hk]
        · rw [pulses_low he, pulses_low he, hnone]
      · rw [List.filter_cons_of_neg (by simpa using hk)]
        by_cases he : e.IsHigh
        · rw [pulses_high he, hsome e hlater, if_neg hk]
        · rw [pulses_low he, hnone]
    refine ⟨hfirst, fun r hr => ?_⟩
    by_cases hs : r.timing.segment = e.timing.segment
    · by_cases hk : r.timing.segment = k
      · rw [if_pos hk, List.filter_cons_of_pos (by simpa using hs.symm.trans hk)]
        by_cases he : e.IsHigh
        · rw [pulses_run he hs, pulses_run he hs, hsome r fun a ha => hr a (by simp [ha]), if_pos hk]
        · rw [pulses_fall he hs, pulses_fall he hs, List.filter_cons_of_pos (by simpa using hk), hnone]
      · rw [if_neg hk, List.filter_cons_of_neg (by simpa [← hs] using hk)]
        by_cases he : e.IsHigh
        · rw [pulses_run he hs, hsome r fun a ha => hr a (by simp [ha]), if_neg hk]
        · rw [pulses_fall he hs, List.filter_cons_of_neg (by simpa using hk), hnone]
    · rw [pulses_segment hs, hfirst]
      split
      · -- The segment of the open pulse is over, so that nothing is left of it.
        have hempty : (e :: es).filter (·.timing.segment = k) = [] := by
          refine List.filter_eq_nil_iff.mpr fun a ha => ?_
          have hle := hr e (by simp)
          rw [decide_eq_true_eq]
          rcases List.mem_cons.mp ha with rfl | ha
          · omega
          · have := hlater a ha
            omega
        rw [hempty]
        rfl
      · rfl

/-- The pulses of a list in order are the runs of its segments. -/
theorem mem_pulses_iff_isRun (hord : es.Pairwise fun a b => a.timing.segment ≤ b.timing.segment) :
    h ∈ pulses none es ↔ h.IsRun (es.filter (·.timing.segment = h.rise.timing.segment)) := by
  have hfilter := (pulses_inSegment h.rise.timing.segment hord).1
  have hmem : h ∈ pulses none es ↔
      h ∈ (pulses none es).filter (·.rise.timing.segment = h.rise.timing.segment) := by
    simp [List.mem_filter]
  rw [hmem, hfilter, (mem_pulses _).1]
  apply isCut_iff_isRun
  exact fun e he => of_decide_eq_true (List.mem_filter.mp he).2

theorem IsRun.mem (hr : h.IsRun es) : h.rise ∈ es ∧ h.fall ∈ es := by
  obtain ⟨pre, mid, post, rfl, -⟩ := hr
  simp

end HighTime

namespace Shot

variable {s : Shot} {trigger : Nat}

/-- A pulse on a clock is shorter than the devices on a trigger need. -/
def IsTooShort (s : Shot) (trigger : Nat) (h : HighTime) : Prop :=
  Float.ofInt (h.fall.timing.ticks - h.rise.timing.ticks) * s.timebaseOf (s.clockBelow (.device trigger)) <
    (s.limitsAt trigger).triggerDuration * (1 - 1e-9)

/-- What is reported about the pulses of a trigger whose values are listed in order. -/
structure ReportsPulses (s : Shot) (trigger : Nat) (es : List Entry) (vs : List Violation) : Prop where
  /-- A value starts a run within its segment, and the pulse is too short. -/
  measured : 0 < (s.limitsAt trigger).triggerDuration → ∀ c ∈ es,
    OnceIf (timesBlamed .triggerTooShort c vs) (∃ z : Entry,
      HighTime.IsRun ⟨c, z⟩ (es.filter (·.timing.segment = c.timing.segment)) ∧
        s.IsTooShort trigger ⟨c, z⟩)
  silent : (s.limitsAt trigger).triggerDuration ≤ 0 → ∀ v ∈ vs, v.code ≠ .triggerTooShort
  others : ∀ v ∈ vs, v.code = .triggerTooShort → ∃ c ∈ es, v.node = c.node.ref

/-- The values of a trigger are placed by its clock. -/
theorem Clocked.timebase_of_constant (hc : s.Clocked) {e : Entry} (he : e.IsIn s) (ho : e.IsOn trigger)
    (hk : e.instruction.kind = .constant) :
    s.timebase e.instruction = s.timebaseOf (s.clockBelow (.device trigger)) := by
  rw [← (hc.instruction he).inherited _ ho, timebase]
  cases ha : e.instruction.action with
  | constant v => rfl
  | _ => simp [Instruction.kind, ha, Action.kind] at hk

/-- Only pulses that are too short are reported as such. -/
theorem filter_tooShort (hk : s.kind? trigger = some .trigger) :
    (s.findingsAt trigger).filter (·.code? = some .triggerTooShort) = s.triggerFindings trigger := by
  have houtput : (s.outputFindings trigger).filter (·.code? = some .triggerTooShort) = [] := by
    refine List.filter_eq_nil_iff.mpr fun f hf => ?_
    have hkind := placement_or_conflict hf
    cases f <;> simp [Finding.isPlacement, Finding.isConflict, Finding.code?] at hkind ⊢
  have hpulses : (s.triggerFindings trigger).filter (·.code? = some .triggerTooShort) =
      s.triggerFindings trigger := by
    refine List.filter_eq_self.mpr fun f hf => ?_
    obtain ⟨h, -, w, rfl⟩ := exists_pulse hf
    rfl
  rw [findingsAt_eq hk, findingsOf, List.filter_append, houtput, hpulses, List.nil_append]

section

variable (hs : s.WellFormed) (hc : s.Clocked) (hk : s.kind? trigger = some .trigger)
  (hconst : ∀ e ∈ s.entries (s.instructionsOf (.device trigger)), e.instruction.kind = .constant)
  (hord : (s.entries (s.instructionsOf (.device trigger))).Pairwise Entry.StandsBefore)
include hs hc hconst

theorem isTooShort_iff {h : HighTime} (hf : h.fall ∈ s.entries (s.instructionsOf (.device trigger))) :
    s.IsTooShort trigger h ↔ Float.ofInt h.ticks * s.timebase h.fall.instruction <
      (s.limitsAt trigger).triggerDuration * (1 - 1e-9) := by
  obtain ⟨hin, hon⟩ := hs.mem_entries_of.mp hf
  rw [hc.timebase_of_constant hin hon (hconst _ hf)]
  rfl

include hord

/-- A value is blamed for a pulse as often as a pulse that is too short starts with it. -/
theorem onceIf_pulse (hm : ¬ (s.limitsAt trigger).triggerDuration ≤ 0) {c : Entry}
    (hmem : c ∈ s.entries (s.instructionsOf (.device trigger))) :
    OnceIf ((s.triggerFindings trigger).countP (Finding.Blames .triggerTooShort c ·)) (∃ z : Entry,
      HighTime.IsRun ⟨c, z⟩ ((s.entries (s.instructionsOf (.device trigger))).filter
        (·.timing.segment = c.timing.segment)) ∧ s.IsTooShort trigger ⟨c, z⟩) := by
  have hid : (s.entries (s.instructionsOf (.device trigger))).Pairwise fun a b => a.id ≠ b.id :=
    pairwise_entries (hs.instructions.nodup _) fun _ _ _ _ h => h
  have hsegments : (s.entries (s.instructionsOf (.device trigger))).Pairwise
      fun a b => a.timing.segment ≤ b.timing.segment := hord.imp fun {a b} hab => by
    unfold Entry.StandsBefore at hab
    omega
  have hcount : (s.triggerFindings trigger).countP (Finding.Blames .triggerTooShort c ·) =
      (HighTime.pulses none (s.entries (s.instructionsOf (.device trigger)))).countP fun h =>
        Float.ofInt h.ticks * s.timebase h.fall.instruction <
          (s.limitsAt trigger).triggerDuration * (1 - 1e-9) ∧ h.rise.id = c.id := by
    rw [triggerFindings, if_neg hm, List.countP_filterMap]
    refine List.countP_congr fun h _ => ?_
    dsimp only
    split <;> simp [*, Finding.Blames, Finding.code?, Finding.node, Entry.node]
  have hrises := hid.sublist (HighTime.rises_sublist _).1
  rw [List.pairwise_map] at hrises
  rw [hcount]
  refine (onceIf_countP (hrises.imp fun {h h'} hne hboth => ?_)).congr ?_
  · simp only [decide_eq_true_eq] at hboth
    exact hne (hboth.1.2.trans hboth.2.2.symm)
  · simp only [decide_eq_true_eq, HighTime.mem_pulses_iff_isRun hsegments]
    constructor
    · rintro ⟨⟨rise, fall⟩, hrun, hshort, hrise⟩
      obtain ⟨hr, hf⟩ := hrun.mem
      have hrc : rise = c := eq_of_id (hs.mem_entries_of.mp (List.mem_of_mem_filter hr)).1
        (hs.mem_entries_of.mp hmem).1 hrise
      subst hrc
      exact ⟨fall, hrun, (isTooShort_iff hs hc hconst (List.mem_of_mem_filter hf)).mpr hshort⟩
    · rintro ⟨z, hrun, hshort⟩
      exact ⟨⟨c, z⟩, hrun, (isTooShort_iff hs hc hconst (List.mem_of_mem_filter hrun.mem.2)).mp hshort, rfl⟩

include hk

theorem reportsPulses : s.ReportsPulses trigger (s.entries (s.instructionsOf (.device trigger)))
    (s.violations (s.findingsAt trigger)) := by
  have hblamed : ∀ f ∈ s.triggerFindings trigger,
      ∃ a ∈ s.entries (s.instructionsOf (.device trigger)), f.node = a.node := by
    intro f hf
    obtain ⟨h, hh, width, rfl⟩ := exists_pulse hf
    exact ⟨h.rise, (HighTime.rises_sublist _).1.subset (List.mem_map_of_mem hh), rfl⟩
  have hfound : ∀ v ∈ s.violations (s.findingsAt trigger), v.code = .triggerTooShort →
      ∃ f ∈ s.triggerFindings trigger, v.node = (s.subject f.node).ref := by
    intro v hv hcode
    obtain ⟨f, hf, hfc, hnode⟩ := mem_violations hv
    have hmem : f ∈ (s.findingsAt trigger).filter (·.code? = some .triggerTooShort) :=
      List.mem_filter.mpr ⟨hf, by simp [hfc, hcode]⟩
    rw [filter_tooShort hk] at hmem
    exact ⟨f, hmem, hnode⟩
  constructor
  case measured =>
    intro hm c hmem
    rw [timesBlamed_filter, filter_tooShort hk,
      timesBlamed_violations hs.instructions_fit (hs.mem_entries_of.mp hmem).1]
    · exact onceIf_pulse hs hc hconst hord (Number.Double.not_le_of_lt hm) hmem
    · intro f hf _
      obtain ⟨a, ha, hnode⟩ := hblamed f hf
      exact ⟨a, (hs.mem_entries_of.mp ha).1, hnode⟩
  case silent =>
    intro hm v hv hcode
    obtain ⟨f, hf, -⟩ := hfound v hv hcode
    rw [triggerFindings, if_pos hm] at hf
    cases hf
  case others =>
    intro v hv hcode
    obtain ⟨f, hf, hnode⟩ := hfound v hv hcode
    obtain ⟨a, ha, hfa⟩ := hblamed f hf
    rw [hfa] at hnode
    exact ⟨a, ha, hnode.trans (ref_subject (hs.mem_entries_of.mp ha).1)⟩

end

end Shot

namespace Compile
open Shot

variable {p : Progress} {id : Nat}

/-- The check of a trigger measures every run of the values in order. -/
theorem reportsPulses_of_check (hs : p.shot.WellFormed) (hc : p.shot.Clocked)
    (hk : p.shot.kind? id = some .trigger)
    (hconst : ∀ e ∈ p.shot.entries (p.shot.instructionsOf (.device id)), e.instruction.kind = .constant)
    (hord : (p.shot.entries (p.shot.instructionsOf (.device id))).Pairwise Entry.StandsBefore) :
    ∃ vs ms, Reports (checkPass.after id) p vs ms ∧
      p.shot.ReportsPulses id (p.shot.entries (p.shot.instructionsOf (.device id))) vs :=
  ⟨_, _, reports_check p id, reportsPulses hs hc hk hconst hord⟩

/-- On a clock that ticks twice in a unit of time, a trigger for a device that needs pulses of 4: a high
value within a pulse, a low value after one, and a pulse that a wait cuts short. -/
private def pulsed : List Command := [
  .openShot "pulsed" {} {},
  .addDevice 0 (.shot 0) { name := "master", equipment := .pseudoclockDevice 0 } {},
  .addDevice 0 (.device 0 0) { name := "clock", equipment := .pseudoclock ⟨0.5, 0, 0.5⟩ } {},
  .addDevice 0 (.device 0 1) { name := "line", equipment := .clockLine } {},
  .addDevice 0 (.device 0 2) { name := "card", equipment := .clockableDevice 0 0 } {},
  .addDevice 0 (.device 0 3) { name := "trigger", equipment := .trigger } {},
  .addDevice 0 (.device 0 4) { name := "camera", equipment := .triggerableDevice 4 } {},
  .start 0,
  .addInstruction 0 (.shot 0) (.wait 50 "w") {},
  .issue (.device 0 4) (.constant 10 1) {},
  .issue (.device 0 4) (.constant 12 2) {},
  .issue (.device 0 4) (.constant 13 0) {},
  .issue (.device 0 4) (.constant 20 1) {},
  .issue (.device 0 4) (.constant 24 0) {},
  .issue (.device 0 4) (.constant 25 0) {},
  .issue (.device 0 4) (.constant 48 1) {},
  .issue (.device 0 4) (.constant 51 0) {},
  .issue (.device 0 4) (.constant 60 1) {},
  .issue (.device 0 4) (.constant 61 0) {},
  .nextPhase 0,
  .convertTiming 0 (.shot 0)]

theorem reportsPulses_of_pulsed : ∃ (p : Progress) (vs : List Violation) (ms : List Message),
    p.shot.WellFormed ∧ p.shot.Clocked ∧ p.shot.kind? 4 = some .trigger ∧
    (∀ e ∈ p.shot.entries (p.shot.instructionsOf (.device 4)), e.instruction.kind = .constant) ∧
    (p.shot.entries (p.shot.instructionsOf (.device 4))).Pairwise Entry.StandsBefore ∧
    0 < (p.shot.limitsAt 4).triggerDuration ∧ Reports (checkPass.after 4) p vs ms ∧
    p.shot.ReportsPulses 4 (p.shot.entries (p.shot.instructionsOf (.device 4))) vs ∧
    vs.map (fun v => (v.code, v.node)) =
      [(.triggerTooShort, (Node.instruction 1).ref), (.triggerTooShort, (Node.instruction 9).ref)] := by
  have hrun : ((Session.script pulsed).shot? 0).any fun s => s.kind? 4 = some .trigger ∧
      (∀ e ∈ s.entries (s.instructionsOf (.device 4)), e.instruction.kind = .constant) ∧
      (s.entries (s.instructionsOf (.device 4))).Pairwise Entry.StandsBefore ∧
      0 < (s.limitsAt 4).triggerDuration ∧ s.report.violations = #[] ∧
      (after (checkPass.after 4) ⟨s, #[]⟩).shot.report.violations.toList.map (fun v => (v.code, v.node)) =
        [(.triggerTooShort, (Node.instruction 1).ref), (.triggerTooShort, (Node.instruction 9).ref)] := by
    decide +kernel
  obtain ⟨s, hs, hp⟩ := (Option.any_eq_true _ _).mp hrun
  obtain ⟨hk, hconst, hord, hneeded, hempty, hreport⟩ := of_decide_eq_true hp
  have hr : s.Reachable false := reachable_of_script (by decide) hs
  have hw := hr.grown.wellFormed
  have hc := hr.grown.clocked
  obtain ⟨vs, ms, hvs, hpulses⟩ := reportsPulses_of_check (p := ⟨s, #[]⟩) hw hc hk hconst hord
  rw [hvs.after_eq] at hreport
  refine ⟨⟨s, #[]⟩, vs, ms, hw, hc, hk, hconst, hord, hneeded, hvs, hpulses, ?_⟩
  simpa [hempty] using hreport

end Compile
end ShotTiming
