import ShotTiming.Proofs.Shot.Resolved
import ShotTiming.Proofs.Validation.Scan

/-! # The validation of a timed shot

The pass enters every device once, so it never stops half way, and its report lists what is found on
the devices, children first. The verdict is whether one of these findings is a violation.
-/
namespace ShotTiming

namespace Shot

/-- The violations among some findings. -/
def violations (s : Shot) (fs : List Finding) : List Violation :=
  fs.filterMap fun f =>
    match f.note s with
    | .violation v => some v
    | .warning _ => none

/-- What is worth a warning among some findings. -/
def warnings (s : Shot) (fs : List Finding) : List Message :=
  fs.filterMap fun f =>
    match f.note s with
    | .violation _ => none
    | .warning text => some ⟨.warn, text⟩

/-- The shot with some findings in its report. -/
def noted (s : Shot) (fs : List Finding) : Shot :=
  { s with report := ⟨s.report.violations ++ (s.violations fs).toArray⟩ }

/-- The shot with some devices entered for their validation. -/
def entered (s : Shot) (ids : List Nat) : Shot :=
  { s with calls := s.calls.markAll (ids.map fun id => (Node.device id).ref) .checkInstructions }

/-- All that is found on a shot. -/
def allFindings (s : Shot) : List Finding :=
  s.waitFindings ++ (s.below .shot).postorder.flatMap s.findingsAt

/-- The shot in its last phase. -/
def advanced (s : Shot) : Shot := { s with calls := { s.calls with phase := .checkInstructions } }

/-- The shot with its own validation entered and nothing in its report. -/
def opened (s : Shot) : Shot :=
  { s with calls := s.calls.mark Node.shot.ref .checkInstructions, report := {} }

/-- The shot with every device checked and a new report. -/
def checked (s : Shot) : Shot := (s.opened.entered (s.below .shot).toList).noted s.allFindings

/-- No user has replaced the validation of a device. -/
def ChecksAll (s : Shot) : Prop := ∀ id d, s.device? id = some d → d.hooks.check = .standard

variable {s : Shot}

theorem note_eq (s : Shot) (f : Finding) :
    (f.isViolation ∧ ∃ v, f.note s = .violation v) ∨ (¬ f.isViolation ∧ ∃ t, f.note s = .warning t) := by
  cases f
  case sharedTick => exact .inr ⟨by simp [Finding.isViolation], _, rfl⟩
  all_goals exact .inl ⟨rfl, _, rfl⟩

theorem violations_eq_nil {fs : List Finding} :
    s.violations fs = [] ↔ Finding.Clear fs := by
  rw [violations, List.filterMap_eq_nil_iff]
  refine forall₂_congr fun f _ => ?_
  rcases s.note_eq f with ⟨hv, v, hn⟩ | ⟨hv, t, hn⟩ <;> simp [hn, hv]

/-! What is found depends neither on the calls nor on the report. -/

private theorem violations_with (calls : Calls) (report : Report) :
    violations { s with calls, report } = s.violations := rfl

private theorem warnings_with (calls : Calls) (report : Report) :
    warnings { s with calls, report } = s.warnings := rfl

private theorem waitFindings_with (calls : Calls) (report : Report) :
    waitFindings { s with calls, report } = s.waitFindings := rfl

private theorem findingsAt_with (calls : Calls) (report : Report) :
    findingsAt { s with calls, report } = s.findingsAt := rfl

@[simp] theorem violations_noted (fs : List Finding) : (s.noted fs).violations = s.violations :=
  violations_with s.calls _

@[simp] theorem warnings_noted (fs : List Finding) : (s.noted fs).warnings = s.warnings :=
  warnings_with s.calls _

@[simp] theorem findingsAt_noted (fs : List Finding) : (s.noted fs).findingsAt = s.findingsAt :=
  findingsAt_with s.calls _

@[simp] theorem violations_entered (ids : List Nat) : (s.entered ids).violations = s.violations :=
  violations_with _ s.report

@[simp] theorem findingsAt_entered (ids : List Nat) : (s.entered ids).findingsAt = s.findingsAt :=
  findingsAt_with _ s.report

@[simp] theorem violations_opened : s.opened.violations = s.violations := violations_with _ _

@[simp] theorem waitFindings_opened : s.opened.waitFindings = s.waitFindings := waitFindings_with _ _

@[simp] theorem findingsAt_opened : s.opened.findingsAt = s.findingsAt := findingsAt_with _ _

@[simp] theorem allFindings_advanced : s.advanced.allFindings = s.allFindings := by
  have hw : s.advanced.waitFindings = s.waitFindings := waitFindings_with _ s.report
  have hf : s.advanced.findingsAt = s.findingsAt := findingsAt_with _ s.report
  have hb : s.advanced.below .shot = s.below .shot := rfl
  rw [allFindings, hw, hf, hb]
  rfl

theorem noted_nil : s.noted [] = s := by simp [noted, violations]

theorem noted_noted (fs gs : List Finding) : (s.noted fs).noted gs = s.noted (fs ++ gs) := by
  have happ : s.violations (fs ++ gs) = s.violations fs ++ s.violations gs := List.filterMap_append
  rw [noted, violations_noted, noted, noted, happ, ← List.append_toArray, Array.append_assoc]

theorem entered_noted (fs : List Finding) (ids : List Nat) :
    (s.noted fs).entered ids = (s.entered ids).noted fs := by
  have hall : (s.entered ids).noted fs = { s.entered ids with report :=
      ⟨(s.entered ids).report.violations ++ ((s.entered ids).violations fs).toArray⟩ } := rfl
  rw [hall, violations_entered]
  rfl

theorem entered_append (ids ids' : List Nat) : (s.entered ids).entered ids' = s.entered (ids ++ ids') := by
  simp [entered, Calls.markAll]

@[simp] theorem phase_checked (s : Shot) : s.checked.phase = s.phase := Calls.phase_markAll _

theorem report_checked (s : Shot) : s.checked.report.isEmpty ↔ Finding.Clear s.allFindings := by
  rw [← violations_eq_nil (s := s), checked, noted, violations_entered, violations_opened]
  simp [Report.isEmpty, entered, opened]

end Shot

namespace Compile
open Shot

variable {p : Progress}

/-- A finding goes to the report or to the log. -/
theorem run_note (f : Finding) : (note f).run p =
    .ok () ⟨p.shot.noted [f], p.messages ++ (p.shot.warnings [f]).toArray⟩ := by
  rw [note, EStateM.run_bind, run_shot]
  rcases p.shot.note_eq f with ⟨-, v, hn⟩ | ⟨-, t, hn⟩
  · simp [hn, noted, violations, warnings, Report.add]
  · simp [hn, noted, violations, warnings]

/-- Findings go to the report and to the log in their order. -/
theorem run_notes (fs : List Finding) : (fs.forM note).run p =
    .ok () ⟨p.shot.noted fs, p.messages ++ (p.shot.warnings fs).toArray⟩ := by
  induction fs generalizing p with
  | nil =>
    rw [noted_nil]
    simp [warnings]
  | cons f fs ih =>
    have hfs := ih (p := ⟨p.shot.noted [f], p.messages ++ (p.shot.warnings [f]).toArray⟩)
    have happ : p.shot.warnings (f :: fs) = p.shot.warnings [f] ++ p.shot.warnings fs :=
      List.filterMap_append (l := [f])
    rw [run_forM_cons, run_note]
    dsimp only
    rw [hfs, noted_noted, warnings_noted, happ, ← List.append_toArray, Array.append_assoc]
    rfl

/-- The calls of the validation that have not been made, for devices that are there and whose
validation is not replaced. -/
structure Checkable (s : Shot) (ids : List Nat) : Prop where
  phase : s.phase = .checkInstructions
  fresh : ∀ id ∈ ids, s.calls.called (Node.device id).ref .checkInstructions = false
  standard : ∀ id ∈ ids, ∃ d, s.device? id = some d ∧ d.hooks.check = .standard
  fit : s.devices.size ≤ arenaCapacity
  nodup : ids.Nodup

theorem Checkable.left {s : Shot} {ids ids' : List Nat} (h : Checkable s (ids ++ ids')) :
    Checkable s ids where
  phase := h.phase
  fresh id hid := h.fresh id (by simp [hid])
  standard id hid := h.standard id (by simp [hid])
  fit := h.fit
  nodup := (List.nodup_append.mp h.nodup).1

theorem Checkable.right {s : Shot} {ids ids' : List Nat} (h : Checkable s (ids ++ ids'))
    (fs : List Finding) : Checkable ((s.entered ids).noted fs) ids' where
  phase := (Calls.phase_markAll _).trans h.phase
  fresh id hid := by
    have hold := h.fresh id (by simp [hid])
    rw [← Bool.not_eq_true] at hold ⊢
    change ¬ (Calls.markAll _ _ _).called _ _
    rw [Calls.called_markAll]
    rintro (hc | ⟨hm, -⟩)
    · exact hold hc
    · obtain ⟨k, hk, he⟩ := List.mem_map.mp hm
      have hlt : ∀ j ∈ ids ++ ids', j < arenaCapacity := fun j hj => by
        obtain ⟨d, hd, -⟩ := h.standard j hj
        exact Nat.lt_of_lt_of_le (device?_eq_some hd) h.fit
      obtain rfl := Node.device_ref_inj (hlt k (by simp [hk])) (hlt id (by simp [hid])) he
      exact (List.nodup_append.mp h.nodup).2.2 k hk k hid rfl
  standard id hid := h.standard id (by simp [hid])
  fit := h.fit
  nodup := (List.nodup_append.mp h.nodup).2.1

private theorem run_enter_check {id : Nat} (h : Checkable p.shot [id]) :
    (enter (.device id) .checkInstructions).run p = .ok () ⟨p.shot.entered [id], p.messages⟩ := by
  have hen := Calls.enter_of_fresh (c := p.shot.calls) (o := .checkInstructions) h.phase.symm rfl
    (h.fresh id (by simp))
  rw [enter, run_enterAs, Shot.enterAs, hen]
  rfl

private theorem run_hookOf_check {id : Nat} {d : Device} (hd : p.shot.device? id = some d)
    (hk : d.hooks.check = .standard) : (checkPass.hookOf id).run p = .ok .standard p := by
  rw [Pass.hookOf, EStateM.run_bind, run_shot]
  change EStateM.Result.ok ((p.shot.device? id).elim _ _) p = _
  rw [hd]
  exact congrArg (EStateM.Result.ok · p) hk

/-- One device is entered, then its children are visited, then its findings are noted. -/
private theorem run_onDevice_check {id : Nat} {children : Compile Unit} {q : Progress}
    (h : Checkable p.shot [id])
    (hc : children.run ⟨p.shot.entered [id], p.messages⟩ = .ok () q) :
    ∃ messages, (checkPass.onDevice id children).run p =
      .ok () ⟨q.shot.noted (q.shot.findingsAt id), messages⟩ := by
  obtain ⟨d, hd, hk⟩ := h.standard id (by simp)
  have hnotes := run_notes (p := q) (q.shot.findingsAt id)
  refine ⟨q.messages ++ (q.shot.warnings (q.shot.findingsAt id)).toArray, ?_⟩
  have henter : (enter (.device id) checkPass.operation).run p = _ := run_enter_check h
  rw [Pass.onDevice, EStateM.run_bind, henter]
  dsimp only
  rw [EStateM.run_bind, run_hookOf_check (p := ⟨p.shot.entered [id], p.messages⟩) hd hk]
  have hafter : checkPass.after id = shot >>= fun s => (s.findingsAt id).forM note := rfl
  have hbefore : checkPass.before id = pure () := rfl
  simp only [hbefore, pure_bind]
  rw [EStateM.run_bind, hc]
  dsimp only
  rw [hafter, EStateM.run_bind, run_shot]
  exact hnotes

/-- The pass goes through, and reports what is found on the devices of the forest. -/
theorem run_visit_check (f : Forest) (h : Checkable p.shot f.toList) :
    ∃ messages, (checkPass.visit f).run p =
      .ok () ⟨(p.shot.entered f.toList).noted (f.postorder.flatMap p.shot.findingsAt), messages⟩ := by
  induction f generalizing p with
  | empty => exact ⟨p.messages, by simp [Pass.visit, Forest.postorder, Forest.toList, noted_nil, entered]⟩
  | grow id below later ihb ihl =>
    have hall : Checkable p.shot ([id] ++ below.toList ++ later.toList) := by simpa [Forest.toList] using h
    have hb : Checkable (p.shot.entered [id]) below.toList := by
      simpa [noted_nil] using hall.left.right []
    obtain ⟨m₁, hbelow⟩ := ihb (p := ⟨p.shot.entered [id], p.messages⟩) hb
    obtain ⟨m₂, hdevice⟩ := run_onDevice_check hall.left.left hbelow
    obtain ⟨m₃, hlater⟩ := ihl (p := ⟨(p.shot.entered ([id] ++ below.toList)).noted
      (below.postorder.flatMap p.shot.findingsAt ++ p.shot.findingsAt id), m₂⟩) (hall.right _)
    refine ⟨m₃, ?_⟩
    simp only [findingsAt_noted, findingsAt_entered, noted_noted, entered_append] at hdevice
    simp only [findingsAt_noted, findingsAt_entered, noted_noted, entered_append, entered_noted] at hlater
    rw [Pass.visit, EStateM.run_bind, hdevice]
    dsimp only
    rw [hlater]
    simp [Forest.toList, Forest.postorder]

private theorem run_forM_say {α : Type} (level : Level) (text : α → String) (xs : Array α) :
    (xs.forM fun x => say level (text x)).run p =
      .ok () ⟨p.shot, p.messages ++ xs.map fun x => ⟨level, text x⟩⟩ := by
  obtain ⟨xs⟩ := xs
  rw [Array.forM, ← Array.foldlM_toList]
  induction xs generalizing p with
  | nil => simp [EStateM.run_pure]
  | cons x xs ih =>
    rw [List.foldlM_cons, EStateM.run_bind, run_say]
    dsimp only
    rw [ih]
    simp

/-- What the log says about a violation. -/
def violationMessage (v : Violation) : Message := ⟨.error, v.text ++ "\n"⟩

/-- A shot without a violation is compiled, any other is refused with its report. -/
theorem run_conclude : (p.shot.report.isEmpty ∧ ∃ messages, conclude.run p = .ok () ⟨p.shot, messages⟩) ∨
    (¬ p.shot.report.isEmpty ∧ conclude.run p = .error (.invalid p.shot.report)
      ⟨p.shot, p.messages ++ p.shot.report.violations.map violationMessage⟩) := by
  rw [conclude, EStateM.run_bind, run_shot]
  by_cases he : p.shot.report.isEmpty
  · exact .inl ⟨he, by simp [he]⟩
  · refine .inr ⟨he, ?_⟩
    simp only [he, Bool.false_eq_true, if_false, EStateM.run_bind]
    rw [run_forM_say]
    rfl

/-- The phase of the conversion may be left once every instruction has had its call. -/
theorem firstMissing?_convertTiming {s : Shot} (hp : s.phase = .convertTiming)
    (hc : ∀ id < s.instructions.size, s.calls.called (Node.instruction id).ref .convertTiming) :
    s.firstMissing? = none := by
  refine firstMissing?_eq_none.mpr fun n hn => Calls.missing?_eq_none.mpr fun o ho _ hr => ?_
  have ho' : o = .convertTiming := by
    have : o.phase = .convertTiming := ho.trans hp
    cases o <;> simp_all [Operation.phase]
  subst ho'
  cases n with
  | instruction id => exact hc id (by simpa [mem_nodes] using hn)
  | _ => cases hr

/-- The last phase is complete once the shot and every device have had their call. -/
theorem firstMissing?_checkInstructions {s : Shot} (hp : s.phase = .checkInstructions)
    (hs : s.calls.called Node.shot.ref .checkInstructions)
    (hc : ∀ id < s.devices.size, s.calls.called (Node.device id).ref .checkInstructions) :
    s.firstMissing? = none := by
  refine firstMissing?_eq_none.mpr fun n hn => Calls.missing?_eq_none.mpr fun o ho _ hr => ?_
  have ho' : o = .checkInstructions := by
    have : o.phase = .checkInstructions := ho.trans hp
    cases o <;> simp_all [Operation.phase]
  subst ho'
  cases n with
  | shot => exact hs
  | device id => exact hc id (by simpa [mem_nodes] using hn)
  | instruction id => cases hr

/-- The validation of a shot goes through if no device has been checked before. -/
theorem run_checkInstructions (hs : p.shot.DevicesLinked) (hfit : p.shot.devices.size ≤ arenaCapacity)
    (hp : p.shot.phase = .checkInstructions)
    (hfresh : ∀ r, p.shot.calls.called r .checkInstructions = false) (hstd : p.shot.ChecksAll) :
    ∃ messages, checkInstructions.run p = .ok () ⟨p.shot.checked, messages⟩ := by
  have hcheckable : Checkable (p.shot.opened.noted p.shot.waitFindings) (p.shot.below .shot).toList := by
    refine ⟨hp, fun id _ => ?_, fun id hid => ?_, hfit, hs.nodup_below .shot⟩
    · rw [← Bool.not_eq_true]
      change ¬ (Calls.mark _ _ _).called _ _
      rw [Calls.called_mark, hfresh]
      simp [Node.ref]
    · obtain ⟨d, hd⟩ := exists_device (hs.mem_below_shot.mp hid)
      exact ⟨d, hd, hstd id d hd⟩
  have hen := Calls.enter_of_fresh (c := p.shot.calls) (o := .checkInstructions) hp.symm rfl
    (hfresh Node.shot.ref)
  have henter : (enter .shot .checkInstructions).run p =
      .ok () ⟨{ p.shot with calls := p.shot.calls.mark Node.shot.ref .checkInstructions }, p.messages⟩ := by
    rw [enter, run_enterAs, Shot.enterAs, hen]
  have hnotes := run_notes (p := ⟨p.shot.opened, p.messages⟩) p.shot.waitFindings
  generalize p.messages ++ (p.shot.opened.warnings p.shot.waitFindings).toArray = m₁ at hnotes
  obtain ⟨m₂, hvisit⟩ := run_visit_check
    (p := ⟨p.shot.opened.noted p.shot.waitFindings, m₁⟩) (p.shot.below .shot) hcheckable
  refine ⟨m₂, ?_⟩
  have hrun : checkInstructions.run p =
      (checkPass.visit (p.shot.below .shot)).run ⟨p.shot.opened.noted p.shot.waitFindings, m₁⟩ := by
    rw [checkInstructions, EStateM.run_bind, henter]
    change EStateM.run (p.shot.opened.waitFindings.forM note >>= fun _ => checkPass.runBelowShot)
      ⟨p.shot.opened, p.messages⟩ = _
    rw [waitFindings_opened, EStateM.run_bind, hnotes]
    rfl
  simp only [entered_noted, noted_noted, findingsAt_noted, findingsAt_opened] at hvisit
  rw [hrun, hvisit]
  rfl

/-- A timed shot is compiled if nothing is found that violates a rule, and otherwise refused with its
report. -/
theorem run_judge (h : p.shot.Resolved) (hstd : p.shot.ChecksAll) :
    (Finding.Clear p.shot.allFindings ∧
        ∃ messages, judge.run p = .ok () ⟨p.shot.advanced.checked, messages⟩) ∨
      (¬ Finding.Clear p.shot.allFindings ∧ ∃ messages, judge.run p =
        .error (.invalid p.shot.advanced.checked.report) ⟨p.shot.advanced.checked, messages⟩) := by
  have hadv : p.shot.calls.advance? = some { p.shot.calls with phase := .checkInstructions } := by
    have hp : p.shot.calls.phase = .convertTiming := h.phase
    simp [Calls.advance?, hp, Phase.next?]
  obtain ⟨m₁, hnext⟩ := run_nextPhase (firstMissing?_convertTiming h.phase h.called) hadv
  have hnext' : nextPhase.run p = .ok () ⟨p.shot.advanced, m₁⟩ := hnext
  have hlinks : SameLinks p.shot p.shot.advanced := .of_eq rfl rfl rfl rfl rfl rfl
  have hwf := hlinks.wellFormed h.wellFormed
  obtain ⟨m₂, hcheck⟩ := run_checkInstructions (p := ⟨p.shot.advanced, m₁⟩) hwf.devices
    hwf.devices_referable rfl h.fresh hstd
  have hcomplete : p.shot.advanced.checked.firstMissing? = none := by
    refine firstMissing?_checkInstructions (phase_checked _) ?_ fun id hid => ?_
    · exact Calls.called_markAll.mpr (.inl (Calls.called_mark.mpr (.inr ⟨rfl, rfl⟩)))
    · refine Calls.called_markAll.mpr (.inr ⟨List.mem_map.mpr ⟨id, ?_, rfl⟩, rfl⟩)
      exact hwf.devices.mem_below_shot.mpr hid
  have hjudge : judge.run p = conclude.run ⟨p.shot.advanced.checked, m₂⟩ := by
    rw [judge, EStateM.run_bind, hnext']
    dsimp only
    rw [EStateM.run_bind, hcheck]
    dsimp only
    rw [EStateM.run_bind, run_checkAllCalled, hcomplete]
  have hreport := report_checked p.shot.advanced
  rw [allFindings_advanced] at hreport
  rw [hjudge]
  rcases run_conclude (p := ⟨p.shot.advanced.checked, m₂⟩) with ⟨he, m, hrun⟩ | ⟨he, hrun⟩
  · exact .inl ⟨hreport.mp he, _, hrun⟩
  · exact .inr ⟨mt hreport.mpr he, _, hrun⟩

end Compile
end ShotTiming
