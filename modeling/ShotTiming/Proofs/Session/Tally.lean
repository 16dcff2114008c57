import ShotTiming.Proofs.Compile.Verdict
import ShotTiming.Proofs.Session.Building

/-! # How a refusal counts its violations

Before its verdict, a stop logs no error unless it fails there. The verdict logs each violation once, in
the order of the report, and counts them in 16 bits: from 65536 violations on, the code is not their number.
-/
namespace ShotTiming

/-- The messages that report an error. -/
def errors (messages : Array Message) : Array Message := messages.filter (·.level = .error)

theorem errors_append (a b : Array Message) : errors (a ++ b) = errors a ++ errors b := by simp [errors]

theorem errors_push_of_ne {m : Message} (h : m.level ≠ .error) (messages : Array Message) :
    errors (messages.push m) = errors messages := by simp [errors, h]

theorem errors_violationMessage (violations : Array Violation) :
    errors (violations.map Compile.violationMessage) = violations.map Compile.violationMessage := by
  refine Array.filter_eq_self.mpr fun m hm => ?_
  obtain ⟨v, -, rfl⟩ := Array.mem_map.mp hm
  rfl

/-- A threshold keeps all errors or none. -/
theorem errors_admitted (threshold : Level) (messages : Array Message) :
    errors (messages.filter (threshold.admits ·.level)) =
      if threshold.admits .error then errors messages else #[] := by
  rw [errors, Array.filter_filter]
  have hlevel : ∀ m : Message, (decide (m.level = .error) && threshold.admits m.level) =
      (decide (m.level = .error) && threshold.admits .error) := fun m => by
    by_cases hm : m.level = .error <;> simp [hm]
  simp only [hlevel]
  split <;> simp_all [errors]

theorem Fault.code_invalid (report : Report) : (Fault.invalid report).code = report.size % 65536 := by
  simp [Fault.code]

namespace Compile
open Shot

variable {α β : Type}

/-- A step that logs no error unless it fails, and does not fail with a report. -/
def Quiet (x : Compile α) : Prop := ∀ p,
  match x.run p with
  | .ok _ q => errors q.messages = errors p.messages
  | .error e _ => e.report? = none

namespace Quiet

theorem pure (a : α) : Quiet (Pure.pure a : Compile α) := fun _ => rfl

theorem throw {e : Fault} (he : e.report? = none) : Quiet (MonadExcept.throw e : Compile α) := fun _ => he

theorem shot : Quiet Compile.shot := fun _ => rfl

theorem modifyShot (f : Shot → Shot) : Quiet (modifyShot f) := fun _ => rfl

theorem report (v : Violation) : Quiet (report v) := modifyShot _

theorem say {level : Level} (h : level ≠ .error) (text : String) : Quiet (say level text) := fun _ =>
  errors_push_of_ne h _

theorem bind {x : Compile α} {f : α → Compile β} (hx : Quiet x) (hf : ∀ a, Quiet (f a)) :
    Quiet (x >>= f) := by
  intro p
  have hxp := hx p
  rw [EStateM.run_bind]
  cases hrun : x.run p with
  | error e q =>
    rw [hrun] at hxp
    exact hxp
  | ok a q =>
    rw [hrun] at hxp
    have hfq := hf a q
    dsimp only at hxp ⊢
    cases hfrun : (f a).run q with
    | error e r =>
      rw [hfrun] at hfq
      exact hfq
    | ok b r =>
      rw [hfrun] at hfq
      exact hfq.trans hxp

theorem forM {xs : List β} {f : β → Compile PUnit} (hf : ∀ b, Quiet (f b)) : Quiet (xs.forM f) := by
  induction xs with
  | nil => exact pure _
  | cons x xs ih => exact (hf x).bind fun _ => ih

theorem check {f : Shot → Except Fault Unit} (hf : ∀ s e, f s = .error e → e.report? = none) :
    Quiet (check f) := by
  refine shot.bind fun s => ?_
  split
  · exact pure _
  · exact throw (hf s _ ‹_›)

theorem checkPhase (n : Node) (o : Operation) : Quiet (Compile.check fun s => s.checkPhase n o) := by
  refine check fun s e he => ?_
  unfold Shot.checkPhase checkPhaseAs at he
  split at he <;> cases he
  rfl

theorem enter (n : Node) (o : Operation) : Quiet (enter n o) := by
  refine shot.bind fun s => ?_
  split
  · exact modifyShot _
  · rename_i e he
    refine throw ?_
    unfold Shot.enterAs at he
    split at he <;> cases he <;> rfl

theorem setStopTime (time : Float) : Quiet (setStopTime time) := by
  refine shot.bind fun s => ?_
  split
  · exact throw rfl
  · exact modifyShot _

theorem checkAllCalled : Quiet checkAllCalled := by
  refine shot.bind fun s => ?_
  split
  · exact pure _
  · exact throw rfl

theorem nextPhase : Quiet nextPhase := by
  refine checkAllCalled.bind fun _ => shot.bind fun s => ?_
  split
  · exact throw rfl
  · exact (say (by decide) _).bind fun _ => modifyShot _

/-! ## Timing -/

theorem convert (id : Nat) (waits : Array Float) : Quiet (convert id waits) := by
  refine shot.bind fun s => ?_
  split
  · exact throw rfl
  · refine (enter _ _).bind fun _ => shot.bind fun s => ?_
    split
    · exact modifyShot _
    · exact (modifyShot _).bind fun _ => throw rfl

/-- What misses the grid is logged as an error, and collected. So this step is quiet only if nothing does. -/
private theorem convertEach (waits : Array Float) (ids : List Nat) (p : Progress) :
    match (convertEach waits ids).run p with
    | .ok missed q => missed = [] → errors q.messages = errors p.messages
    | .error e _ => e.report? = none := by
  induction ids generalizing p with
  | nil => exact fun _ => rfl
  | cons id ids ih =>
    have hone := convert id waits p
    rw [run_convertEach_cons]
    cases hrun : (Compile.convert id waits).run p with
    | ok u q =>
      rw [hrun] at hone
      dsimp only at hone ⊢
      rw [← hone]
      exact ih q
    | error e q =>
      rw [hrun] at hone
      cases e with
      | quantisation f =>
        cases f with
        | single m =>
          have hrest := ih { q with messages := q.messages.push ⟨.error, m.message ++ "\n"⟩ }
          dsimp only
          cases hothers : (Compile.convertEach waits ids).run
              { q with messages := q.messages.push ⟨.error, m.message ++ "\n"⟩ } with
          | ok others t => exact fun hnil => absurd hnil (List.cons_ne_nil _ _)
          | error e t =>
            rw [hothers] at hrest
            exact hrest
        | batch => exact hone
      | _ => exact hone

/-- Collecting what misses the grid is quiet, since it fails if anything does. -/
theorem convertTogether (waits : Array Float) (ids : List Nat) : Quiet (convertTogether waits ids) := by
  intro p
  have heach := convertEach waits ids p
  rw [Compile.convertTogether, EStateM.run_bind]
  cases hrun : (Compile.convertEach waits ids).run p with
  | error e q =>
    rw [hrun] at heach
    exact heach
  | ok missed q =>
    rw [hrun] at heach
    cases missed with
    | nil => exact heach rfl
    | cons first others => rfl

theorem convertTiming : Quiet convertTiming := by
  have hcollect : Quiet collectWaits := by
    refine (modifyShot _).bind fun _ => shot.bind fun s => ?_
    split
    · exact pure _
    · exact throw rfl
  refine (checkPhase _ _).bind fun _ => hcollect.bind fun _ => shot.bind fun s => ?_
  dsimp only
  split
  · exact (convertTogether _ _).bind fun _ => modifyShot _
  · exact (forM fun id => convert id _).bind fun _ => modifyShot _

/-! ## Validation -/

/-- A finding is reported, or logged as a warning. -/
theorem note (f : Finding) : Quiet (note f) := by
  refine shot.bind fun s => ?_
  split
  · exact report _
  · exact say (by decide) _

theorem visit {p : Pass} (hb : ∀ id, Quiet (p.before id)) (ha : ∀ id, Quiet (p.after id)) (f : Forest) :
    Quiet (p.visit f) := by
  induction f with
  | empty => exact pure _
  | grow id below later ihb ihl =>
    refine bind ((enter _ _).bind fun _ => (shot.bind fun _ => pure _).bind fun hook => ?_) fun _ => ihl
    cases hook with
    | skip => exact pure _
    | standard => exact (hb id).bind fun _ => ihb.bind fun _ => ha id
    | twice => exact (hb id).bind fun _ => ihb.bind fun _ => (ha id).bind fun _ => ihb

theorem checkInstructions : Quiet checkInstructions := by
  refine (enter _ _).bind fun _ => (modifyShot _).bind fun _ => shot.bind fun s => ?_
  refine (forM note).bind fun _ => shot.bind fun s => ?_
  exact visit (fun _ => pure _) (fun _ => shot.bind fun _ => forM note) _

end Quiet

/-- Everything that a stop does before its verdict. -/
def untilVerdict (time : Float) : Compile Unit := do
  resolve time
  nextPhase
  checkInstructions
  checkAllCalled

theorem stop_eq_verdict (time : Float) : stop time = untilVerdict time >>= fun _ => conclude := by
  simp [stop, untilVerdict, resolve]

theorem quiet_untilVerdict (time : Float) : Quiet (untilVerdict time) := by
  have hresolve : Quiet (resolve time) := (Quiet.checkPhase _ _).bind fun _ =>
    (Quiet.setStopTime time).bind fun _ => Quiet.nextPhase.bind fun _ => Quiet.convertTiming
  exact hresolve.bind fun _ => Quiet.nextPhase.bind fun _ => Quiet.checkInstructions.bind fun _ =>
    Quiet.checkAllCalled

variable {p q : Progress} {time : Float} {report : Report}

/-- A stop that is refused with a report has logged the violations of the report as its only errors. -/
theorem refused_of_stop (h : (stop time).run p = .error (.invalid report) q) :
    q.shot.report = report ∧ report.isEmpty = false ∧
      errors q.messages = errors p.messages ++ report.violations.map violationMessage := by
  have hquiet := quiet_untilVerdict time p
  rw [stop_eq_verdict, EStateM.run_bind] at h
  cases hrun : (untilVerdict time).run p with
  | error e r =>
    rw [hrun] at hquiet h
    cases h
    cases hquiet
  | ok u r =>
    rw [hrun] at hquiet h
    dsimp only at hquiet h
    rcases run_conclude (p := r) with ⟨-, messages, hok⟩ | ⟨hfull, hrefused⟩
    · rw [hok] at h
      cases h
    · rw [hrefused] at h
      cases h
      refine ⟨rfl, by simpa using hfull, ?_⟩
      rw [errors_append, errors_violationMessage, hquiet]

end Compile

/-! ## Too many values -/

namespace Shot

/-- A shot with one static output, on a device that does nothing else, and with no instructions but values
of this output. -/
structure HoldsValues (s : Shot) (n : Nat) : Prop where
  plain : s.IsPlain
  devices : s.devices.size = 2
  holder : s.kind? 0 = some .staticDevice
  output : s.kind? 1 = some .staticOutput
  size : s.instructions.size = n
  value : ∀ id < n, s.instructionKind? id = some .static

instance (s : Shot) (n : Nat) : Decidable (s.HoldsValues n) :=
  decidable_of_iff (s.IsPlain ∧ s.devices.size = 2 ∧ s.kind? 0 = some .staticDevice ∧
      s.kind? 1 = some .staticOutput ∧ s.instructions.size = n ∧
      ∀ id < n, s.instructionKind? id = some .static)
    ⟨fun ⟨hp, hd, hh, ho, hn, hv⟩ => ⟨hp, hd, hh, ho, hn, hv⟩,
      fun h => ⟨h.plain, h.devices, h.holder, h.output, h.size, h.value⟩⟩

theorem length_violations {s : Shot} {fs : List Finding} (h : ∀ f ∈ fs, f.isViolation) :
    (s.violations fs).length = fs.length := by
  rw [violations, List.length_filterMap_eq_countP, List.countP_eq_length]
  intro f hf
  rcases s.note_eq f with ⟨-, v, hn⟩ | ⟨hv, -⟩
  · simp [hn]
  · exact absurd (h f hf) hv

theorem size_checked (s : Shot) : s.checked.report.size = (s.violations s.allFindings).length := by
  rw [checked, noted, violations_entered, violations_opened]
  simp [Report.size, entered, opened]

namespace HoldsValues

variable {s s' : Shot} {n : Nat} {i : Instruction} {site : Site}

theorem of_sameLinks (h : s.HoldsValues n) (hs : SameLinks s s') : s'.HoldsValues n where
  plain := hs.isPlain h.plain
  devices := hs.devices_size.trans h.devices
  holder := (hs.kind? 0).trans h.holder
  output := (hs.kind? 1).trans h.output
  size := hs.instructions_size.trans h.size
  value id hid := (hs.instructionKind? id).trans (h.value id hid)

theorem kind (h : s.HoldsValues n) {id : Nat} (hi : s.instruction? id = some i) : i.kind = .static := by
  have hlt := instruction?_eq_some hi
  have hkind := h.value id (h.size ▸ hlt)
  simpa [instructionKind?, hi] using hkind

/-- There are no waits. -/
theorem ownInstructions_eq (h : s.HoldsValues n) (hs : s.WellFormed) : s.ownInstructions = #[] := by
  refine Array.eq_empty_iff_forall_not_mem.mpr fun id hid => ?_
  have ho := hs.instructions.mem_own.mp hid
  obtain ⟨i, hi⟩ := exists_instruction (lt_of_owner? ho)
  have hwait := hs.isWait_of_own hi (by simpa [owner?, hi] using ho)
  cases hwait.symm.trans (h.kind hi)

theorem allFit (h : s.HoldsValues n) : s.AllFit := fun id i hi => by
  rw [Fits, placing, Placing.instruction, h.kind hi]
  exact ⟨_, rfl⟩

/-- Another value enters the output. -/
theorem withInstruction (h : s.HoldsValues n) (hi : i.kind = .static) :
    (s.withInstruction (.device 1) i site).HoldsValues (n + 1) where
  plain := by
    have htree : SameTree s (s.withInstruction (.device 1) i site) :=
      ⟨rfl, rfl, rfl, map_device?_withInstruction Device.fixed i fun _ _ => rfl⟩
    exact htree.isPlain h.plain
  devices := by rw [devices_size_withInstruction, h.devices]
  holder := by rw [kind?_withInstruction, h.holder]
  output := by rw [kind?_withInstruction, h.output]
  size := by rw [instructions_size_withInstruction, h.size]
  value id hid := by
    rw [instructionKind?_withInstruction, hi, h.size]
    split
    · rfl
    · exact h.value id (by omega)

/-- The output takes more values. -/
theorem admits (h : s.HoldsValues n) (hp : s.phase = .addInstructions) (hi : i.kind = .static) :
    s.AdmitsInstruction (.device 1) i where
  phase := hp
  accepted := by
    obtain ⟨d, hd, hk⟩ := Option.map_eq_some_iff.mp h.output
    have htable := (h.plain.device hd).keepsTables.acceptedInstructions
    rw [hk] at htable
    simp only [acceptedInstructions, hd, Option.elim_some, htable, hi]
    decide
  clock _ hk := absurd hi hk

/-- All that is found on such a shot is that its output is set again. -/
theorem allFindings_perm (h : s.HoldsValues n) (hs : s.WellFormed) (hw : s.waits = #[]) :
    s.allFindings.Perm (s.staticFindings 1) := by
  have hwaits : s.waitFindings = [] := by simp [waitFindings, entries, hw]
  have htimed : s.outputFindings 1 = [] := by
    have hnone : s.timedEntries (s.instructionsOf (.device 1)) = [] := by
      refine List.filter_eq_nil_iff.mpr fun e he => ?_
      rw [h.kind (mem_entries.mp he).2]
      decide
    simp [outputFindings, hnone]
  have hperm : (s.below .shot).postorder.Perm (List.range 2) := by
    rw [← h.devices]
    exact (Forest.postorder_perm _).trans hs.devices.descendants_perm
  have hholder : s.findingsAt 0 = [] := findingsAt_eq h.holder
  have houtput : s.findingsAt 1 = s.outputFindings 1 ++ s.staticFindings 1 := findingsAt_eq h.output
  have hrange : (List.range 2).flatMap s.findingsAt = s.findingsAt 0 ++ s.findingsAt 1 := by
    simp [List.range_succ]
  rw [allFindings, hwaits, List.nil_append]
  refine (hperm.flatMap_right _).trans (.of_eq ?_)
  rw [hrange, hholder, houtput, htimed, List.nil_append, List.nil_append]

/-- Every value is on the output. -/
theorem instructionsOf_perm (h : s.HoldsValues n) (hs : s.WellFormed) :
    (s.instructionsOf (.device 1)).Perm (List.range n) := by
  refine (List.perm_ext_iff_of_nodup (hs.instructions.nodup _) List.nodup_range).mpr fun id => ?_
  rw [hs.instructions.mem_instructionsOf, List.mem_range, ← h.size]
  constructor
  · exact lt_of_owner?
  · intro hid
    obtain ⟨i, hi⟩ := exists_instruction hid
    obtain ⟨p, ho, hp⟩ := hs.host_of_static h.plain.keepsTables hi (h.kind hi)
    obtain ⟨d, hd, -⟩ := Option.map_eq_some_iff.mp hp
    have hlt := device?_eq_some hd
    have hne : p ≠ 0 := by
      rintro rfl
      cases h.holder.symm.trans hp
    have hone : p = 1 := by
      have := h.devices
      omega
    simp [owner?, hi, ho, hone]

/-- Every value but the first is found. -/
theorem length_staticFindings (h : s.HoldsValues n) (hs : s.WellFormed) :
    (s.staticFindings 1).length = n - 1 := by
  have hall : (s.entries (s.instructionsOf (.device 1))).filter (·.instruction.kind == .static) =
      s.entries (s.instructionsOf (.device 1)) := by
    refine List.filter_eq_self.mpr fun e he => ?_
    rw [h.kind (mem_entries.mp he).2]
    decide
  have hlength : (s.entries (s.instructionsOf (.device 1))).length = n := by
    rw [entries, List.length_filterMap_eq_countP, List.countP_eq_length.mpr]
    · rw [(h.instructionsOf_perm hs).length_eq, List.length_range]
    · intro id hid
      obtain ⟨i, hi⟩ := exists_instruction (lt_of_owner? (hs.instructions.mem_instructionsOf.mp hid))
      simp [hi]
  rw [staticFindings, hall, ← hlength]
  cases s.entries (s.instructionsOf (.device 1)) with
  | nil => rfl
  | cons first others => simp

theorem size_report (h : s.HoldsValues (n + 1)) (hs : s.WellFormed) (hw : s.waits = #[]) :
    s.checked.report.size = n := by
  have hperm := h.allFindings_perm hs hw
  rw [size_checked, length_violations, hperm.length_eq, h.length_staticFindings hs, Nat.add_sub_cancel]
  intro f hf
  obtain ⟨e, first, rfl⟩ := exists_setAgain (hperm.mem_iff.mp hf)
  rfl

end HoldsValues
end Shot

namespace Compile
open Shot

variable {p : Progress} {n : Nat} {raw : Bool}

/-- A stop of a shot with too many values reports all of them but the first. -/
theorem refused_of_values (hr : p.shot.Reachable raw) (hp : p.shot.phase = .addInstructions)
    (ht : p.shot.EndsBy 0) (h : p.shot.HoldsValues (n + 1)) (hn : 0 < n) :
    ∃ report q, (stop 0).run p = .error (.invalid report) q ∧ report.size = n := by
  have hs := hr.grown.stoppable hp
  have hown := h.ownInstructions_eq hs.wellFormed
  have hapart : p.shot.WaitsApart := by simp [WaitsApart, hown]
  obtain ⟨messages, hrun⟩ := run_resolve_fit hs ht hapart h.allFit
  have hres := (resolved_of_run hs hrun).2
  have hlinks : SameLinks p.shot (p.shot.stopped 0).timed := sameLinks_of_resolve hs hrun
  have hadvanced : SameLinks p.shot (p.shot.stopped 0).timed.advanced :=
    hlinks.trans (.of_eq rfl rfl rfl rfl rfl rfl)
  have hvalues := h.of_sameLinks hadvanced
  have hwf := hadvanced.wellFormed hs.wellFormed
  have hwaits : (p.shot.stopped 0).timed.advanced.waits = #[] := by
    have hsorted : (p.shot.stopped 0).sortedWaits.Perm p.shot.ownInstructions.toList := sortedWaits_perm
    have htimed : (p.shot.stopped 0).timed.advanced.waits = (p.shot.stopped 0).sortedWaits.toArray :=
      waits_timed
    rw [hown] at hsorted
    rw [htimed, hsorted.eq_nil]
  have hsize := hvalues.size_report hwf hwaits
  rw [run_stop_of_resolve hrun]
  rcases run_judge hres (hlinks.isPlain h.plain).checksAll with ⟨hclear, -⟩ | ⟨-, messages', hrefused⟩
  · rw [← allFindings_advanced, ← report_checked] at hclear
    have hnone : (p.shot.stopped 0).timed.advanced.checked.report.size = 0 := by
      simpa [Report.isEmpty, Report.size] using hclear
    omega
  · exact ⟨_, _, hrefused, hsize⟩

end Compile

namespace Session
open Act

private theorem run_stop (s : Session) (k : Nat) (time : Float) :
    (perform (.stop k time)).run s =
      match s.shot? k with
      | none => .error (.use .noSuchNode) s
      | some a =>
        match (Compile.stop time).run ⟨a, #[]⟩ with
        | .ok _ q => .ok .done (s.absorb k q)
        | .error e q => .error e (s.absorb k q) := by
  have hperform : perform (.stop k time) = onShot k (Compile.stop time) >>= fun _ => pure .done := rfl
  rw [hperform, EStateM.run_bind, run_onShot]
  cases s.shot? k with
  | none => rfl
  | some a =>
    dsimp only
    cases (Compile.stop time).run ⟨a, #[]⟩ <;> rfl

/-- A shot with one static output. -/
private def panel : List Command := [
  .openShot "panel" {} {},
  .addDevice 0 (.shot 0) { name := "card", equipment := .staticDevice } {},
  .addDevice 0 (.device 0 0) { name := "lamp", equipment := .staticOutput } {},
  .start 0]

/-- A number of values for the output. -/
private def values (n : Nat) : List Command :=
  panel ++ List.replicate n (.issue (.device 0 1) (.static 0) {})

private theorem exists_shot_values {n : Nat} (hn : n ≤ arenaCapacity) :
    ∃ s, (script (values n)).shot? 0 = some s ∧ s.phase = .addInstructions ∧ s.EndsBy 0 ∧
      s.HoldsValues n := by
  induction n with
  | zero =>
    have hrun : ((script (values 0)).shot? 0).any fun s => s.phase = .addInstructions ∧
        s.firstAfter? 0 = none ∧ s.HoldsValues 0 := by decide +kernel
    obtain ⟨s, hs, hp⟩ := (Option.any_eq_true _ _).mp hrun
    obtain ⟨hphase, hlate, hvalues⟩ := of_decide_eq_true hp
    exact ⟨s, hs, hphase, Shot.firstAfter?_eq_none.mp hlate, hvalues⟩
  | succ n ih =>
    obtain ⟨s, hs, hphase, hends, hvalues⟩ := ih (by omega)
    have hscript : script (values (n + 1)) =
        (script (values n)).carryOut (.issue (.device 0 1) (.static 0) {}) := by
      simp [script, values, List.replicate_succ', List.foldl_append]
    let value : Instruction := { time := 0, action := .static 0 }
    have hfree : ¬ arenaCapacity ≤ s.instructions.size + 0 := by
      rw [hvalues.size]
      omega
    have hrun := Act.run_issue hs 1 (.static 0) rfl {}
    rw [Build.run_addInstruction (hvalues.admits hphase rfl), if_neg hfree] at hrun
    refine ⟨s.withInstruction (.device 1) value {}, ?_, ?_, ?_, hvalues.withInstruction rfl⟩
    · rw [hscript, carryOut, after, hrun]
      exact (replaces_setIfInBounds hs _).after
    · rwa [Shot.phase, Shot.calls_withInstruction]
    · intro id i hi
      rw [Shot.instruction?_withInstruction] at hi
      split at hi
      · cases hi
        have hzero : (0 : Float) ≤ 0 := by decide +kernel
        exact hzero
      · exact hends id i hi

/-- One value more than `n` is refused with `n` violations. -/
private theorem exists_refused_values {n : Nat} (hn : 0 < n) (hfit : n < arenaCapacity) :
    ∃ report s', (perform (.stop 0 0)).run (script (values (n + 1))) = .error (.invalid report) s' ∧
      report.size = n := by
  obtain ⟨s, hs, hphase, hends, hvalues⟩ := exists_shot_values hfit
  have hraw : ∀ c ∈ values (n + 1), false ∨ c.isRaw = false := by
    have hpanel : ∀ c ∈ panel, false ∨ c.isRaw = false := by decide
    intro c hc
    rcases List.mem_append.mp hc with hc | hc
    · exact hpanel c hc
    · rw [List.eq_of_mem_replicate hc]
      exact .inr rfl
  have hr : s.Reachable false := Shot.reachable_of_script hraw hs
  obtain ⟨report, q, hstop, hsize⟩ :=
    Compile.refused_of_values (p := ⟨s, #[]⟩) hr hphase hends hvalues hn
  refine ⟨report, (script (values (n + 1))).absorb 0 q, ?_, hsize⟩
  rw [run_stop, hs]
  dsimp only
  rw [hstop]

/-- A shot of a session is refused with a report. The code counts the violations in 16 bits. Each of them
has been logged as an error, in the order of the report, if the threshold lets errors through. -/
structure Refuses (s s' : Session) (k : Nat) (report : Report) : Prop where
  kept : (s'.shot? k).map (·.report) = some report
  nonempty : report.isEmpty = false
  code : (Fault.invalid report).code = report.size % 65536
  counts : (Fault.invalid report).code = report.size ↔ report.size < 65536
  logged : ∃ sent, s'.log = s.log ++ sent ∧
    errors sent = if s.threshold.admits .error then report.violations.map Compile.violationMessage else #[]

/-- Whatever the shot, a stop that is refused with a report counts its violations in 16 bits and logs each
of them. -/
theorem refuses_of_stop {s s' : Session} {k : Nat} {time : Float} {report : Report}
    (h : (perform (.stop k time)).run s = .error (.invalid report) s') : s.Refuses s' k report := by
  rw [run_stop] at h
  cases ha : s.shot? k with
  | none =>
    rw [ha] at h
    cases h
  | some a =>
    rw [ha] at h
    dsimp only at h
    cases hrun : (Compile.stop time).run ⟨a, #[]⟩ with
    | ok u q =>
      rw [hrun] at h
      cases h
    | error e q =>
      rw [hrun] at h
      cases h
      obtain ⟨hreport, hfull, herrors⟩ := Compile.refused_of_stop hrun
      have hcode := Fault.code_invalid report
      constructor
      case kept => rw [shot?_absorb ha, Option.map_some, hreport]
      case nonempty => exact hfull
      case code => exact hcode
      case counts =>
        rw [hcode]
        omega
      case logged =>
        refine ⟨_, rfl, ?_⟩
        rw [errors_admitted, herrors]
        simp [errors]

/-- Three values are refused with two violations. -/
theorem refuses_of_values : ∃ report s',
    (perform (.stop 0 0)).run (script (values 3)) = .error (.invalid report) s' ∧ report.size = 2 ∧
      (script (values 3)).Refuses s' 0 report := by
  obtain ⟨report, s', hrun, hsize⟩ := exists_refused_values (n := 2) (by decide) (by decide)
  exact ⟨report, s', hrun, hsize, refuses_of_stop hrun⟩

/-- 65537 values are refused with 65536 violations, of which the code counts none. -/
theorem code_eq_zero_of_values : ∃ report s',
    (perform (.stop 0 0)).run (script (values 65537)) = .error (.invalid report) s' ∧
      report.size = 65536 ∧ (Fault.invalid report).code = 0 := by
  obtain ⟨report, s', hrun, hsize⟩ := exists_refused_values (n := 65536) (by decide) (by decide)
  refine ⟨report, s', hrun, hsize, ?_⟩
  rw [Fault.code_invalid, hsize]

end Session
end ShotTiming
