import ShotTiming.Proofs.Compile.Judge
import ShotTiming.Proofs.Session
import ShotTiming.Proofs.Validation.Legal

/-! # The verdict on a shot

Stopping a shot whose timing has been resolved ends well exactly if the shot is legal.
-/
namespace ShotTiming

namespace Shot

variable {s : Shot}

/-- Everything that is found is found on the waits or on one of the devices. -/
theorem DevicesLinked.clear_allFindings (hs : s.DevicesLinked) :
    Finding.Clear s.allFindings ↔
      Finding.Clear s.waitFindings ∧ ∀ id k, s.kind? id = some k → Finding.Clear (s.findingsAt id) := by
  rw [allFindings, Finding.clear_append, Finding.clear_flatMap]
  refine and_congr_right fun _ => ?_
  have hmem : ∀ id, id ∈ (s.below .shot).postorder ↔ ∃ k, s.kind? id = some k := fun id => by
    rw [(Forest.postorder_perm _).mem_iff, hs.mem_below_shot]
    constructor
    · intro hid
      obtain ⟨d, hd⟩ := exists_device hid
      exact ⟨d.kind, by simp [kind?, hd]⟩
    · rintro ⟨k, hk⟩
      obtain ⟨d, hd, -⟩ := Option.map_eq_some_iff.mp hk
      exact device?_eq_some hd
  simp only [hmem, forall_exists_index]

/-- What is found on a device of a kind. -/
def findingsOf (s : Shot) (id : Nat) : DeviceKind → List Finding
  | .clockLine => s.clockLineFindings id
  | .output => s.outputFindings id
  | .trigger => s.outputFindings id ++ s.triggerFindings id
  | .staticOutput => s.outputFindings id ++ s.staticFindings id
  | _ => []

theorem findingsAt_eq {id : Nat} {k : DeviceKind} (hk : s.kind? id = some k) :
    s.findingsAt id = s.findingsOf id k := by
  obtain ⟨d, hd, rfl⟩ := Option.map_eq_some_iff.mp hk
  simp only [findingsAt, hd, Option.elim_some]
  cases d.kind <;> rfl

/-- The values of a trigger are in order if its findings as an output are clear. -/
theorem Resolved.precedes (h : s.Resolved) (hp : s.IsPlain) {id : Nat} (hk : s.kind? id = some .trigger)
    (hclear : Finding.Clear (s.outputFindings id)) :
    (s.entries (s.instructionsOf (.device id))).Pairwise Entry.Precedes := by
  have htimed : ∀ e : Entry, e.IsIn s → e.IsOn id → e.IsTimed := fun e he ho => by
    rw [Entry.IsTimed, h.wellFormed.isConstant_of_trigger hp.keepsTables he ho hk]
    rfl
  refine h.precedes_of_apart hp hk fun a b ha hb hoa hob => ?_
  exact ((h.clear_output hp hk rfl).mp hclear).2 a b ha hb (htimed a ha hoa) (htimed b hb hob) hoa hob

theorem IsPlain.checksAll (hp : s.IsPlain) : s.ChecksAll := fun _ _ hd => (hp.device hd).2.2.1

/-- Where nothing is found on any device, nothing is found among the values of one that takes
values over time. -/
private theorem clear_values {id : Nat} {k : DeviceKind}
    (hall : ∀ id k, s.kind? id = some k → Finding.Clear (s.findingsOf id k)) (hk : s.kind? id = some k)
    (hcases : k = .output ∨ k = .trigger) : Finding.Clear (s.outputFindings id) := by
  rcases hcases with rfl | rfl
  · exact hall id _ hk
  · exact (Finding.clear_append.mp (hall id _ hk)).1

/-- A timed instruction is on an output, among whose values nothing is found. -/
private theorem Resolved.clear_host (h : s.Resolved) (hp : s.IsPlain)
    (hall : ∀ id k, s.kind? id = some k → Finding.Clear (s.findingsOf id k)) {e : Entry} (he : e.IsIn s)
    (ht : e.IsTimed) :
    ∃ id k, e.IsOn id ∧ s.kind? id = some k ∧ k.isOutput ∧ Finding.Clear (s.outputFindings id) := by
  obtain ⟨id, k, ho, hk, hcases⟩ := h.wellFormed.host_of_timed hp.keepsTables he ht
  have hout : k.isOutput := by
    rcases hcases with rfl | rfl <;> rfl
  exact ⟨id, k, ho, hk, hout, clear_values hall hk hcases⟩

/-- Where nothing is found, all rules hold. -/
theorem Resolved.legal_of_clear (h : s.Resolved) (hp : s.IsPlain)
    (hwaits : ∀ w : Entry, w.IsIn s → w.instruction.kind = .wait → 0 ≤ w.timing.ticks)
    (hall : ∀ id k, s.kind? id = some k → Finding.Clear (s.findingsOf id k)) : s.Legal where
  waits := hwaits
  contains e he ht := by
    obtain ⟨id, k, ho, hk, hout, hclear⟩ := h.clear_host hp hall he ht
    exact ((h.clear_output hp hk hout).mp hclear).1 e he ht ho
  apart a b ha hb hta htb hab := by
    obtain ⟨id, k, ho, hk, hout, hclear⟩ := h.clear_host hp hall ha hta
    exact ((h.clear_output hp hk hout).mp hclear).2 a b ha hb hta htb ho (hab.symm.trans ho)
  lines line hk := (h.wellFormed.clear_clockLine line).mp (hall line _ hk)
  triggers trigger hk := by
    obtain ⟨hout, htrigger⟩ := Finding.clear_append.mp (hall trigger _ hk)
    exact (h.clear_trigger (h.precedes hp hk hout)).mp htrigger
  statics a b ha hb hka hkb hab := by
    obtain ⟨id, ho, hk⟩ := h.wellFormed.host_of_static hp.keepsTables ha hka
    have hstatic := (Finding.clear_append.mp (hall id _ hk)).2
    exact (h.clear_static hk rfl).mp hstatic a b ha hb hka hkb ho (hab.symm.trans ho)

/-- Where all rules hold, nothing is found on a device. -/
theorem Resolved.clear_of_legal (h : s.Resolved) (hp : s.IsPlain) (hl : s.Legal) {id : Nat}
    {k : DeviceKind} (hk : s.kind? id = some k) : Finding.Clear (s.findingsOf id k) := by
  have hout : k.isOutput → Finding.Clear (s.outputFindings id) := by
    intro ho
    refine (h.clear_output hp hk ho).mpr ⟨fun e he ht _ => hl.contains e he ht, ?_⟩
    exact fun a b ha hb hta htb hoa hob => hl.apart a b ha hb hta htb (hoa.trans hob.symm)
  cases k with
  | clockLine => exact (h.wellFormed.clear_clockLine id).mpr (hl.lines id hk)
  | output => exact hout rfl
  | trigger =>
    refine Finding.clear_append.mpr ⟨hout rfl, ?_⟩
    exact (h.clear_trigger (h.precedes hp hk (hout rfl))).mpr (hl.triggers id hk)
  | staticOutput =>
    refine Finding.clear_append.mpr ⟨hout rfl, (h.clear_static hk rfl).mpr ?_⟩
    exact fun a b ha hb hka hkb hoa hob => hl.statics a b ha hb hka hkb (hoa.trans hob.symm)
  | _ => exact Finding.clear_nil

/-- Nothing is found that violates a rule exactly if all rules hold. -/
theorem Resolved.clear_iff_legal (h : s.Resolved) (hp : s.IsPlain) :
    Finding.Clear s.allFindings ↔ s.Legal := by
  have hfindings : (∀ id k, s.kind? id = some k → Finding.Clear (s.findingsAt id)) ↔
      ∀ id k, s.kind? id = some k → Finding.Clear (s.findingsOf id k) :=
    forall₂_congr fun id k => forall_congr' fun hk => by rw [findingsAt_eq hk]
  rw [h.wellFormed.devices.clear_allFindings, h.clear_waits hp, hfindings]
  constructor
  · rintro ⟨hwaits, hall⟩
    exact h.legal_of_clear hp hwaits hall
  · intro hl
    exact ⟨hl.waits, fun _ _ hk => h.clear_of_legal hp hl hk⟩

end Shot

namespace Compile
open Shot

variable {raw : Bool} {p q : Progress} {time : Float}

theorem sameLinks_of_resolve (h : p.shot.Stoppable) (hq : (resolve time).run p = .ok () q) :
    SameLinks p.shot q.shot := by
  have hstopped := sameLinks_stopped p.shot time
  rw [(resolved_of_run h hq).1]
  exact hstopped.trans (sameLinks_timed (hstopped.wellFormed h.wellFormed))

theorem run_stop_of_resolve (hq : (resolve time).run p = .ok () q) :
    (stop time).run p = judge.run q := by
  rw [stop_eq, EStateM.run_bind, hq]

theorem run_stop_of_error {e : Fault} (hq : (resolve time).run p = .error e q) :
    (stop time).run p = .error e q := by
  rw [stop_eq, EStateM.run_bind, hq]

/-- What a stop comes to once the timing is resolved. -/
theorem run_stop_of_resolved (hs : p.shot.Stoppable) (hp : p.shot.IsPlain)
    (hq : (resolve time).run p = .ok () q) :
    (q.shot.Legal ∧ ∃ messages, (stop time).run p = .ok () ⟨q.shot.advanced.checked, messages⟩) ∨
      (¬ q.shot.Legal ∧ ∃ report r, (stop time).run p = .error (.invalid report) r) := by
  have hres := (resolved_of_run hs hq).2
  have hplain := (sameLinks_of_resolve hs hq).isPlain hp
  rw [run_stop_of_resolve hq, ← hres.clear_iff_legal hplain]
  rcases run_judge hres hplain.checksAll with hok | ⟨hn, messages, hrun⟩
  · exact .inl hok
  · exact .inr ⟨hn, _, _, hrun⟩

/-- Once the timing of a shot is resolved, the shot is compiled exactly if it is legal, and refused
with a report otherwise. -/
theorem stop_ok_iff_legal (h : p.shot.Reachable raw) (hp : p.shot.IsPlain)
    (ha : p.shot.phase = .addInstructions) (hq : (resolve time).run p = .ok () q) :
    ((∃ r, (stop time).run p = .ok () r) ↔ q.shot.Legal) ∧
      (¬ q.shot.Legal → ∃ report r, (stop time).run p = .error (.invalid report) r) := by
  rcases run_stop_of_resolved (h.grown.stoppable ha) hp hq with
    ⟨hl, messages, hrun⟩ | ⟨hl, report, r, hrun⟩
  · exact ⟨iff_of_true ⟨_, hrun⟩ hl, fun hn => absurd hl hn⟩
  · refine ⟨iff_of_false ?_ hl, fun _ => ⟨report, r, hrun⟩⟩
    rintro ⟨r', hok⟩
    rw [hrun] at hok
    cases hok

/-- A ramp and a point that leave the clock line its period are legal. -/
theorem legal_of_bench : ∃ p q : Progress, p.shot.Reachable false ∧ p.shot.IsPlain ∧
    p.shot.phase = .addInstructions ∧ (resolve 200).run p = .ok () q ∧ q.shot.Legal := by
  let cs := Session.bench ++ [
    .issue (.device 0 4) (.function 0 100 (some (polynomial [0, 1])) 0.1) {},
    .issue (.device 0 5) (.constant 110 1) {}]
  have hrun : ((Session.script cs).shot? 0).any fun s => s.IsPlain ∧ s.phase = .addInstructions ∧
      isOk ((resolve 200).run ⟨s, #[]⟩) ∧ isOk ((stop 200).run ⟨s, #[]⟩) := by decide +kernel
  obtain ⟨s, hs, hp⟩ := (Option.any_eq_true _ _).mp hrun
  obtain ⟨hplain, hphase, hres, hstop⟩ := of_decide_eq_true hp
  obtain ⟨q, hq⟩ := exists_of_isOk hres
  have hr : s.Reachable false := reachable_of_script (by decide) hs
  have hlegal := (stop_ok_iff_legal (p := ⟨s, #[]⟩) hr hplain hphase hq).1.mp (exists_of_isOk hstop)
  exact ⟨⟨s, #[]⟩, q, hr, hplain, hphase, hq, hlegal⟩

/-- A shot is only stopped in the phase of its instructions. -/
theorem phase_of_stop (hq : (stop time).run p = .ok () q) : p.shot.phase = .addInstructions :=
  phase_of_check hq

/-- A compiled shot comes from a legal one, to which validation only added its calls and the report. -/
theorem legal_of_stop_ok (h : p.shot.Reachable raw) (hp : p.shot.IsPlain)
    (hq : (stop time).run p = .ok () q) :
    ∃ s : Shot, s.Resolved ∧ s.IsPlain ∧ s.Legal ∧ q.shot = s.advanced.checked := by
  have hs := h.grown.stoppable (phase_of_stop hq)
  have hstop : (stop time).run p = ((do resolve time; judge) : Compile Unit).run p := by rw [stop_eq]
  cases hr : (resolve time).run p with
  | error e r =>
    rw [hstop, EStateM.run_bind, hr] at hq
    cases hq
  | ok _ r =>
    rcases run_stop_of_resolved hs hp hr with ⟨hl, messages, hrun⟩ | ⟨-, report, r', hrun⟩
    · rw [hrun] at hq
      cases hq
      exact ⟨r.shot, (resolved_of_run hs hr).2, (sameLinks_of_resolve hs hr).isPlain hp, hl, rfl⟩
    · rw [hrun] at hq
      cases hq

end Compile
end ShotTiming
