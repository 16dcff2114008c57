import ShotTiming.Proofs.Shot.Settled

/-! # Shots whose timing is resolved

What validation may rely on: the shot is settled, every instruction has its place among the waits, and
the waits rise.
-/
namespace ShotTiming.Shot
/-- A shot that has been stopped and timed, and not validated yet. -/
structure Resolved (s : Shot) : Prop extends s.Settled where
  phase : s.phase = .convertTiming
  fresh : ∀ r, s.calls.called r .checkInstructions = false
  endsBy : s.EndsBy s.stopTime
  timed : ∀ id i, s.instruction? id = some i →
    s.placing s.waitTimes { i with timing := {} } = .ok () i.timing

variable {s : Shot}

/-- A conversion that succeeds leaves the shot resolved. -/
theorem Stoppable.resolved {time : Float} (hs : s.Stoppable) (ht : s.EndsBy time)
    (hw : s.WaitsApart) (hf : s.AllFit) : (s.stopped time).timed.Resolved := by
  have hstop := sameLinks_stopped s time
  have hwf := hstop.wellFormed hs.wellFormed
  constructor
  case toSettled =>
    refine hwf.settled_timed rfl ?_ hf
    rw [firstClash?_stopped]
    exact (hs.wellFormed.firstClash?_eq_none (isTimely_of_endsBy hs.wellFormed ht)).mpr hw
  case phase =>
    change Calls.phase _ = _
    rw [calls_timed, Calls.phase_markAll]
    rfl
  case fresh =>
    intro r
    rw [← Bool.not_eq_true, calls_timed, Calls.called_markAll]
    rintro (hc | ⟨-, hc⟩)
    · have := hs.not_called r (o := .checkInstructions) (by decide)
      rw [Calls.called] at this hc
      rw [show (s.stopped time).calls.made = s.calls.made from rfl, this] at hc
      cases hc
    · cases hc
  case endsBy =>
    intro id i hi
    rw [stopTime_timed]
    rw [instruction?_timed hwf] at hi
    obtain ⟨j, hj, rfl⟩ := Option.map_eq_some_iff.mp hi
    have hle := ht id j hj
    unfold placed
    split <;> exact hle
  case timed =>
    intro id i hi
    obtain ⟨j, hj, hplacing⟩ := hwf.placing_timed hf hi
    rwa [(hs.untimed id j hj).2] at hplacing

/-- Once the shot is to end, every wait has a time. -/
theorem Resolved.isTimely (h : s.Resolved) : ∀ id ∈ s.ownInstructions, s.IsTimely id :=
  isTimely_of_endsBy h.wellFormed h.endsBy

end ShotTiming.Shot

namespace ShotTiming.Compile
open Shot

variable {p q : Progress} {time : Float}

/-- Only what passes all three questions is resolved. -/
theorem answers_of_run (h : p.shot.Stoppable) (hq : (resolve time).run p = .ok () q) :
    p.shot.EndsBy time ∧ p.shot.WaitsApart ∧ p.shot.AllFit := by
  have ht : p.shot.EndsBy time := by
    by_contra ht
    obtain ⟨id, -, hrun⟩ := run_resolve_late h ht
    rw [hrun] at hq
    cases hq
  have hw : p.shot.WaitsApart := by
    by_contra hw
    obtain ⟨a, b, messages, -, hrun⟩ := run_resolve_clash h ht hw
    rw [hrun] at hq
    cases hq
  have hf : p.shot.AllFit := by
    by_contra hf
    obtain ⟨f, r, hrun⟩ := run_resolve_misfit h ht hw hf
    rw [hrun] at hq
    cases hq
  exact ⟨ht, hw, hf⟩

/-- What is resolved is the timed shot. -/
theorem resolved_of_run (h : p.shot.Stoppable) (hq : (resolve time).run p = .ok () q) :
    q.shot = (p.shot.stopped time).timed ∧ q.shot.Resolved := by
  obtain ⟨ht, hw, hf⟩ := answers_of_run h hq
  obtain ⟨messages, hrun⟩ := run_resolve_fit h ht hw hf
  rw [hrun] at hq
  cases hq
  exact ⟨rfl, h.resolved ht hw hf⟩

end ShotTiming.Compile
