import ShotTiming.Proofs.Compile.Changes
import ShotTiming.Proofs.Shot.Resolved

/-! # Conversions settle the timing

A conversion that ends well has given every instruction its call, so none was called before, and the
shot is settled. The same goes for a stop that gets as far as the last phase.
-/
namespace ShotTiming.Compile
open Relation Shot

variable {p q : Progress} {waits : Array Float} {id : Nat} {ids : List Nat} {time : Float} {raw : Bool}

private theorem called_after_convert {r : NodeRef} {o : Operation} (waits : Array Float) (id : Nat)
    (hc : p.shot.calls.called r o) : (after (convert id waits) p).shot.calls.called r o :=
  called_of_edits (staysIn_convert id waits p rfl) hc

/-- An instruction that has had its call is not timed again. -/
private theorem run_convert_called (waits : Array Float)
    (hc : p.shot.calls.called (Node.instruction id).ref .convertTiming) :
    ∃ e, (convert id waits).run p = .error e p ∧ ∀ f, e ≠ .quantisation f := by
  cases hi : p.shot.instruction? id with
  | none =>
    refine ⟨.use .noSuchNode, ?_, by simp⟩
    rw [convert, EStateM.run_bind, run_shot]
    simp only [hi]
    rfl
  | some i =>
    cases henter : p.shot.calls.enter (Node.instruction id).ref .convertTiming with
    | ok calls =>
      rw [(Calls.enter_eq_ok.mp henter).2.1] at hc
      cases hc
    | error e =>
      obtain ⟨f, hrun⟩ := run_convert_refused waits hi henter
      exact ⟨_, hrun, by simp⟩

private theorem fresh_of_forM (h : (ids.forM fun id => convert id waits).run p = .ok ⟨⟩ q) :
    ∀ id ∈ ids, ¬ p.shot.calls.called (Node.instruction id).ref .convertTiming := by
  induction ids generalizing p with
  | nil => simp
  | cons k ids ih =>
    rw [run_forM_cons] at h
    cases hk : (convert k waits).run p with
    | error e r =>
      rw [hk] at h
      cases h
    | ok u r =>
      rw [hk] at h
      intro id hid hc
      rcases List.mem_cons.mp hid with rfl | hid
      · obtain ⟨e, he, -⟩ := run_convert_called waits hc
        rw [hk] at he
        cases he
      · have hr := called_after_convert waits k hc
        rw [after, hk] at hr
        exact ih h id hid hr

private theorem fresh_of_convertEach {missed : List Misplaced}
    (h : (convertEach waits ids).run p = .ok missed q) :
    ∀ id ∈ ids, ¬ p.shot.calls.called (Node.instruction id).ref .convertTiming := by
  induction ids generalizing p missed with
  | nil => simp
  | cons k ids ih =>
    rw [run_convertEach_cons] at h
    intro id hid hc
    rcases List.mem_cons.mp hid with rfl | hid
    · obtain ⟨e, he, hne⟩ := run_convert_called waits hc
      rw [he] at h
      split at h
      · rename_i heq
        cases heq
      · rename_i heq
        cases heq
        exact hne _ rfl
      · cases h
    · have hr := called_after_convert waits k hc
      unfold after at hr
      split at h
      · rename_i heq
        rw [heq] at hr
        exact ih h id hid hr
      · rename_i m r heq
        rw [heq] at hr
        split at h
        · rename_i hrun
          cases h
          exact ih (p := ⟨r.shot, r.messages.push ⟨.error, m.message ++ "\n"⟩⟩) hrun id hid hr
        · cases h
      · cases h

/-- A conversion that ends well is the first call of every instruction. -/
private theorem fresh_of_conversion {together : Bool}
    (h : ((if together then convertTogether waits ids else ids.forM fun id => convert id waits) :
      Compile Unit).run p = .ok () q) :
    ∀ id ∈ ids, ¬ p.shot.calls.called (Node.instruction id).ref .convertTiming := by
  cases together with
  | false => exact fresh_of_forM h
  | true =>
    rw [if_pos rfl, convertTogether, EStateM.run_bind] at h
    cases heach : (convertEach waits ids).run p with
    | error e r =>
      rw [heach] at h
      cases h
    | ok missed r => exact fresh_of_convertEach heach

/-- A conversion ends well only if no waits clash and every instruction has a place, and then it leaves
the timed shot. -/
theorem timed_of_convertTiming (hw : p.shot.WellFormed) (hq : convertTiming.run p = .ok () q) :
    p.shot.phase = .convertTiming ∧ p.shot.firstClash? p.shot.sortedWaits = none ∧ p.shot.AllFit ∧
      q.shot = p.shot.timed := by
  have hp : p.shot.phase = .convertTiming := phase_of_check hq
  rw [run_convertTiming hp] at hq
  cases hclash : p.shot.firstClash? p.shot.sortedWaits with
  | some ab =>
    rw [hclash] at hq
    cases hq
  | none =>
    rw [hclash] at hq
    dsimp only at hq
    generalize hids : p.shot.descendantInstructions .shot true = ids at hq
    split at hq
    · rename_i u r hconv
      have hfresh := fresh_of_conversion hconv
      have hready : Ready p.shot.orderedWaits ids := by
        subst hids
        refine ⟨hp, fun id hid => ?_, fun id hid => ?_, hw.instructions_fit, ?_⟩
        · simpa using hfresh id hid
        · exact hw.mem_allInstructions.mp hid
        · exact hw.nodup_descendantInstructions .shot true
      rcases run_conversion p.shot.sortedTimes (p := ⟨p.shot.orderedWaits, p.messages⟩) hready
        p.shot.settings.batch with ⟨hfit, hrun⟩ | ⟨-, f, r', hrun⟩
      · rw [hconv] at hrun
        cases hrun
        cases hq
        subst hids
        refine ⟨hp, rfl, fun id i hi => hfit id ?_ i hi, rfl⟩
        exact hw.mem_allInstructions.mpr (instruction?_eq_some hi)
      · rw [hconv] at hrun
        cases hrun
    · cases hq

/-- A conversion that ends well settles the shot. -/
theorem settled_of_convertTiming (hw : p.shot.WellFormed) (hq : convertTiming.run p = .ok () q) :
    q.shot.Settled := by
  obtain ⟨hp, hclash, hfit, hshot⟩ := timed_of_convertTiming hw hq
  exact hshot ▸ hw.settled_timed hp hclash hfit

/-! ## Stops -/

/-- Once no instruction is late, the stop goes on in the phase of the conversion. -/
theorem phase_after_resolve (h : p.shot.Stoppable) (ht : p.shot.EndsBy time) :
    (after (resolve time) p).shot.phase = .convertTiming := by
  obtain ⟨messages, hrun⟩ := run_resolve h ht
  have hedits := staysIn_convertTiming ⟨p.shot.stopped time, messages⟩ rfl
  rw [after, hrun]
  exact phase_eq_of_edits hedits

/-- What goes wrong before the validation leaves the shot in front of the last phase. -/
private theorem phase_of_resolve_error (h : p.shot.Stoppable) {e : Fault}
    (hq : (resolve time).run p = .error e q) : q.shot.phase ≠ .checkInstructions := by
  by_cases ht : p.shot.EndsBy time
  · have hp := phase_after_resolve h ht
    rw [after, hq] at hp
    rw [hp]
    decide
  · obtain ⟨id, -, hrun⟩ := run_resolve_late h ht
    rw [hrun] at hq
    cases hq
    rw [h.phase]
    decide

/-- A stop that gets as far as the last phase has settled the shot, and every wait has a time. -/
theorem settled_of_stop (h : p.shot.Stoppable)
    (hp : (after (stop time) p).shot.phase = .checkInstructions) :
    (after (stop time) p).shot.Settled ∧
      ∀ id ∈ (after (stop time) p).shot.ownInstructions, (after (stop time) p).shot.IsTimely id := by
  rw [stop_eq, after_bind] at hp ⊢
  cases hq : (resolve time).run p with
  | error e q =>
    rw [hq] at hp
    exact absurd hp (phase_of_resolve_error h hq)
  | ok u q =>
    dsimp only
    have hres := (resolved_of_run h hq).2
    have hchanges : ReflTransGen (Change false) q.shot (after judge q).shot := moves_judge q
    have hlinks := hres.toSettled.sameLinks hchanges
    refine ⟨hres.toSettled.run hchanges, fun id hid => ?_⟩
    rw [hlinks.isTimely]
    have hown := (hlinks.listed .shot).mem_iff (a := id)
    simp only [instructionsOf, Array.mem_toList_iff] at hown
    exact hres.isTimely id (hown.mp hid)

end ShotTiming.Compile
