import ShotTiming.Proofs.Compile.Settled
import ShotTiming.Proofs.Session

/-! # The timing of a shot in its last phase

A shot gets to its last phase once every instruction has had its call, whether or not the call ended
well. Only the conversion of the whole shot, once it has ended well, leaves everything in order for good.
-/
namespace ShotTiming.Session
open Relation

/-- A command that completes the conversion of a shot: the conversion itself, if it ends well, or a stop
that gets as far as the last phase. -/
inductive Converts (s : Session) (k : Nat) : Command → Prop
  | convertTiming (j : Nat) : isOk ((perform (.convertTiming j (.shot k))).run s) →
    Converts s k (.convertTiming j (.shot k))
  | stop {a b : Shot} (time : Float) : s.shot? k = some a → a.phase = .addInstructions →
    (s.carryOut (.stop k time)).shot? k = some b → b.phase = .checkInstructions →
    Converts s k (.stop k time)

variable {s : Session} {k : Nat} {c : Command} {a : Shot}

theorem Converts.isRaw_eq_false (h : s.Converts k c) : c.isRaw = false := by cases h <;> rfl

private theorem carryOut_stop (ha : s.shot? k = some a) (time : Float) :
    s.carryOut (.stop k time) = s.absorb k (after (Compile.stop time) ⟨a, #[]⟩) := by
  rw [← Act.after_onShot ha]
  exact after_bind_pure _ _ s

private theorem run_convertTiming {j : Nat} (h : isOk ((perform (.convertTiming j (.shot k))).run s)) :
    ∃ a q, s.shot? k = some a ∧ Compile.convertTiming.run ⟨a, #[]⟩ = .ok () q ∧
      (s.carryOut (.convertTiming j (.shot k))).shot? k = some q.shot := by
  have hafter : s.carryOut (.convertTiming j (.shot k)) = after (Act.onShot k Compile.convertTiming) s :=
    after_bind_pure _ _ s
  have hrun : (perform (.convertTiming j (.shot k))).run s =
      (Act.onShot k Compile.convertTiming >>= fun _ => pure .done).run s := rfl
  rw [hrun, EStateM.run_bind, Act.run_onShot] at h
  cases ha : s.shot? k with
  | none =>
    rw [ha] at h
    cases h
  | some a =>
    rw [ha] at h
    dsimp only at h
    cases hq : Compile.convertTiming.run ⟨a, #[]⟩ with
    | error e q =>
      rw [hq] at h
      cases h
    | ok u q =>
      refine ⟨a, q, rfl, hq, ?_⟩
      rw [hafter, Act.after_onShot ha, shot?_absorb ha, after, hq]

/-- A completed conversion settles the shot; after a stop, every wait has a time. -/
theorem Converts.settled {raw : Bool} (h : s.Converts k c) (hr : Reachable raw s) :
    ∃ a, (s.carryOut c).shot? k = some a ∧ a.Settled ∧
      ((∃ time, c = .stop k time) → ∀ id ∈ a.ownInstructions, a.IsTimely id) := by
  cases h with
  | convertTiming j hok =>
    obtain ⟨a, q, ha, hq, hafter⟩ := run_convertTiming hok
    have hgrown : a.Grown raw := Shot.Reachable.grown ⟨s, k, hr, ha⟩
    refine ⟨q.shot, hafter, Compile.settled_of_convertTiming hgrown.wellFormed hq, ?_⟩
    rintro ⟨time, hc⟩
    cases hc
  | @stop a b time ha hp hb hlast =>
    have hgrown : a.Grown raw := Shot.Reachable.grown ⟨s, k, hr, ha⟩
    rw [carryOut_stop ha, shot?_absorb ha] at hb ⊢
    cases hb
    obtain ⟨hsettled, htimely⟩ := Compile.settled_of_stop (hgrown.stoppable hp) hlast
    exact ⟨_, rfl, hsettled, fun _ => htimely⟩

/-- An instruction of a shot in its last phase has had its call, and is as the call left it. -/
theorem placed_of_checked (hr : Reachable false s) (ha : s.shot? k = some a)
    (hp : a.phase = .checkInstructions) {id : Nat} {i : Instruction} (hi : a.instruction? id = some i) :
    a.calls.called (Node.instruction id).ref .convertTiming ∧ ∃ waits, i = a.placed waits i.fixed := by
  have hgrown : a.Grown false := Shot.Reachable.grown ⟨s, k, hr, ha⟩
  have hcalled : a.calls.called (Node.instruction id).ref .convertTiming := by
    refine hgrown.gated (.instruction id) (Shot.mem_nodes.mpr (Shot.instruction?_eq_some hi)) _ rfl rfl ?_
    rw [hp]
    decide
  have hplaced := hgrown.placedByCall id i hi
  rw [if_pos hcalled] at hplaced
  exact ⟨hcalled, hplaced⟩

/-- A completed conversion leaves the shot in order for good; after a stop, every wait has a time. -/
theorem inOrder_of_converts {t : Session} (ht : Reachable false t) (hc : t.Converts k c)
    (hn : ReflTransGen (Next false) (t.carryOut c) s) (ha : s.shot? k = some a) :
    a.InOrder ∧ ((∃ time, c = .stop k time) →
      ∀ w ∈ a.entries a.waits.toList, ¬ w.instruction.time.isNaN) := by
  obtain ⟨b, hb, hsettled, htimely⟩ := hc.settled ht
  have hnext : Next false t (t.carryOut c) := ⟨c, .inr hc.isRaw_eq_false, rfl⟩
  obtain ⟨a', ha', hchanges⟩ := Shot.changes_of_run (ht.tail hnext) hn hb
  cases ha.symm.trans ha'
  have hlinks := hsettled.sameLinks hchanges
  have hsettled' := hsettled.run hchanges
  refine ⟨hsettled'.inOrder, fun hstop w hw => ?_⟩
  obtain ⟨hid, hin⟩ := Shot.mem_entries.mp hw
  have hown : w.id ∈ b.ownInstructions := by
    have := (hlinks.listed .shot).mem_iff.mp (hsettled'.waits.mem_iff.mp hid)
    simpa [Shot.instructionsOf] using this
  obtain ⟨i, hi, hnan⟩ := (hlinks.isTimely w.id).mpr (htimely hstop w.id hown)
  cases hin.symm.trans hi
  exact hnan

/-- In the last phase every instruction has had its call, and is converted unless the call found no
place for it. After a completed conversion of the shot, all are converted and in order for good. -/
theorem timing_of_reachable (hr : Reachable false s) (ha : s.shot? k = some a) :
    (a.phase = .checkInstructions → ∀ id i, a.instruction? id = some i →
      a.calls.called (Node.instruction id).ref .convertTiming ∧
        ∃ waits, i = a.placed waits i.fixed ∧ (i.converted ↔ a.Fits waits i.fixed)) ∧
    ∀ t c, Reachable false t → t.Converts k c → ReflTransGen (Next false) (t.carryOut c) s →
      a.InOrder ∧ ((∃ time, c = .stop k time) →
        ∀ w ∈ a.entries a.waits.toList, ¬ w.instruction.time.isNaN) := by
  refine ⟨fun hp id i hi => ?_, fun t c ht hc hn => inOrder_of_converts ht hc hn ha⟩
  obtain ⟨hcalled, waits, hplaced⟩ := placed_of_checked hr ha hp hi
  have hconverted := Shot.converted_placed (s := a) (i := i.fixed) waits rfl
  rw [← hplaced] at hconverted
  exact ⟨hcalled, waits, hplaced, hconverted⟩

/-- A wait and two values out of order, after them a ramp on the other output. -/
private def ramp (duration : Float) : List Command := bench ++ [
  .addInstruction 0 (.shot 0) (.wait 20 "w") {},
  .issue (.device 0 4) (.constant 15 1) {},
  .issue (.device 0 4) (.constant 10 1) {},
  .issue (.device 0 5) (.function 5 duration (some (polynomial [0, 1])) 0) {}]

/-- A stop puts everything in order if the ramp ends on a tick. -/
theorem inOrder_of_ramp : ∃ s a, Reachable false s ∧ s.shot? 0 = some a ∧
    a.phase = .checkInstructions ∧ (∃ t : Session, t.Converts 0 (.stop 0 50) ∧ s = t.carryOut (.stop 0 50)) ∧
    a.InOrder := by
  have hrun : ((script (ramp 5)).shot? 0).any (fun b => b.phase = .addInstructions) ∧
      (((script (ramp 5)).carryOut (.stop 0 50)).shot? 0).any
        fun a => a.phase = .checkInstructions := by decide +kernel
  obtain ⟨b, hb, hpb⟩ := (Option.any_eq_true _ _).mp hrun.1
  obtain ⟨a, ha, hpa⟩ := (Option.any_eq_true _ _).mp hrun.2
  have ht : Reachable false (script (ramp 5)) := reachable_script (by decide)
  have hn : Next false (script (ramp 5)) ((script (ramp 5)).carryOut (.stop 0 50)) :=
    ⟨.stop 0 50, .inr rfl, rfl⟩
  have hs : Reachable false _ := ht.tail hn
  have hconv : (script (ramp 5)).Converts 0 (.stop 0 50) :=
    .stop 50 hb (of_decide_eq_true hpb) ha (of_decide_eq_true hpa)
  exact ⟨_, a, hs, ha, of_decide_eq_true hpa, ⟨_, hconv, rfl⟩,
    ((timing_of_reachable hs ha).2 _ _ ht hconv .refl).1⟩

/-- The instructions are timed one by one, the ramp without success, and the phase is left. -/
private def byHand : List Command := ramp 0.5 ++ [
  .nextPhase 0,
  .convertTiming 0 (.instruction 0 0),
  .convertTiming 0 (.instruction 0 1),
  .convertTiming 0 (.instruction 0 2),
  .convertTiming 0 (.instruction 0 3),
  .nextPhase 0]

/-- A shot in the last phase with an instruction that is not converted, a wait that was not collected,
and an output whose instructions are not in order. -/
theorem not_inOrder_byHand : ∃ a : Shot, a.Reachable false ∧ a.phase = .checkInstructions ∧
    (¬ ∀ e : Entry, e.IsIn a → e.instruction.converted) ∧
    (¬ ∀ id, id ∈ a.waits ↔
      ∃ i, a.instruction? id = some i ∧ i.kind = .wait ∧ i.owner = some .shot) ∧
    ¬ ∀ id k, a.kind? id = some k → k.isOutput →
      (a.entries (a.instructionsOf (.device id))).Pairwise Entry.StandsBefore := by
  have hrun : ((script byHand).shot? 0).any fun a => a.phase = .checkInstructions ∧
      ((a.instruction? 3).any fun i => i.converted = false) ∧
      (a.waits = #[] ∧ (a.instruction? 0).any fun i => i.kind = .wait ∧ i.owner = some .shot) ∧
      a.kind? 4 = some .output ∧
      ¬ (a.entries (a.instructionsOf (.device 4))).Pairwise Entry.StandsBefore := by decide +kernel
  obtain ⟨a, ha, hd⟩ := (Option.any_eq_true _ _).mp hrun
  obtain ⟨hp, hramp, ⟨hwaits, hwait⟩, hk, hnot⟩ := of_decide_eq_true hd
  refine ⟨a, Shot.reachable_of_script (by decide) ha, hp, fun hall => ?_, fun hall => ?_, fun hall => ?_⟩
  · obtain ⟨i, hi, hn⟩ := (Option.any_eq_true _ _).mp hramp
    have hconverted : i.converted := hall ⟨3, i⟩ hi
    rw [of_decide_eq_true hn] at hconverted
    cases hconverted
  · obtain ⟨i, hi, hw⟩ := (Option.any_eq_true _ _).mp hwait
    have hmem := (hall 0).mpr ⟨i, hi, of_decide_eq_true hw⟩
    simp [hwaits] at hmem
  · exact hnot (hall 4 _ hk rfl)

end ShotTiming.Session
