import ShotTiming.Proofs.Compile.Steps
import ShotTiming.Proofs.Shot.Change

/-! # The steps of a compilation as changes

Every step of a compilation takes a shot along changes, whether it ends well or not, and every step
but the moves between phases stays in its phase.
-/
namespace ShotTiming
open Relation Shot

namespace Compile

variable {α β : Type} {ph : Phase} {raw : Bool}

/-- Begun in a phase, the step edits the shot and stays in the phase. -/
def StaysIn (ph : Phase) (x : Compile α) : Prop :=
  ∀ p, p.shot.phase = ph → ReflTransGen Edit p.shot (after x p).shot

/-- The step changes the shot, and may move to the next phase. -/
def Moves (raw : Bool) (x : Compile α) : Prop :=
  ∀ p, ReflTransGen (Change raw) p.shot (after x p).shot

theorem phase_eq_of_edits {s s' : Shot} (h : ReflTransGen Edit s s') : s'.phase = s.phase := by
  induction h with
  | refl => rfl
  | tail _ he ih => rw [he.phase_eq, ih]

namespace StaysIn

theorem moves {x : Compile α} (hx : ∀ ph, StaysIn ph x) : Moves raw x := fun p =>
  ReflTransGen.mono (fun _ _ he => .edit he) _ _ (hx _ p rfl)

theorem of_unchanged {x : Compile α} (hx : ∀ p, (after x p).shot = p.shot) : StaysIn ph x := by
  intro p _
  rw [hx p]

theorem pure (a : α) : StaysIn ph (Pure.pure a : Compile α) := of_unchanged fun _ => rfl

theorem throw (e : Fault) : StaysIn ph (MonadExcept.throw e : Compile α) := of_unchanged fun _ => rfl

theorem say (level : Level) (text : String) : StaysIn ph (say level text) := of_unchanged fun _ => rfl

theorem shot : StaysIn ph Compile.shot := of_unchanged fun _ => rfl

theorem check (f : Shot → Except Fault Unit) : StaysIn ph (check f) := by
  refine of_unchanged fun p => ?_
  simp only [after, run_check]
  cases f p.shot <;> rfl

theorem modifyShot {f : Shot → Shot} (hf : ∀ s, s.phase = ph → ReflTransGen Edit s (f s)) :
    StaysIn ph (modifyShot f) := fun p hp => hf p.shot hp

theorem report (v : Violation) : StaysIn ph (report v) :=
  modifyShot fun _ _ => .single (.report _)

theorem bind {x : Compile α} {f : α → Compile β} (hx : StaysIn ph x) (hf : ∀ a, StaysIn ph (f a)) :
    StaysIn ph (x >>= f) := by
  intro p hp
  have hxp := hx p hp
  rw [after_bind]
  unfold after at hxp
  split at hxp
  · rename_i a q _
    exact hxp.trans (hf a q (by rw [phase_eq_of_edits hxp, hp]))
  · rename_i e q _
    exact hxp

theorem forM {xs : List β} {f : β → Compile PUnit} (hf : ∀ b, StaysIn ph (f b)) :
    StaysIn ph (xs.forM f) := by
  induction xs with
  | nil => exact pure _
  | cons x xs ih =>
    exact (hf x).bind fun _ => ih

theorem array_forM {xs : Array β} {f : β → Compile PUnit} (hf : ∀ b, StaysIn ph (f b)) :
    StaysIn ph (xs.forM f) := by
  rw [Array.forM, ← Array.foldlM_toList]
  induction xs.toList with
  | nil => exact pure _
  | cons x xs ih =>
    rw [List.foldlM_cons]
    exact (hf x).bind fun _ => ih

theorem tryCatch {x : Compile α} {f : Fault → Compile α} (hx : StaysIn ph x)
    (hf : ∀ e, StaysIn ph (f e)) : StaysIn ph (tryCatch x f) := by
  intro p hp
  have hxp := hx p hp
  simp only [after, run_tryCatch]
  unfold after at hxp
  split at hxp
  · rename_i a q _
    exact hxp
  · rename_i e q _
    exact hxp.trans (hf e q (by rw [phase_eq_of_edits hxp, hp]))

/-- What follows a call that was entered is done in the phase of that call. -/
theorem enter_bind {n : Node} {o : Operation} {f : PUnit → Compile α} (ho : o ≠ .convertTiming)
    (hf : StaysIn o.phase (f ⟨⟩)) : StaysIn ph (enter n o >>= f) := by
  intro p hp
  rw [after_bind, enter, run_enterAs, Shot.enterAs]
  cases hc : p.shot.calls.enter n.ref o with
  | ok calls =>
    have hph : calls.phase = o.phase :=
      (Calls.phase_of_enter hc).trans (Calls.enter_eq_ok.mp hc).1.symm
    exact .head (.enter ho hc) (hf ⟨{ p.shot with calls }, p.messages⟩ hph)
  | error e => cases e <;> exact .refl

end StaysIn

namespace Moves

theorem bind {x : Compile α} {f : α → Compile β} (hx : Moves raw x) (hf : ∀ a, Moves raw (f a)) :
    Moves raw (x >>= f) := by
  intro p
  have hxp := hx p
  rw [after_bind]
  unfold after at hxp
  split at hxp
  · rename_i a q _
    exact hxp.trans (hf a q)
  · rename_i e q _
    exact hxp

/-- What a step leaves has grown as well. -/
theorem grown {x : Compile α} (hx : Moves raw x) {p q : Progress} {a : α} (h : p.shot.Grown raw)
    (hq : x.run p = .ok a q) : q.shot.Grown raw := by
  have hmoves := hx p
  rw [after, hq] at hmoves
  obtain ⟨s₀, h₀, hold⟩ := h
  exact ⟨s₀, h₀, hold.trans hmoves⟩

end Moves

theorem moves_enterAs (r : NodeRef) (subject : Shot → Subject) (o : Operation) :
    Moves true (enterAs r subject o) := by
  intro p
  simp only [after, run_enterAs, Shot.enterAs]
  cases hc : p.shot.calls.enter r o with
  | ok calls => exact .single (.mark rfl hc)
  | error e => cases e <;> exact .refl

/-! ## Moves between phases -/

/-- What starts with a check of the phase ends well in that phase only. -/
theorem phase_of_check {n : Node} {o : Operation} {x : Compile α} {p q : Progress} {a : α}
    (h : ((do check fun s => s.checkPhase n o; x) : Compile α).run p = .ok a q) :
    p.shot.phase = o.phase := by
  rw [EStateM.run_bind, run_check] at h
  cases hc : p.shot.checkPhase n o with
  | ok u => exact (checkPhase_eq_ok.mp hc).symm
  | error e =>
    rw [hc] at h
    cases h

theorem moves_advanceAs (subject : Shot → Subject) : Moves true (advanceAs subject) := by
  intro p
  simp only [after, run_advanceAs]
  cases hc : p.shot.calls.advance? with
  | none => exact .refl
  | some calls => exact .single (.advance hc (.inl rfl))

theorem moves_nextPhase : Moves raw nextPhase := by
  intro p
  rw [nextPhase, after_bind, run_checkAllCalled]
  cases hm : p.shot.firstMissing? with
  | some m => exact .refl
  | none =>
    simp only [after, run_advanceAs]
    cases hc : p.shot.calls.advance? with
    | none => exact .refl
    | some calls => exact .single (.advance hc (.inr hm))

end Compile

/-! ## Passes -/

namespace Pass
open Compile

theorem staysIn_onDevice {p : Pass} {id : Nat} {children : Compile Unit} {ph : Phase}
    (ho : p.operation ≠ .convertTiming)
    (hb : StaysIn p.operation.phase (p.before id)) (ha : StaysIn p.operation.phase (p.after id))
    (hc : StaysIn p.operation.phase children) : StaysIn ph (p.onDevice id children) := by
  refine StaysIn.enter_bind ho ?_
  refine StaysIn.bind (StaysIn.shot.bind fun _ => .pure _) fun hook => ?_
  cases hook with
  | skip => exact .pure _
  | standard => exact hb.bind fun _ => hc.bind fun _ => ha
  | twice => exact hb.bind fun _ => hc.bind fun _ => ha.bind fun _ => hc

variable {p : Pass} {ph : Phase}

theorem staysIn_visit (ho : p.operation ≠ .convertTiming)
    (hb : ∀ id, StaysIn p.operation.phase (p.before id))
    (ha : ∀ id, StaysIn p.operation.phase (p.after id)) (f : Forest) :
    StaysIn ph (p.visit f) := by
  induction f generalizing ph with
  | empty => exact .pure _
  | grow id below later ihb ihl =>
    exact (staysIn_onDevice ho (hb id) (ha id) ihb).bind fun _ => ihl

theorem staysIn_runAt (ho : p.operation ≠ .convertTiming)
    (hb : ∀ id, StaysIn p.operation.phase (p.before id))
    (ha : ∀ id, StaysIn p.operation.phase (p.after id)) (id : Nat) : StaysIn ph (p.runAt id) :=
  StaysIn.shot.bind fun _ => staysIn_onDevice ho (hb id) (ha id) (staysIn_visit ho hb ha _)

theorem staysIn_runBelowShot (ho : p.operation ≠ .convertTiming)
    (hb : ∀ id, StaysIn p.operation.phase (p.before id))
    (ha : ∀ id, StaysIn p.operation.phase (p.after id)) : StaysIn ph p.runBelowShot :=
  StaysIn.shot.bind fun _ => staysIn_visit ho hb ha _

end Pass

namespace Compile

variable {ph : Phase} {raw : Bool}

private theorem limits_after (id : Nat) : StaysIn limitsPass.operation.phase (limitsPass.after id) := by
  simp only [limitsPass]
  refine StaysIn.modifyShot fun s hs => ?_
  cases s.limitsOf? id with
  | none => exact .refl
  | some limits => exact .single (.limits id limits hs)

theorem staysIn_limitsPass (id : Nat) : StaysIn ph (limitsPass.runAt id) :=
  Pass.staysIn_runAt (by decide) (fun _ => .pure _) limits_after id

theorem staysIn_establishLimits : StaysIn ph establishLimits :=
  StaysIn.enter_bind (by decide) (Pass.staysIn_runBelowShot (by decide) (fun _ => .pure _) limits_after)

private theorem attributes_before (id : Nat) :
    StaysIn attributesPass.operation.phase (attributesPass.before id) := by
  simp only [attributesPass]
  refine StaysIn.modifyShot fun s hs => ?_
  cases s.device? id with
  | none => exact .refl
  | some d => exact .single (.attributes id _ _ hs)

theorem staysIn_attributesPass (id : Nat) : StaysIn ph (attributesPass.runAt id) :=
  Pass.staysIn_runAt (by decide) attributes_before (fun _ => .pure _) id

theorem staysIn_establishAttributes : StaysIn ph establishAttributes := by
  refine StaysIn.enter_bind (by decide) (StaysIn.bind ?_ fun _ => ?_)
  · exact StaysIn.modifyShot fun s hs => .single (.waitDelay _ hs)
  · exact Pass.staysIn_runBelowShot (by decide) attributes_before (fun _ => .pure _)

theorem staysIn_note (f : Finding) : StaysIn ph (note f) := by
  refine StaysIn.shot.bind fun s => ?_
  split
  · exact .report _
  · exact .say _ _

private theorem check_after (id : Nat) : StaysIn checkPass.operation.phase (checkPass.after id) :=
  StaysIn.shot.bind fun _ => StaysIn.forM staysIn_note

theorem staysIn_checkPass (id : Nat) : StaysIn ph (checkPass.runAt id) :=
  Pass.staysIn_runAt (by decide) (fun _ => .pure _) check_after id

theorem staysIn_checkInstructions : StaysIn ph checkInstructions := by
  refine StaysIn.enter_bind (by decide) (StaysIn.bind ?_ fun _ => StaysIn.shot.bind fun s => ?_)
  · exact StaysIn.modifyShot fun s _ => .single (.report _)
  · exact (StaysIn.forM staysIn_note).bind fun _ =>
      Pass.staysIn_runBelowShot (by decide) (fun _ => .pure _) check_after

/-! ## Timing -/

/-- One instruction is marked and placed, or nothing happens. -/
theorem staysIn_convert (id : Nat) (waits : Array Float) : StaysIn ph (convert id waits) := by
  intro p _
  cases hi : p.shot.instruction? id with
  | none =>
    have hrun : (convert id waits).run p = .error (.use .noSuchNode) p := by
      rw [convert, EStateM.run_bind, run_shot]
      simp only [hi]
      rfl
    simp [after, hrun, ReflTransGen.refl]
  | some i =>
    cases hc : p.shot.calls.enter (Node.instruction id).ref .convertTiming with
    | error e =>
      obtain ⟨f, hrun⟩ := run_convert_refused waits hi hc
      simp [after, hrun, ReflTransGen.refl]
    | ok calls =>
      have hedit := ReflTransGen.single (Edit.convert waits hc hi)
      rw [after, run_convert_entered hi hc]
      cases p.shot.placing waits i <;> exact hedit

theorem staysIn_convertEach (waits : Array Float) (ids : List Nat) :
    StaysIn ph (convertEach waits ids) := by
  induction ids with
  | nil => exact .pure _
  | cons id ids ih =>
    refine StaysIn.bind ?_ fun _ => ih.bind fun _ => .pure _
    refine StaysIn.tryCatch ((staysIn_convert id waits).bind fun _ => .pure _) fun e => ?_
    split
    · exact (StaysIn.say _ _).bind fun _ => .pure _
    · exact .throw _

private theorem edits_sortOutputs (s : Shot) (hs : s.phase = .convertTiming) :
    ReflTransGen Edit s s.sortOutputs := by
  unfold sortOutputs
  generalize s.outputs = ids
  induction ids generalizing s with
  | nil => exact .refl
  | cons id ids ih => exact .head (.sort id hs) (ih _ hs)

private theorem staysIn_collectWaits : StaysIn .convertTiming collectWaits := by
  refine StaysIn.bind (StaysIn.modifyShot fun s hs => .single (.waits hs)) fun _ =>
    StaysIn.shot.bind fun s => ?_
  split
  · exact .pure _
  · exact .throw _

theorem staysIn_convertTiming : StaysIn ph convertTiming := by
  intro p hp
  rw [convertTiming, after_bind, run_check]
  cases hc : p.shot.checkPhase .shot .convertTiming with
  | error e => exact .refl
  | ok _ =>
    refine (staysIn_collectWaits.bind fun _ => StaysIn.shot.bind fun s => ?_) p
      (checkPhase_eq_ok.mp hc).symm
    have hsort : StaysIn .convertTiming (modifyShot sortOutputs) := .modifyShot edits_sortOutputs
    have htogether : ∀ waits ids, StaysIn .convertTiming (convertTogether waits ids) := by
      intro waits ids
      refine (staysIn_convertEach waits ids).bind fun missed => ?_
      split
      · exact .pure _
      · exact .throw _
    dsimp only
    split
    · exact (htogether _ _).bind fun _ => hsort
    · exact (StaysIn.forM fun id => staysIn_convert id _).bind fun _ => hsort

/-! ## Starting and stopping -/

theorem moves_start : Moves raw start := by
  refine (StaysIn.moves fun _ => .check _).bind fun _ => moves_nextPhase.bind fun _ => ?_
  refine (StaysIn.moves fun _ => staysIn_establishLimits).bind fun _ => moves_nextPhase.bind fun _ => ?_
  exact (StaysIn.moves fun _ => staysIn_establishAttributes).bind fun _ => moves_nextPhase

private theorem staysIn_setStopTime (time : Float) : StaysIn .addInstructions (setStopTime time) := by
  refine StaysIn.shot.bind fun s => ?_
  split
  · exact .throw _
  · exact StaysIn.modifyShot fun s hs => .single (.stopTime time hs)

private theorem staysIn_conclude : StaysIn ph conclude := by
  refine StaysIn.shot.bind fun s => ?_
  split
  · exact .say _ _
  · exact (StaysIn.array_forM fun _ => .say _ _).bind fun _ => .throw _

private theorem staysIn_checkAllCalled : StaysIn ph checkAllCalled := by
  refine StaysIn.shot.bind fun s => ?_
  split
  · exact .pure _
  · exact .throw _

/-- The validation of a timed shot, and its verdict. -/
theorem moves_judge : Moves raw (do
    nextPhase
    checkInstructions
    checkAllCalled
    conclude) := by
  refine moves_nextPhase.bind fun _ => StaysIn.moves fun _ => ?_
  exact staysIn_checkInstructions.bind fun _ => staysIn_checkAllCalled.bind fun _ => staysIn_conclude

theorem moves_stop (time : Float) : Moves raw (stop time) := by
  intro p
  rw [stop, after_bind, run_check]
  cases hc : p.shot.checkPhase .shot .stop with
  | error e => exact .refl
  | ok _ =>
    have hset := staysIn_setStopTime time p (checkPhase_eq_ok.mp hc).symm
    have hset' : ReflTransGen (Change raw) p.shot (after (setStopTime time) p).shot :=
      ReflTransGen.mono (fun _ _ he => .edit he) _ _ hset
    dsimp only
    rw [after_bind]
    unfold after at hset'
    split at hset'
    · refine hset'.trans ((moves_nextPhase.bind fun _ =>
        (StaysIn.moves fun _ => staysIn_convertTiming).bind fun _ => moves_judge) _)
    · exact hset'

end Compile

end ShotTiming
