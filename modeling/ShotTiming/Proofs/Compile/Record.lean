import Mathlib.Data.List.Induction
import ShotTiming.Proofs.Compile.Steps
import ShotTiming.Proofs.Shot.History

/-! # The record of calls tells what was entered

Whatever is asked of a new record, and for whatever nodes, it has marked the calls that were entered in
their phase and no others. The marks are packed into integers, which nobody notices, since no two calls are
packed into the same one.
-/
namespace ShotTiming

/-- What is asked of the record of a shot, for a node that messages speak of. -/
inductive Demand
  | enter (r : NodeRef) (o : Operation) (subject : Shot → Subject)
  | advance (subject : Shot → Subject)
  /-- Whether a node has had all calls that its phase requires. -/
  | check (r : NodeRef) (subject : Shot → Subject)

namespace Demand

def step : Demand → Compile Unit
  | enter r o subject => Compile.enterAs r subject o
  | advance subject => Compile.advanceAs subject
  | check r subject => Compile.check fun s => s.requireCalls r subject

def isAdvance : Demand → Bool
  | advance _ => true
  | _ => false

end Demand

namespace Progress

/-- The state after some demands, which may have been refused. -/
def answering (p : Progress) (qs : List Demand) : Progress := qs.foldl (fun p q => after q.step p) p

/-- One of the demands has entered a call in its phase, for the first time or again. -/
def Entered (p : Progress) (qs : List Demand) (r : NodeRef) (o : Operation) : Prop :=
  ∃ before subject behind, qs = before ++ .enter r o subject :: behind ∧
    (p.answering before).shot.phase = o.phase

/-- What a record tells after some demands is what the demands have been. -/
structure RecordsExactly (p : Progress) (qs : List Demand) : Prop where
  phase : (p.answering qs).shot.phase.rank =
    min (qs.countP Demand.isAdvance) Phase.checkInstructions.rank
  enters_iff : ∀ r o subject,
    (∃ t, (Compile.enterAs r subject o).run (p.answering qs) = .ok () t) ↔
      o.phase = (p.answering qs).shot.phase ∧ (o.isOnce → ¬ p.Entered qs r o)
  called_iff : ∀ r o, (p.answering qs).shot.calls.called r o ↔ o.isOnce ∧ p.Entered qs r o
  lasts : ∀ r o later, (p.answering qs).shot.calls.called r o →
    (p.answering (qs ++ later)).shot.calls.called r o

variable {p : Progress} {qs : List Demand} {q : Demand} {r : NodeRef} {o : Operation}

@[simp] theorem answering_nil : p.answering [] = p := rfl

theorem answering_concat : p.answering (qs ++ [q]) = after q.step (p.answering qs) := by
  rw [answering, List.foldl_append]
  rfl

/-! ## One demand -/

theorem after_enter (r : NodeRef) (o : Operation) (subject : Shot → Subject) :
    (after (Demand.enter r o subject).step p).shot.calls =
      match p.shot.calls.enter r o with
      | .ok calls => calls
      | .error _ => p.shot.calls := by
  rw [after, Demand.step, Compile.run_enterAs, Shot.enterAs]
  cases p.shot.calls.enter r o with
  | ok calls => rfl
  | error e => cases e <;> rfl

theorem runs_enterAs (r : NodeRef) (o : Operation) (subject : Shot → Subject) :
    (∃ t, (Compile.enterAs r subject o).run p = .ok () t) ↔
      o.phase = p.shot.phase ∧ (o.isOnce → ¬ p.shot.calls.called r o) := by
  rw [Shot.phase, ← Calls.exists_enter_eq_ok, Compile.run_enterAs, Shot.enterAs]
  cases p.shot.calls.enter r o with
  | ok calls => simp
  | error e => cases e <;> simp

theorem after_advance (subject : Shot → Subject) :
    (after (Demand.advance subject).step p).shot.calls = p.shot.calls.advance?.getD p.shot.calls := by
  rw [after, Demand.step, Compile.run_advanceAs]
  cases p.shot.calls.advance? <;> rfl

theorem after_check (r : NodeRef) (subject : Shot → Subject) :
    after (Demand.check r subject).step p = p := by
  rw [after, Demand.step, Compile.run_check]
  cases p.shot.requireCalls r subject <;> rfl

/-- Only a demand to move on moves on, and not past the last phase. -/
theorem rank_after (q : Demand) : (after q.step p).shot.phase.rank =
    min (p.shot.phase.rank + if q.isAdvance then 1 else 0) Phase.checkInstructions.rank := by
  have hlast : p.shot.phase.rank ≤ Phase.checkInstructions.rank := by
    cases p.shot.phase <;> decide
  cases q with
  | enter r o subject =>
    rw [Shot.phase, after_enter]
    cases hc : p.shot.calls.enter r o with
    | ok calls =>
      dsimp only
      rw [Calls.phase_of_enter hc]
      exact (Nat.min_eq_left hlast).symm
    | error e => exact (Nat.min_eq_left hlast).symm
  | advance subject =>
    rw [Shot.phase, after_advance, Shot.phase]
    generalize p.shot.calls = c
    obtain ⟨phase, made⟩ := c
    cases phase <;> rfl
  | check r subject =>
    rw [after_check]
    exact (Nat.min_eq_left hlast).symm

/-- A demand marks the call that it enters in its phase, if it is of that sort, and takes no mark away. -/
theorem called_after (q : Demand) : (after q.step p).shot.calls.called r o ↔
    p.shot.calls.called r o ∨ o.isOnce ∧ ∃ subject, q = .enter r o subject ∧ p.shot.phase = o.phase := by
  cases q with
  | enter r' o' subject =>
    rw [after_enter]
    cases hc : p.shot.calls.enter r' o' with
    | ok calls =>
      dsimp only
      rw [Calls.called_of_enter hc]
      have hphase : p.shot.phase = o'.phase := (Calls.enter_eq_ok.mp hc).1.symm
      constructor
      · rintro (hold | ⟨rfl, rfl, honce⟩)
        · exact .inl hold
        · exact .inr ⟨honce, subject, rfl, hphase⟩
      · rintro (hold | ⟨honce, _, he, -⟩)
        · exact .inl hold
        · cases he
          exact .inr ⟨rfl, rfl, honce⟩
    | error e =>
      refine ⟨.inl, ?_⟩
      rintro (hold | ⟨honce, _, he, hphase⟩)
      · exact hold
      · -- a call that is refused in its phase has been marked before
        cases he
        by_contra hnew
        obtain ⟨calls, ht⟩ := Calls.exists_enter_eq_ok.mpr ⟨hphase.symm, fun _ => hnew⟩
        cases hc.symm.trans ht
  | advance subject =>
    have hmade : (p.shot.calls.advance?.getD p.shot.calls).made = p.shot.calls.made := by
      cases ha : p.shot.calls.advance? with
      | none => rfl
      | some calls => exact (Calls.advance?_eq_some.mp ha).2
    rw [after_advance, Calls.called, hmade]
    simp [Calls.called]
  | check r' subject =>
    rw [after_check]
    simp

/-! ## All demands -/

theorem not_entered_nil : ¬ p.Entered [] r o := by
  rintro ⟨before, subject, behind, h, -⟩
  simp at h

theorem entered_concat : p.Entered (qs ++ [q]) r o ↔
    p.Entered qs r o ∨ ∃ subject, q = .enter r o subject ∧ (p.answering qs).shot.phase = o.phase := by
  constructor
  · rintro ⟨before, subject, behind, h, hphase⟩
    rcases List.eq_nil_or_concat behind with rfl | ⟨behind, last, rfl⟩
    · obtain ⟨rfl, hq⟩ := List.append_inj' h rfl
      cases hq
      exact .inr ⟨subject, rfl, hphase⟩
    · rw [List.concat_eq_append, ← List.cons_append, ← List.append_assoc] at h
      obtain ⟨rfl, -⟩ := List.append_inj' h rfl
      exact .inl ⟨before, subject, behind, rfl, hphase⟩
  · rintro (⟨before, subject, behind, rfl, hphase⟩ | ⟨subject, rfl, hphase⟩)
    · exact ⟨before, subject, behind ++ [q], by simp, hphase⟩
    · exact ⟨qs, subject, [], rfl, hphase⟩

theorem Entered.append (h : p.Entered qs r o) (later : List Demand) : p.Entered (qs ++ later) r o := by
  obtain ⟨before, subject, behind, rfl, hphase⟩ := h
  exact ⟨before, subject, behind ++ later, by simp, hphase⟩

theorem rank_answering (h : p.shot.calls = {}) (qs : List Demand) : (p.answering qs).shot.phase.rank =
    min (qs.countP Demand.isAdvance) Phase.checkInstructions.rank := by
  induction qs using List.reverseRecOn with
  | nil =>
    rw [answering_nil, Shot.phase, h]
    rfl
  | append_singleton qs q ih =>
    rw [answering_concat, rank_after, ih, List.countP_append, List.countP_singleton]
    omega

theorem called_answering (h : p.shot.calls = {}) (qs : List Demand) (r : NodeRef) (o : Operation) :
    (p.answering qs).shot.calls.called r o ↔ o.isOnce ∧ p.Entered qs r o := by
  induction qs using List.reverseRecOn with
  | nil =>
    rw [answering_nil, h]
    simp [Calls.called, not_entered_nil]
  | append_singleton qs q ih =>
    rw [answering_concat, called_after, ih, entered_concat]
    exact and_or_left.symm

/-- A new record has marked, after any demands, the calls that were entered in their phase and happen once. It
takes another call in its phase, but one of that sort only if it was not entered before; and it forgets
nothing. Its keys tell all calls apart. -/
theorem recordsExactly_of_new (h : p.shot.calls = {}) (qs : List Demand) :
    p.RecordsExactly qs ∧
      ∀ (r r' : NodeRef) (o o' : Operation), callKey r o = callKey r' o' ↔ r = r' ∧ o = o' := by
  have hcalled := called_answering h
  refine ⟨⟨rank_answering h qs, fun r o subject => ?_, hcalled qs, fun r o later hc => ?_⟩,
    fun r r' o o' => callKey_inj⟩
  · rw [runs_enterAs, hcalled qs]
    exact and_congr_right' (imp_congr_right fun honce => not_congr (and_iff_right honce))
  · obtain ⟨honce, hentered⟩ := (hcalled qs r o).mp hc
    exact (hcalled (qs ++ later) r o).mpr ⟨honce, hentered.append later⟩

/-- The last node of an arena has its call too early, in its phase and once more; then the phase is left. -/
private def insistent : List Demand := [
  .enter ⟨.device, 4294967295⟩ .establishLimits (·.subject .shot),
  .advance (·.subject .shot),
  .enter ⟨.device, 4294967295⟩ .establishLimits (·.subject .shot),
  .enter ⟨.device, 4294967295⟩ .establishLimits (·.subject .shot),
  .check ⟨.shot, 0⟩ (·.subject .shot),
  .advance (·.subject .shot)]

theorem recordsExactly_of_insistent : ∃ (p : Progress) (qs : List Demand), p.shot.calls = {} ∧
    p.RecordsExactly qs ∧ p.Entered qs ⟨.device, 4294967295⟩ .establishLimits ∧
    (p.answering qs).shot.phase = .establishAttributes ∧
    (p.answering qs).shot.calls.called ⟨.device, 4294967295⟩ .establishLimits ∧
    ¬ (p.answering qs).shot.calls.called ⟨.instruction, 0⟩ .establishLimits := by
  have hnew : (⟨{ name := "bench", settings := {}, site := {} }, #[]⟩ : Progress).shot.calls = {} := rfl
  obtain ⟨hexact, -⟩ := recordsExactly_of_new hnew insistent
  have hrun : let s := ((⟨{ name := "bench", settings := {}, site := {} }, #[]⟩ : Progress).answering
        insistent).shot
      s.phase = .establishAttributes ∧ s.calls.called ⟨.device, 4294967295⟩ .establishLimits ∧
        ¬ s.calls.called ⟨.instruction, 0⟩ .establishLimits := by
    decide +kernel
  obtain ⟨hphase, hmarked, hother⟩ := hrun
  exact ⟨_, insistent, hnew, hexact, ((hexact.called_iff _ _).mp hmarked).2, hphase, hmarked, hother⟩

end Progress
end ShotTiming
