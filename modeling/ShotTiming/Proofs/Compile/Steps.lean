import Mathlib.Logic.Relation
import ShotTiming.Compile.Run
import ShotTiming.Proofs.Shot.Placed

/-!
# Running the steps of a compilation

What each elementary step does to the state, and the state a step leaves however it ends.
-/
namespace ShotTiming

/-- The state after a step, also after one that failed. -/
def after {ε σ α : Type} (x : EStateM ε σ α) (s : σ) : σ :=
  match x.run s with
  | .ok _ t => t
  | .error _ t => t

section

variable {ε σ α β : Type}

/-- Whether a step ended well. -/
def isOk : EStateM.Result ε σ α → Bool
  | .ok .. => true
  | .error .. => false

theorem exists_of_isOk {r : EStateM.Result ε σ Unit} (h : isOk r) : ∃ s, r = .ok () s := by
  cases r with
  | ok a s => exact ⟨s, rfl⟩
  | error e s => cases h

theorem isOk_iff {r : EStateM.Result ε σ Unit} : isOk r ↔ ∃ s, r = .ok () s := by
  refine ⟨exists_of_isOk, ?_⟩
  rintro ⟨s, rfl⟩
  rfl

theorem after_bind (x : EStateM ε σ α) (f : α → EStateM ε σ β) (s : σ) :
    after (x >>= f) s =
      match x.run s with
      | .ok a t => after (f a) t
      | .error _ t => t := by
  simp only [after, EStateM.run_bind]
  cases x.run s <;> rfl

/-- A step that ended well went well from beginning to end. -/
theorem run_bind_eq_ok {x : EStateM ε σ α} {f : α → EStateM ε σ β} {b : β} {s t : σ} :
    (x >>= f).run s = .ok b t ↔ ∃ a r, x.run s = .ok a r ∧ (f a).run r = .ok b t := by
  rw [EStateM.run_bind]
  cases x.run s <;> simp [and_assoc]

/-- What is returned in the end does not matter. -/
theorem after_bind_pure (x : EStateM ε σ α) (f : α → β) (s : σ) :
    after (x >>= fun a => pure (f a)) s = after x s := by
  rw [after_bind]
  unfold after
  cases x.run s <;> rfl

theorem run_tryCatch (x : EStateM ε σ α) (f : ε → EStateM ε σ α) (s : σ) :
    (tryCatch x f).run s =
      match x.run s with
      | .ok a t => .ok a t
      | .error e t => (f e).run t := by
  change EStateM.tryCatch x f s = _
  delta EStateM.tryCatch
  rw [EStateM.run]
  cases x s <;> rfl

theorem run_forM_cons (f : β → EStateM ε σ PUnit) (x : β) (xs : List β) (s : σ) :
    ((x :: xs).forM f).run s =
      match (f x).run s with
      | .ok _ t => (xs.forM f).run t
      | .error e t => .error e t := by
  change (f x >>= fun _ => xs.forM f).run s = _
  rw [EStateM.run_bind]
  cases (f x).run s <;> rfl

end

namespace Compile

variable {α β : Type}

@[simp] theorem run_shot (p : Progress) : shot.run p = .ok p.shot p := rfl

@[simp] theorem run_modifyShot (f : Shot → Shot) (p : Progress) :
    (modifyShot f).run p = .ok () { p with shot := f p.shot } := rfl

@[simp] theorem run_say (level : Level) (text : String) (p : Progress) :
    (say level text).run p = .ok () { p with messages := p.messages.push ⟨level, text⟩ } := rfl

@[simp] theorem run_report (v : Violation) (p : Progress) :
    (report v).run p = .ok () { p with shot := { p.shot with report := p.shot.report.add v } } := rfl

theorem run_check (f : Shot → Except Fault Unit) (p : Progress) :
    (check f).run p =
      match f p.shot with
      | .ok () => .ok () p
      | .error e => .error e p := by
  simp only [check, EStateM.run_bind, run_shot]
  cases f p.shot <;> rfl

theorem run_enterAs (r : NodeRef) (subject : Shot → Subject) (o : Operation) (p : Progress) :
    (enterAs r subject o).run p =
      match p.shot.enterAs r subject o with
      | .ok s => .ok () { p with shot := s }
      | .error e => .error e p := by
  simp only [enterAs, EStateM.run_bind, run_shot]
  cases p.shot.enterAs r subject o <;> rfl

theorem run_checkAllCalled (p : Progress) :
    checkAllCalled.run p =
      match p.shot.firstMissing? with
      | none => .ok () p
      | some (n, o) => .error (.call (.missing (p.shot.subject n) o p.shot.phase)) p := by
  simp only [checkAllCalled, EStateM.run_bind, run_shot]
  cases p.shot.firstMissing? <;> rfl

theorem run_advanceAs (subject : Shot → Subject) (p : Progress) :
    (advanceAs subject).run p =
      match p.shot.calls.advance? with
      | none => .error (.call (.pastLast (subject p.shot) p.shot.phase)) p
      | some calls => .ok () ⟨{ p.shot with calls },
          p.messages.push ⟨.debug, (subject p.shot).title ++ ": " ++ p.shot.phase.name ++ " -> " ++
            calls.phase.name ++ "\n"⟩⟩ := by
  simp only [advanceAs, EStateM.run_bind, run_shot]
  cases p.shot.calls.advance? <;> rfl

/-- The next phase, once nothing is missing. -/
theorem run_nextPhase {p : Progress} {calls : Calls} (hm : p.shot.firstMissing? = none)
    (ha : p.shot.calls.advance? = some calls) :
    ∃ messages, nextPhase.run p = .ok () ⟨{ p.shot with calls }, messages⟩ := by
  rw [nextPhase, EStateM.run_bind, run_checkAllCalled, hm]
  simp only [run_advanceAs, ha]
  exact ⟨_, rfl⟩

/-! ## Placing one instruction -/

variable {p : Progress} {id : Nat} {i : Instruction} {waits : Array Float}

/-- An instruction whose call is refused is left alone. -/
theorem run_convert_refused (waits : Array Float) {e : Refusal} (hi : p.shot.instruction? id = some i)
    (hc : p.shot.calls.enter (Node.instruction id).ref .convertTiming = .error e) :
    ∃ f, (convert id waits).run p = .error (.call f) p := by
  rw [convert, EStateM.run_bind, run_shot]
  simp only [hi, EStateM.run_bind, enter, run_enterAs, Shot.enterAs, hc]
  cases e <;> exact ⟨_, rfl⟩

/-- Otherwise it is placed as far as that goes. -/
theorem run_convert_entered {calls : Calls} (hi : p.shot.instruction? id = some i)
    (hc : p.shot.calls.enter (Node.instruction id).ref .convertTiming = .ok calls) :
    (convert id waits).run p =
      match p.shot.placing waits i with
      | .ok _ _ => .ok ()
          { p with shot := ({ p.shot with calls } : Shot).setInstruction id (p.shot.placed waits) }
      | .error b _ => .error (.quantisation (.single (p.shot.misplaced id i b)))
          { p with shot := ({ p.shot with calls } : Shot).setInstruction id (p.shot.placed waits) } := by
  have hplace : (Placing.instruction (({ p.shot with calls } : Shot).grid i) waits
      ({ p.shot with calls } : Shot).deadTime i).run i.timing = p.shot.placing waits i := rfl
  have hset : ∀ f : Instruction → Instruction, p.shot.placed waits i = f i →
      ({ p.shot with calls } : Shot).setInstruction id (p.shot.placed waits) =
        ({ p.shot with calls } : Shot).setInstruction id f :=
    fun f hf => Shot.setInstruction_congr (i := i) hi hf
  rw [convert, EStateM.run_bind, run_shot]
  simp only [hi, EStateM.run_bind, enter, run_enterAs, Shot.enterAs, hc, run_shot, hplace]
  cases hp : p.shot.placing waits i with
  | ok u t =>
    rw [hset (fun i => { i with timing := t, converted := true }) (by simp [Shot.placed, hp])]
    rfl
  | error b t =>
    rw [hset (fun i => { i with timing := t }) (by simp [Shot.placed, hp])]
    rfl

end Compile

end ShotTiming
