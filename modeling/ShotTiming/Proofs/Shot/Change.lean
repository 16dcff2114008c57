import Mathlib.Logic.Relation
import ShotTiming.Compile.Run
import ShotTiming.Proofs.Shot.Build
import ShotTiming.Proofs.Shot.Placed
import ShotTiming.Proofs.Sorted

/-! # What can happen to a shot

Everything that any command does to a shot is a sequence of the changes listed here. An edit keeps
the phase, and most edits belong to one phase.
-/
namespace ShotTiming
open Relation

/-- A device that belongs to no shot has no nodes below it, and the values that it was made with. -/
structure Device.IsLoose (d : Device) : Prop where
  children : d.children = #[]
  instructions : d.instructions = #[]
  usable : d.equipment.check d.name = .ok ()

/-- An instruction that belongs to no shot has no place on a clock. -/
structure Instruction.IsLoose (i : Instruction) : Prop where
  converted : i.converted = false
  timing : i.timing = {}

theorem Device.setOutputDelay_eq_ok {d d' : Device} {title : String} {x : Float}
    (h : d.setOutputDelay title x = .ok d') : d' = { d with outputDelay := x } := by
  unfold Device.setOutputDelay at h
  split at h <;> cases h
  rfl

theorem Device.setInitialTrigger_eq_ok {d d' : Device} {title : String} {x : Float}
    (h : d.setInitialTrigger title x = .ok d') : d' = { d with initialTrigger := x } := by
  unfold Device.setInitialTrigger at h
  split at h <;> cases h
  rfl

theorem bind_eq_ok {ε α β : Type} {x : Except ε α} {f : α → Except ε β} {b : β} :
    x >>= f = .ok b ↔ ∃ a, x = .ok a ∧ f a = .ok b := by
  cases x <;> simp [bind, Except.bind]

namespace Shot

inductive Edit : Shot → Shot → Prop
  | device {s s' : Shot} {h : Host} {d : Device} {site : Site} :
    d.IsLoose → (Build.addDevice h d site).run s = .ok () s' → Edit s s'
  | instruction {s s' : Shot} {h : Host} {i : Instruction} {site : Site} {more : Nat} :
    i.IsLoose → (Build.addInstruction h i site more).run s = .ok () s' → Edit s s'
  | configure {s : Shot} {id : Nat} {d : Device} (outputDelay initialTrigger : Float) :
    s.phase = .addDevices → s.device? id = some d →
      Edit s (s.setDevice id fun _ => { d with outputDelay, initialTrigger })
  | enter {s : Shot} {r : NodeRef} {o : Operation} {calls : Calls} :
    o ≠ .convertTiming → s.calls.enter r o = .ok calls → Edit s { s with calls }
  | limits {s : Shot} (id : Nat) (limits : Limits) :
    s.phase = .establishLimits → Edit s (s.setDevice id fun d => { d with limits })
  | attributes {s : Shot} (id : Nat) (start latency : Float) :
    s.phase = .establishAttributes → Edit s (s.setDevice id fun d => { d with start, latency })
  | waitDelay {s : Shot} (waitDelay : Float) :
    s.phase = .establishAttributes → Edit s { s with waitDelay }
  | stopTime {s : Shot} (stopTime : Float) :
    s.phase = .addInstructions → Edit s { s with stopTime }
  | waits {s : Shot} :
    s.phase = .convertTiming → Edit s { s with waits := s.sortedWaits.toArray }
  /-- An instruction is marked exactly as it is placed. -/
  | convert {s : Shot} {id : Nat} {i : Instruction} {calls : Calls} (waits : Array Float) :
    s.calls.enter (Node.instruction id).ref .convertTiming = .ok calls →
      s.instruction? id = some i →
      Edit s ({ s with calls }.setInstruction id (s.placed waits))
  | sort {s : Shot} (id : Nat) : s.phase = .convertTiming → Edit s (s.sortOutput id)
  | report {s : Shot} (report : Report) : Edit s { s with report }

/-- An edit, or a move to the next phase. Only raw changes mark a call that was not made, or leave out
one that is required. -/
inductive Change (raw : Bool) : Shot → Shot → Prop
  | edit {s s' : Shot} : Edit s s' → Change raw s s'
  | mark {s : Shot} {r : NodeRef} {o : Operation} {calls : Calls} :
    raw → s.calls.enter r o = .ok calls → Change raw s { s with calls }
  | advance {s : Shot} {calls : Calls} :
    s.calls.advance? = some calls → (raw ∨ s.firstMissing? = none) → Change raw s { s with calls }

/-- A shot without nodes, as it is opened. -/
def IsNew (s : Shot) : Prop := ∃ name settings site, new? name settings site = .ok s

/-- A shot that was opened and has changed since. -/
def Grown (raw : Bool) (s : Shot) : Prop := ∃ s₀ : Shot, s₀.IsNew ∧ ReflTransGen (Change raw) s₀ s

variable {s s' : Shot} {raw : Bool}

/-! ## Edits keep the phase and the tree -/

theorem sameLinks_sortOutput (id : Nat) : SameLinks s (s.sortOutput id) := by
  refine SameLinks.setDevice (fun _ _ => rfl) fun d _ => ?_
  simpa using Sorted.sort_perm _

theorem Edit.phase_eq (he : Edit s s') : s'.phase = s.phase := by
  cases he with
  | device _ ha =>
    obtain ⟨-, rfl⟩ := addDevice_eq_ok ha
    simp [phase]
  | instruction _ ha =>
    obtain ⟨-, -, rfl⟩ := addInstruction_eq_ok ha
    simp [phase]
  | enter _ hc => exact Calls.phase_of_enter hc
  | convert _ hc _ => exact Calls.phase_of_enter hc
  | _ => rfl

/-- An edit adds a node or leaves every link in place. -/
theorem Edit.adds_or_sameLinks (he : Edit s s') :
    (∃ h d site, d.IsLoose ∧ s.AdmitsDevice h d ∧ s' = s.withDevice h d site) ∨
      (∃ h i site, i.IsLoose ∧ s.AdmitsInstruction h i ∧ s.instructions.size < arenaCapacity ∧
        s' = s.withInstruction h i site) ∨ SameLinks s s' := by
  cases he with
  | device hd ha => exact .inl ⟨_, _, _, hd, addDevice_eq_ok ha⟩
  | instruction hi ha => exact .inr (.inl ⟨_, _, _, hi, addInstruction_eq_ok ha⟩)
  | configure x y _ hd =>
    refine .inr (.inr (SameLinks.setDevice (fun e he => ?_) fun e he => ?_))
    · rw [← Option.some_inj.mp (hd.symm.trans he)]
      rfl
    · rw [← Option.some_inj.mp (hd.symm.trans he)]
  | limits | attributes =>
    refine .inr (.inr ?_)
    exact SameLinks.setDevice (fun _ _ => rfl) fun _ _ => .rfl
  | @convert _ _ calls =>
    have hcalls : SameLinks s { s with calls } := .of_eq rfl rfl rfl rfl rfl rfl
    exact .inr (.inr (hcalls.trans (SameLinks.setInstruction fun i _ => fixed_placed _ i)))
  | sort id _ => exact .inr (.inr (sameLinks_sortOutput id))
  | enter | waitDelay | stopTime | waits | report =>
    exact .inr (.inr (SameLinks.of_eq rfl rfl rfl rfl rfl rfl))

theorem Change.adds_or_sameLinks (hc : Change raw s s') :
    (∃ h d site, d.IsLoose ∧ s.AdmitsDevice h d ∧ s' = s.withDevice h d site) ∨
      (∃ h i site, i.IsLoose ∧ s.AdmitsInstruction h i ∧ s.instructions.size < arenaCapacity ∧
        s' = s.withInstruction h i site) ∨ SameLinks s s' := by
  cases hc with
  | edit he => exact he.adds_or_sameLinks
  | mark | advance => exact .inr (.inr (.of_eq rfl rfl rfl rfl rfl rfl))

theorem Change.wellFormed (hc : Change raw s s') (hs : s.WellFormed) : s'.WellFormed := by
  rcases hc.adds_or_sameLinks with ⟨h, d, site, hd, ha, rfl⟩ | ⟨h, i, site, -, ha, hfit, rfl⟩ | hl
  · exact hs.withDevice ha.accepted ha.room hd.children hd.instructions
  · exact hs.withInstruction ha.accepted hfit
  · exact hl.wellFormed hs

theorem IsNew.wellFormed (hs : s.IsNew) : s.WellFormed := by
  obtain ⟨name, settings, site, h⟩ := hs
  obtain ⟨_, -, h⟩ := bind_eq_ok.mp h
  cases Except.ok.inj h
  exact wellFormed_empty name settings site

end Shot

end ShotTiming
