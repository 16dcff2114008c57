import ShotTiming.Proofs.Session
import ShotTiming.Proofs.Shot.History

/-! # The gate between phases

As long as no command leaves a phase by itself, a phase is left only with every required call made,
whoever made it and whatever failed on the way. The next phase is refused for the first node that lacks
a call, and a refusal changes nothing.
-/
namespace ShotTiming
open Relation

/-- A command that leaves a phase without looking at its calls. -/
def Command.isAdvance : Command → Bool
  | .advance .. => true
  | _ => false

namespace Shot

variable {s : Shot}

/-- A node has not had a call that is required of it in the phase of its shot. -/
structure Lacks (s : Shot) (n : Node) (o : Operation) : Prop where
  phase : o.phase = s.phase
  isOnce : o.isOnce
  isRequired : o.isRequiredOn n.ref.type
  not_called : s.calls.called n.ref o = false

theorem missing?_eq_none_iff {n : Node} :
    s.calls.missing? n.ref = none ↔ ∀ o, ¬ s.Lacks n o := by
  rw [Calls.missing?_eq_none]
  constructor
  · intro h o hl
    have hcalled := h o hl.phase hl.isOnce hl.isRequired
    rw [hl.not_called] at hcalled
    cases hcalled
  · intro h o hp ho hr
    by_contra hc
    exact h o ⟨hp, ho, hr, by simpa using hc⟩

theorem lacks_of_missing? {n : Node} {o : Operation} (h : s.calls.missing? n.ref = some o) :
    s.Lacks n o := by
  have hfound := List.find?_some h
  simp only [Calls.allows, Bool.and_eq_true, beq_iff_eq, Bool.not_eq_true'] at hfound
  obtain ⟨⟨⟨hp, ho⟩, hr⟩, hc⟩ := hfound
  exact ⟨hp, ho, hr, hc⟩

/-- The node that a shot names is the first of its nodes that lacks a call. -/
theorem firstMissing?_eq_some {n : Node} {o : Operation} (h : s.firstMissing? = some (n, o)) :
    s.Lacks n o ∧ ∃ before behind, s.nodes = before ++ n :: behind ∧
      ∀ m ∈ before, ∀ p, ¬ s.Lacks m p := by
  obtain ⟨before, m, behind, hnodes, hm, hbefore⟩ := List.findSome?_eq_some_iff.mp h
  obtain ⟨p, hp, he⟩ := Option.map_eq_some_iff.mp hm
  cases he
  refine ⟨lacks_of_missing? hp, before, behind, hnodes, fun q hq => ?_⟩
  have hnone := hbefore q hq
  rw [Option.map_eq_none_iff] at hnone
  exact missing?_eq_none_iff.mp hnone

/-- A call that somebody enters keeps the gate. -/
theorem Gated.enter {r : NodeRef} {o : Operation} {calls : Calls} (hs : s.Gated)
    (hc : s.calls.enter r o = .ok calls) : ({ s with calls } : Shot).Gated := by
  intro n hn p hp hr hlt
  have hphase : ({ s with calls } : Shot).phase = s.phase := Calls.phase_of_enter hc
  rw [hphase] at hlt
  exact Calls.called_mono hc (hs n hn p hp hr hlt)

theorem Gated.run {s' : Shot} (h : ReflTransGen (Change false) s s') (hs : s.Gated) : s'.Gated := by
  induction h with
  | refl => exact hs
  | tail _ hc ih => exact hc.gated ih

theorem IsNew.gated (hs : s.IsNew) : s.Gated := by
  have hg : s.Grown false := ⟨s, hs, .refl⟩
  exact hg.gated

theorem phase_rank_of_run {raw : Bool} {s' : Shot} (h : ReflTransGen (Change raw) s s') :
    s.phase.rank ≤ s'.phase.rank := by
  induction h with
  | refl => exact Nat.le_refl _
  | tail _ hc ih => exact Nat.le_trans ih hc.phase_rank

end Shot

namespace Session

/-- One command leads from a session to another, and does not leave a phase by itself. -/
def OrderlyNext (s s' : Session) : Prop := ∃ c : Command, c.isAdvance = false ∧ s' = s.carryOut c

/-- Some commands lead to a session, and none of them leaves a phase by itself. -/
def IsOrderly (s : Session) : Prop := ReflTransGen OrderlyNext {} s

variable {s s' : Session} {k : Nat} {a : Shot}

theorem OrderlyNext.next (h : OrderlyNext s s') : Next true s s' := by
  obtain ⟨c, -, hc⟩ := h
  exact ⟨c, .inl rfl, hc⟩

theorem IsOrderly.reachable (h : s.IsOrderly) : Reachable true s :=
  ReflTransGen.mono (fun _ _ hn => hn.next) _ _ h

theorem isOrderly_script {cs : List Command} (h : ∀ c ∈ cs, c.isAdvance = false) :
    (script cs).IsOrderly :=
  run_script fun c hc _ => ⟨c, h c hc, rfl⟩

/-- The loose nodes are as they were made, and every shot has kept its gate. -/
structure KeepsGate (s : Session) : Prop where
  loose : s.KeepsLoose
  shot : ∀ {k a}, s.shot? k = some a → a.Gated

/-- A command that is not raw leaves a phase through the gate. -/
theorem KeepsGate.of_leads (h : Leads false s s') (hs : s.KeepsGate) : s'.KeepsGate := by
  obtain ⟨hloose, hgrows⟩ := h hs.loose
  refine ⟨hloose, fun {k} b hb => ?_⟩
  cases ha : s.shot? k with
  | none =>
    obtain ⟨a, hnew, hrun⟩ := (hgrows k).opens b ha hb
    exact hnew.gated.run hrun
  | some a =>
    obtain ⟨b', hb', hrun⟩ := (hgrows k).stays a ha
    cases hb.symm.trans hb'
    exact (hs.shot ha).run hrun

theorem KeepsGate.absorb (hs : s.KeepsGate) (hk : s.shot? k = some a) {p : Progress}
    (hp : p.shot.Gated) : (s.absorb k p).KeepsGate := by
  refine ⟨⟨hs.loose.device, hs.loose.instruction⟩, fun {j} b hb => ?_⟩
  by_cases hj : k = j
  · subst hj
    rw [shot?_absorb hk] at hb
    cases hb
    exact hp
  · have hother : (s.absorb k p).shot? j = s.shot? j := Array.getElem?_setIfInBounds_ne hj
    exact hs.shot (hother ▸ hb)

/-- A call that is entered by itself is the only change of its shot. -/
theorem KeepsGate.enterCall (hs : s.KeepsGate) (p : Place) (o : Operation) :
    (s.carryOut (.enterCall k p o)).KeepsGate := by
  have hperform : perform (.enterCall k p o) = Act.subject p >>= fun subject =>
      Act.onShot k (Compile.enterAs subject.ref (fun _ => subject) o) >>= fun _ => pure .done := rfl
  rw [carryOut, hperform, after_bind, Act.run_subject]
  cases s.subject? p with
  | none => exact hs
  | some subject =>
    dsimp only
    rw [after_bind_pure]
    cases hk : s.shot? k with
    | none =>
      rw [after, Act.run_onShot, hk]
      exact hs
    | some a =>
      rw [Act.after_onShot hk]
      refine hs.absorb hk ?_
      rw [after, Compile.run_enterAs, Shot.enterAs]
      cases hc : a.calls.enter subject.ref o with
      | ok calls => exact (hs.shot hk).enter hc
      | error e => cases e <;> exact hs.shot hk

theorem OrderlyNext.keepsGate (h : OrderlyNext s s') (hs : s.KeepsGate) : s'.KeepsGate := by
  obtain ⟨c, hc, rfl⟩ := h
  by_cases hraw : c.isRaw = false
  · exact hs.of_leads (Act.leads_perform c (.inr hraw) s)
  · cases c with
    | enterCall k p o => exact hs.enterCall p o
    | advance k p => cases hc
    | _ => exact absurd rfl hraw

theorem IsOrderly.keepsGate (h : s.IsOrderly) : s.KeepsGate := by
  induction h with
  | refl => exact ⟨keepsLoose_empty, by simp [shot?]⟩
  | tail _ hn ih => exact hn.keepsGate ih

/-! ## Asking for the next phase -/

theorem absorb_unchanged (hk : s.shot? k = some a) : s.absorb k ⟨a, #[]⟩ = s := by
  have hshots : s.shots.setIfInBounds k a = s.shots := by
    obtain ⟨hlt, rfl⟩ := Array.getElem?_eq_some_iff.mp hk
    simp [Array.setIfInBounds, hlt]
  simp [absorb, hshots]

/-- The next phase is granted or refused according to the nodes of the shot. -/
theorem run_nextPhase (hk : s.shot? k = some a) :
    (perform (.nextPhase k)).run s =
      match a.firstMissing? with
      | some (n, o) => .error (.call (.missing (a.subject n) o a.phase)) s
      | none =>
        match a.phase.next? with
        | none => .error (.call (.pastLast (a.subject .shot) a.phase)) s
        | some q => .ok .done (s.absorb k ⟨{ a with calls := { a.calls with phase := q } },
            #[⟨.debug, a.title ++ ": " ++ a.phase.name ++ " -> " ++ q.name ++ "\n"⟩]⟩) := by
  have hperform : perform (.nextPhase k) = Act.onShot k Compile.nextPhase >>= fun _ => pure .done := rfl
  rw [hperform, EStateM.run_bind, Act.run_onShot, hk]
  simp only [Compile.nextPhase, EStateM.run_bind, Compile.run_checkAllCalled]
  cases hm : a.firstMissing? with
  | some m =>
    dsimp only
    rw [absorb_unchanged hk]
  | none =>
    simp only [Compile.run_advanceAs, Calls.advance?]
    cases hq : a.phase.next? with
    | none =>
      rw [show a.calls.phase.next? = none from hq]
      dsimp only [Option.map_none]
      rw [absorb_unchanged hk]
    | some q =>
      rw [show a.calls.phase.next? = some q from hq]
      rfl

/-- What becomes of a request for the next phase of a shot. -/
structure GuardsPhase (s : Session) (k : Nat) (a : Shot) : Prop where
  granted_iff : (∃ t, (perform (.nextPhase k)).run s = .ok .done t) ↔
    a.phase.next? ≠ none ∧ ∀ n ∈ a.nodes, ∀ o, ¬ a.Lacks n o
  /-- Only the phase changes, to the one after it. -/
  granted : ∀ r t, (perform (.nextPhase k)).run s = .ok r t → ∃ q messages,
    a.phase.next? = some q ∧
      t = s.absorb k ⟨{ a with calls := { a.calls with phase := q } }, messages⟩
  /-- The first node that lacks a call is named, and nothing changes. -/
  refused : ∀ e t, (perform (.nextPhase k)).run s = .error e t → t = s ∧
    ((∃ n o before behind, a.Lacks n o ∧ a.nodes = before ++ n :: behind ∧
        (∀ m ∈ before, ∀ p, ¬ a.Lacks m p) ∧ e = .call (.missing (a.subject n) o a.phase)) ∨
      (a.phase.next? = none ∧ (∀ n ∈ a.nodes, ∀ o, ¬ a.Lacks n o) ∧
        e = .call (.pastLast (a.subject .shot) a.phase)))

theorem guardsPhase (hk : s.shot? k = some a) : s.GuardsPhase k a := by
  have hrun := run_nextPhase hk
  cases hm : a.firstMissing? with
  | some m =>
    obtain ⟨n, o⟩ := m
    obtain ⟨hl, before, behind, hnodes, hbefore⟩ := Shot.firstMissing?_eq_some hm
    have hmem : n ∈ a.nodes := by simp [hnodes]
    simp only [hm] at hrun
    constructor
    case granted_iff => exact iff_of_false (by simp [hrun]) fun h => h.2 n hmem o hl
    case granted => simp [hrun]
    case refused =>
      intro e t h
      cases hrun.symm.trans h
      exact ⟨rfl, .inl ⟨n, o, before, behind, hl, hnodes, hbefore, rfl⟩⟩
  | none =>
    have hnone : ∀ n ∈ a.nodes, ∀ o, ¬ a.Lacks n o := fun n hn =>
      Shot.missing?_eq_none_iff.mp (Shot.firstMissing?_eq_none.mp hm n hn)
    cases hq : a.phase.next? with
    | none =>
      simp only [hm, hq] at hrun
      constructor
      case granted_iff => exact iff_of_false (by simp [hrun]) fun h => h.1 hq
      case granted => simp [hrun]
      case refused =>
        intro e t h
        cases hrun.symm.trans h
        exact ⟨rfl, .inr ⟨hq, hnone, rfl⟩⟩
    | some q =>
      simp only [hm, hq] at hrun
      constructor
      case granted_iff => exact iff_of_true ⟨_, hrun⟩ ⟨by simp [hq], hnone⟩
      case granted =>
        intro r t h
        cases hrun.symm.trans h
        exact ⟨q, _, hq, rfl⟩
      case refused => simp [hrun]

/-- Every shot of an orderly session has had the calls of its earlier phases, guards its phase, and never
goes back to an earlier one. -/
theorem gate_of_orderly (h : s.IsOrderly) (hk : s.shot? k = some a) :
    a.Gated ∧ s.GuardsPhase k a ∧ ∀ s', ReflTransGen OrderlyNext s s' →
      ∃ b, s'.shot? k = some b ∧ a.phase.rank ≤ b.phase.rank := by
  refine ⟨h.keepsGate.shot hk, guardsPhase hk, fun s' hrun => ?_⟩
  have hnext : ReflTransGen (Next true) s s' := ReflTransGen.mono (fun _ _ hn => hn.next) _ _ hrun
  obtain ⟨b, hb, hchanges⟩ := Shot.changes_of_run h.reachable hnext hk
  exact ⟨b, hb, Shot.phase_rank_of_run hchanges⟩

/-- A device that drops its pass and with it the call of its clock, which is then entered by hand. -/
private def leaky : List Command := [
  .openShot "bench" {} {},
  .addDevice 0 (.shot 0)
    { name := "master", equipment := .pseudoclockDevice 0, hooks := { limits := .skip } } {},
  .addDevice 0 (.device 0 0) { name := "clock", equipment := .pseudoclock ⟨1, 0, 10⟩ } {},
  .start 0,
  .nextPhase 0,
  .enterCall 0 (.device 0 1) .establishLimits,
  .nextPhase 0]

theorem gate_of_leaky : ∃ (s : Session) (a : Shot), s.IsOrderly ∧ s.shot? 0 = some a ∧
    a.phase = .establishAttributes ∧ a.Gated ∧ s.GuardsPhase 0 a := by
  have hrun : ((script leaky).shot? 0).any fun a => a.phase = .establishAttributes := by decide +kernel
  obtain ⟨a, ha, hp⟩ := (Option.any_eq_true _ _).mp hrun
  have horderly : (script leaky).IsOrderly := isOrderly_script (by decide)
  obtain ⟨hgated, hguards, -⟩ := gate_of_orderly horderly ha
  exact ⟨_, a, horderly, ha, of_decide_eq_true hp, hgated, hguards⟩

end Session
end ShotTiming
