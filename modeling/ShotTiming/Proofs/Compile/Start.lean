import ShotTiming.Proofs.Compile.Entering
import ShotTiming.Proofs.Session.Gate

/-! # The start of a shot shows every broken pass

Two passes fix the limits and the attributes of a tree, with a gate behind each of them. A hook that drops
or repeats a part of a pass is noticed whatever other hooks do: either a call comes twice, or the gate
finds it missing.
-/
namespace ShotTiming

/-- An operation of one of the two passes. -/
def Operation.IsOfStart (o : Operation) : Prop := o = .establishLimits ∨ o = .establishAttributes

namespace Operation.IsOfStart

variable {o : Operation}

theorem isOnce (ho : o.IsOfStart) : o.isOnce := by rcases ho with rfl | rfl <;> rfl

theorem required_iff (ho : o.IsOfStart) {t : NodeType} :
    o.isRequiredOn t ↔ t = .shot ∨ t = .device := by
  rcases ho with rfl | rfl <;> cases t <;> decide

/-- Nothing else happens once in its phase. -/
theorem unique (ho : o.IsOfStart) {o' : Operation} (hp : o'.phase = o.phase) (honce : o'.isOnce) :
    o' = o := by
  revert hp honce
  rcases ho with rfl | rfl <;> cases o' <;> decide

end Operation.IsOfStart

namespace Shot

/-- A device with others below it whose part in a pass is replaced. -/
def Breaks (s : Shot) (hook : Hooks → PassHook) : Prop :=
  ∃ id d, s.device? id = some d ∧ d.children ≠ #[] ∧ hook d.hooks ≠ .standard

/-- The nodes that a pass over the whole shot enters its call for, each as often as it does. -/
def callsOf (s : Shot) (p : Pass) : List NodeRef :=
  Node.shot.ref :: ((s.below .shot).attempts (s.hookAt p)).map fun id => (Node.device id).ref

variable {s s' : Shot} {p : Pass}

theorem breaks_iff : s.Breaks p.hook ↔
    ∃ id < s.devices.size, s.childrenOf (.device id) ≠ [] ∧ s.hookAt p id ≠ .standard := by
  constructor
  · rintro ⟨id, d, hd, hc, hh⟩
    exact ⟨id, device?_eq_some hd, by simpa [childrenOf, hd] using hc, by simpa [hookAt, hd] using hh⟩
  · rintro ⟨id, hid, hc, hh⟩
    obtain ⟨d, hd⟩ := exists_device hid
    exact ⟨id, d, hd, by simpa [childrenOf, hd] using hc, by simpa [hookAt, hd] using hh⟩

theorem SameTree.breaks (h : SameTree s s') : s'.Breaks p.hook ↔ s.Breaks p.hook := by
  rw [breaks_iff, breaks_iff, h.devices_size, h.hookAt]
  simp only [h.childrenOf]

/-- The devices that a pass comes to are of the tree, and have references of their own. -/
theorem WellFormed.attempted_ref_inj (hs : s.WellFormed) {a b : Nat}
    (ha : a ∈ (s.below .shot).attempts (s.hookAt p)) (hb : b ∈ (s.below .shot).toList)
    (he : (Node.device a).ref = (Node.device b).ref) : a = b := by
  have hfit : ∀ {id}, id ∈ (s.below .shot).toList → id < arenaCapacity := fun hid =>
    Nat.lt_of_lt_of_le (hs.devices.mem_below_shot.mp hid) hs.devices_referable
  exact Node.device_ref_inj (hfit (Forest.attempts_subset _ ha)) (hfit hb) he

theorem WellFormed.nodup_callsOf_iff (hs : s.WellFormed) :
    (s.callsOf p).Nodup ↔ ((s.below .shot).attempts (s.hookAt p)).Nodup := by
  rw [callsOf, List.nodup_cons]
  constructor
  · exact fun h => h.2.of_map _
  · intro h
    refine ⟨by simp [Node.ref], h.map_on fun a ha b hb => ?_⟩
    exact hs.attempted_ref_inj ha (Forest.attempts_subset _ hb)

theorem WellFormed.covers_callsOf_iff (hs : s.WellFormed) :
    (∀ id < s.devices.size, (Node.device id).ref ∈ s.callsOf p) ↔
      (s.below .shot).toList ⊆ (s.below .shot).attempts (s.hookAt p) := by
  constructor
  · intro h id hid
    have hmem := h id (hs.devices.mem_below_shot.mp hid)
    rw [callsOf, List.mem_cons, List.mem_map] at hmem
    rcases hmem with hshot | ⟨a, ha, he⟩
    · cases hshot
    · rwa [← hs.attempted_ref_inj ha hid he]
  · intro h id hid
    exact List.mem_cons_of_mem _ (List.mem_map_of_mem (h (hs.devices.mem_below_shot.mpr hid)))

/-- A pass enters its call for every node once if and only if nothing breaks it. -/
theorem WellFormed.callsOf_iff (hs : s.WellFormed) :
    (s.callsOf p).Nodup ∧ (∀ id < s.devices.size, (Node.device id).ref ∈ s.callsOf p) ↔
      ¬ s.Breaks p.hook := by
  have hnd := hs.devices.nodup_below .shot
  have hstandard : (s.below .shot).StandardAbove (s.hookAt p) ↔ ¬ s.Breaks p.hook := by
    rw [below, Forest.standardAbove_plant hs.devices.climbing (hs.devices.roots_fit .shot), breaks_iff]
    simp only [← below.eq_def, hs.devices.mem_below_shot]
    push Not
    rfl
  rw [hs.nodup_callsOf_iff, hs.covers_callsOf_iff, ← hstandard]
  constructor
  · exact fun h => Forest.standardAbove_of_attempts hnd h.2 h.1
  · intro h
    rw [Forest.attempts_eq h]
    exact ⟨hnd, List.Subset.refl _⟩

/-- A pass that comes to every device enters every call that may be required. -/
theorem mem_callsOf (hcover : ∀ id < s.devices.size, (Node.device id).ref ∈ s.callsOf p) {n : Node}
    (hn : n ∈ s.nodes) (ht : n.ref.type = .shot ∨ n.ref.type = .device) : n.ref ∈ s.callsOf p := by
  rw [mem_nodes] at hn
  cases n with
  | shot => exact List.mem_cons_self
  | device id => exact hcover id hn
  | instruction id => simp [Node.ref] at ht

theorem SameLinks.nodes (h : SameLinks s s') : s'.nodes = s.nodes := by
  rw [Shot.nodes, h.devices_size, h.instructions_size, Shot.nodes]

end Shot

namespace Compile
open Shot

/-! ## A pass and the gate behind it -/

/-- The call of a pass comes again, or not at all. -/
inductive Miscalls (o : Operation) : Fault → Prop
  | repeated (subject : Subject) : Miscalls o (.call (.repeated subject o o.phase))
  | missing (subject : Subject) : Miscalls o (.call (.missing subject o o.phase))

section

variable {p : Progress} {o : Operation} {x : Compile Unit} {pass : Pass}
  (hx : Enters p.shot o x (p.shot.callsOf pass)) (hw : p.shot.WellFormed) (ho : o.IsOfStart)
  (hp : p.shot.phase = o.phase) (hfresh : ∀ r, p.shot.calls.called r o = false)

include ho hp hfresh in
/-- The gate finds whether the pass came to every device. -/
private theorem firstMissing?_gate {q : Progress} (hlinks : SameLinks p.shot q.shot)
    (hcalls : q.shot.calls = p.shot.calls.markAll (p.shot.callsOf pass) o) :
    q.shot.firstMissing? = none ↔
      ∀ id < p.shot.devices.size, (Node.device id).ref ∈ p.shot.callsOf pass := by
  have hphase : q.shot.phase = o.phase := by
    rw [Shot.phase, hcalls, Calls.phase_markAll]
    exact hp
  have hcalled : ∀ r, q.shot.calls.called r o ↔ r ∈ p.shot.callsOf pass := fun r => by
    simp [hcalls, Calls.called_markAll, hfresh]
  simp only [firstMissing?_eq_none, missing?_eq_none_iff]
  constructor
  · intro h id hid
    by_contra hnot
    have hlacks : q.shot.Lacks (.device id) o :=
      ⟨hphase.symm, ho.isOnce, ho.required_iff.mpr (.inr rfl), by
        rwa [← Bool.not_eq_true, hcalled]⟩
    exact h (.device id) (mem_nodes.mpr (hlinks.devices_size ▸ hid)) o hlacks
  · intro h n hn o' hl
    obtain rfl := ho.unique (hl.phase.trans hphase) hl.isOnce
    have hmem := mem_callsOf h (hlinks.nodes ▸ hn) (ho.required_iff.mp hl.isRequired)
    have hnot := hl.not_called
    rw [(hcalled _).mpr hmem] at hnot
    cases hnot

include hx hw ho hp hfresh

/-- Unbroken, the pass enters its calls and the gate behind it opens. -/
theorem run_gated_pass (hb : ¬ p.shot.Breaks pass.hook) :
    ∃ q, (do x; nextPhase : Compile Unit).run p = .ok () q ∧ SameLinks p.shot q.shot ∧
      o.phase.next? = some q.shot.phase ∧
      (∀ n ∈ p.shot.nodes, o.isRequiredOn n.ref.type → q.shot.calls.called n.ref o) ∧
      ∀ r o', o' ≠ o → q.shot.calls.called r o' = p.shot.calls.called r o' := by
  obtain ⟨hnd, hcover⟩ := hw.callsOf_iff.mpr hb
  obtain ⟨q, hq, hlinks, hcalls⟩ := hx.entered (.refl _) hp
    ((Calls.enterAll_eq_ok hp.symm ho.isOnce).mpr ⟨hnd, fun r _ => hfresh r, rfl⟩)
  have hphase : q.shot.calls.phase = o.phase := by
    rw [hcalls, Calls.phase_markAll]
    exact hp
  obtain ⟨ph, hnext⟩ : ∃ ph, o.phase.next? = some ph := by
    rcases ho with rfl | rfl <;> exact ⟨_, rfl⟩
  have hadvance : q.shot.calls.advance? = some { q.shot.calls with phase := ph } :=
    Calls.advance?_eq_some.mpr ⟨hphase ▸ hnext, rfl⟩
  obtain ⟨messages, hrun⟩ :=
    run_nextPhase ((firstMissing?_gate ho hp hfresh hlinks hcalls).mpr hcover) hadvance
  have hboth : (do x; nextPhase : Compile Unit).run p = nextPhase.run q := by
    rw [EStateM.run_bind, hq]
  have hcalled : ∀ r o', q.shot.calls.called r o' ↔
      p.shot.calls.called r o' ∨ (r ∈ p.shot.callsOf pass ∧ o' = o) := fun r o' => by
    rw [hcalls, Calls.called_markAll]
  refine ⟨_, hboth.trans hrun, hlinks.trans (.of_eq rfl rfl rfl rfl rfl rfl), hnext, ?_, ?_⟩
  · intro n hn hr
    exact (hcalled n.ref o).mpr (.inr ⟨mem_callsOf hcover hn (ho.required_iff.mp hr), rfl⟩)
  · intro r o' hne
    exact Bool.eq_iff_iff.mpr ((hcalled r o').trans (or_iff_left fun h => hne h.2))

/-- Broken, it enters a call again, or the gate behind it finds one missing. -/
theorem run_gated_pass_of_breaks (hb : p.shot.Breaks pass.hook) :
    ∃ e q, (do x; nextPhase : Compile Unit).run p = .error e q ∧ Miscalls o e ∧
      q.shot.phase = o.phase := by
  cases hall : p.shot.calls.enterAll (p.shot.callsOf pass) o with
  | error e =>
    obtain ⟨subject, q, hq, hphase⟩ := hx.refused (.refl _) hp hall
    exact ⟨_, q, by rw [EStateM.run_bind, hq], .repeated subject, hphase⟩
  | ok calls =>
    obtain ⟨hnd, -, hcalls⟩ := (Calls.enterAll_eq_ok hp.symm ho.isOnce).mp hall
    obtain ⟨q, hq, hlinks, rfl⟩ := hx.entered (.refl _) hp hall
    have hphase : q.shot.phase = o.phase := (Calls.phase_of_enterAll hall).trans hp
    cases hm : q.shot.firstMissing? with
    | none =>
      have hcover := (firstMissing?_gate ho hp hfresh hlinks hcalls).mp hm
      exact absurd hb (hw.callsOf_iff.mp ⟨hnd, hcover⟩)
    | some m =>
      obtain ⟨n, o'⟩ := m
      obtain ⟨hl, -⟩ := firstMissing?_eq_some hm
      obtain rfl := ho.unique (hl.phase.trans hphase) hl.isOnce
      refine ⟨_, q, ?_, .missing (q.shot.subject n), hphase⟩
      rw [EStateM.run_bind, hq]
      change nextPhase.run q = _
      rw [nextPhase, EStateM.run_bind, run_checkAllCalled, hm, ← hphase]

end

/-! ## The two passes -/

theorem enters_establishLimits (s : Shot) :
    Enters s .establishLimits establishLimits (s.callsOf limitsPass) := by
  have hafter : ∀ id, Enters s .establishLimits (limitsPass.after id) [] := by
    intro id
    have hstep : limitsPass.after id = modifyShot fun s =>
        (s.limitsOf? id).elim s fun limits => s.setDevice id fun d => { d with limits } := rfl
    rw [hstep]
    refine .modifyShot (fun t => ?_) fun t => ?_
    · cases t.limitsOf? id with
      | none => exact .refl t
      | some limits => exact .setDevice (fun _ _ => rfl) fun _ _ => .rfl
    · cases t.limitsOf? id <;> rfl
  exact (Enters.enter .shot).bind (enters_runBelowShot (p := limitsPass) (fun _ => .pure) hafter)

theorem enters_establishAttributes (s : Shot) :
    Enters s .establishAttributes establishAttributes (s.callsOf attributesPass) := by
  have hbefore : ∀ id, Enters s .establishAttributes (attributesPass.before id) [] := by
    intro id
    have hstep : attributesPass.before id = modifyShot fun s => (s.device? id).elim s fun d =>
        s.setDevice id fun e =>
          { e with start := (s.startAndLatency d).1, latency := (s.startAndLatency d).2 } := rfl
    rw [hstep]
    refine .modifyShot (fun t => ?_) fun t => ?_
    · cases t.device? id with
      | none => exact .refl t
      | some d => exact .setDevice (fun _ _ => rfl) fun _ _ => .rfl
    · cases t.device? id <;> rfl
  have hdelay : Enters s .establishAttributes
      (modifyShot fun s => { s with waitDelay := s.longestWait }) [] :=
    .modifyShot (fun _ => .of_eq rfl rfl rfl rfl rfl rfl) fun _ => rfl
  exact (Enters.enter .shot).bind (hdelay.bind
    (enters_runBelowShot (p := attributesPass) hbefore fun _ => .pure))

variable {p : Progress} {raw : Bool}

/-- In the first phase nothing is required, so that a start gets to the two passes. -/
private theorem run_start (hp : p.shot.phase = .addDevices) : ∃ messages, start.run p =
    (do (do establishLimits; nextPhase); (do establishAttributes; nextPhase) : Compile Unit).run
      ⟨{ p.shot with calls := { p.shot.calls with phase := .establishLimits } }, messages⟩ := by
  have hcheck : (check fun s => s.checkPhase .shot .start).run p = .ok () p := by
    have hok : p.shot.checkPhase .shot .start = .ok () := checkPhase_eq_ok.mpr hp.symm
    rw [run_check, hok]
  have hmissing : p.shot.firstMissing? = none := by
    refine firstMissing?_eq_none.mpr fun n _ => missing?_eq_none_iff.mpr fun o hl => ?_
    have hphase := hl.phase.trans hp
    have honce := hl.isOnce
    revert hphase honce
    cases o <;> decide
  have hadvance : p.shot.calls.advance? = some { p.shot.calls with phase := .establishLimits } :=
    Calls.advance?_eq_some.mpr ⟨by rw [show p.shot.calls.phase = _ from hp]; rfl, rfl⟩
  obtain ⟨messages, hnext⟩ := run_nextPhase hmissing hadvance
  refine ⟨messages, ?_⟩
  rw [start, EStateM.run_bind, hcheck]
  dsimp only
  rw [EStateM.run_bind, hnext]
  simp only [bind_assoc]

/-- How a start ends, by the devices with others below them whose part in a pass is replaced. -/
structure ShowsBreaks (p : Progress) : Prop where
  started_iff : (∃ q, start.run p = .ok () q) ↔
    ¬ p.shot.Breaks (·.limits) ∧ ¬ p.shot.Breaks (·.attributes)
  /-- Every node has had both calls, neither of which it had had before. -/
  started : ∀ q, start.run p = .ok () q → q.shot.phase = .addInstructions ∧
    ∀ o : Operation, o.IsOfStart → ∀ n ∈ p.shot.nodes, o.isRequiredOn n.ref.type →
      p.shot.calls.called n.ref o = false ∧ q.shot.calls.called n.ref o
  /-- The start fails in the first of the two passes that is broken. -/
  failed : ∀ e q, start.run p = .error e q →
    (p.shot.Breaks (·.limits) ∧ Miscalls .establishLimits e ∧ q.shot.phase = .establishLimits) ∨
    (¬ p.shot.Breaks (·.limits) ∧ p.shot.Breaks (·.attributes) ∧
      Miscalls .establishAttributes e ∧ q.shot.phase = .establishAttributes)

private theorem ShowsBreaks.of_ok {q : Progress} (hrun : start.run p = .ok () q)
    (hl : ¬ p.shot.Breaks (·.limits)) (ha : ¬ p.shot.Breaks (·.attributes))
    (hphase : q.shot.phase = .addInstructions)
    (hcalls : ∀ o : Operation, o.IsOfStart → ∀ n ∈ p.shot.nodes, o.isRequiredOn n.ref.type →
      p.shot.calls.called n.ref o = false ∧ q.shot.calls.called n.ref o) : ShowsBreaks p where
  started_iff := iff_of_true ⟨q, hrun⟩ ⟨hl, ha⟩
  started r hr := by
    cases hrun.symm.trans hr
    exact ⟨hphase, hcalls⟩
  failed e r hr := by cases hrun.symm.trans hr

private theorem ShowsBreaks.of_error {e : Fault} {q : Progress} (hrun : start.run p = .error e q)
    (h : (p.shot.Breaks (·.limits) ∧ Miscalls .establishLimits e ∧
        q.shot.phase = .establishLimits) ∨
      (¬ p.shot.Breaks (·.limits) ∧ p.shot.Breaks (·.attributes) ∧
        Miscalls .establishAttributes e ∧ q.shot.phase = .establishAttributes)) : ShowsBreaks p where
  started_iff := by
    refine iff_of_false ?_ fun hnot => ?_
    · rintro ⟨r, hr⟩
      cases hrun.symm.trans hr
    · rcases h with ⟨hl, -⟩ | ⟨-, ha, -⟩
      · exact hnot.1 hl
      · exact hnot.2 ha
  started r hr := by cases hrun.symm.trans hr
  failed f r hr := by
    cases hrun.symm.trans hr
    exact h

/-- A start of a tree in its first phase goes through if and only if no device with others below it has
its part in one of the passes replaced, and shows which of the passes is broken otherwise. -/
theorem showsBreaks_of_reachable (h : p.shot.Reachable raw) (hp : p.shot.phase = .addDevices) :
    ShowsBreaks p := by
  have hw := h.grown.wellFormed
  have hfresh : ∀ {o : Operation}, o.IsOfStart → ∀ r, p.shot.calls.called r o = false := by
    intro o ho r
    by_contra hc
    have hrank := h.grown.markedUpTo r o (by simpa using hc)
    rw [hp] at hrank
    revert hrank
    rcases ho with rfl | rfl <;> decide
  obtain ⟨messages, hstart⟩ := run_start hp
  generalize hp₁ : (⟨{ p.shot with calls := { p.shot.calls with phase := .establishLimits } },
    messages⟩ : Progress) = p₁ at hstart
  have hlinks : SameLinks p.shot p₁.shot := hp₁ ▸ .of_eq rfl rfl rfl rfl rfl rfl
  have hphase₁ : p₁.shot.phase = .establishLimits := hp₁ ▸ rfl
  have hcalls₁ : ∀ r o, p₁.shot.calls.called r o = p.shot.calls.called r o := hp₁ ▸ fun _ _ => rfl
  have hfresh₁ : ∀ r, p₁.shot.calls.called r .establishLimits = false := fun r =>
    (hcalls₁ r _).trans (hfresh (.inl rfl) r)
  have henters := enters_establishLimits p₁.shot
  have hw₁ := hlinks.wellFormed hw
  by_cases hl : p.shot.Breaks (·.limits)
  · obtain ⟨e, q, hq, hm, hphase⟩ := run_gated_pass_of_breaks henters hw₁ (.inl rfl) hphase₁ hfresh₁
      (hlinks.toSameTree.breaks.mpr hl)
    exact .of_error (by rw [hstart, EStateM.run_bind, hq]) (.inl ⟨hl, hm, hphase⟩)
  obtain ⟨p₂, hrun₂, hlinks₂, hnext₂, hmade₂, hkept₂⟩ :=
    run_gated_pass henters hw₁ (.inl rfl) hphase₁ hfresh₁ fun hb => hl (hlinks.toSameTree.breaks.mp hb)
  have hphase₂ : p₂.shot.phase = .establishAttributes := (Option.some_inj.mp hnext₂).symm
  have hfresh₂ : ∀ r, p₂.shot.calls.called r .establishAttributes = false := by
    intro r
    rw [hkept₂ r _ (by decide), hcalls₁, hfresh (.inr rfl)]
  have hlinks' := hlinks.trans hlinks₂
  have henters₂ := enters_establishAttributes p₂.shot
  have hw₂ := hlinks'.wellFormed hw
  by_cases ha : p.shot.Breaks (·.attributes)
  · obtain ⟨e, q, hq, hm, hphase⟩ := run_gated_pass_of_breaks henters₂ hw₂ (.inr rfl) hphase₂ hfresh₂
      (hlinks'.toSameTree.breaks.mpr ha)
    exact .of_error (by rw [hstart, EStateM.run_bind, hrun₂]; exact hq) (.inr ⟨hl, ha, hm, hphase⟩)
  obtain ⟨q, hq, -, hnext, hmade, hkept⟩ :=
    run_gated_pass henters₂ hw₂ (.inr rfl) hphase₂ hfresh₂ fun hb => ha (hlinks'.toSameTree.breaks.mp hb)
  have hphase : q.shot.phase = .addInstructions := (Option.some_inj.mp hnext).symm
  refine .of_ok (by rw [hstart, EStateM.run_bind, hrun₂]; exact hq) hl ha hphase ?_
  intro o ho n hn hr
  refine ⟨hfresh ho _, ?_⟩
  rcases ho with rfl | rfl
  · rw [hkept _ _ (by decide)]
    exact hmade₂ n (hlinks.nodes.symm ▸ hn) hr
  · exact hmade n (hlinks'.nodes.symm ▸ hn) hr

/-- A clock that visits its line twice, below a master that drops the pass over the clock. -/
private def hidden : List Command := [
  .openShot "bench" {} {},
  .addDevice 0 (.shot 0)
    { name := "master", equipment := .pseudoclockDevice 0, hooks := { attributes := .skip } } {},
  .addDevice 0 (.device 0 0)
    { name := "clock", equipment := .pseudoclock ⟨1, 0, 10⟩, hooks := { attributes := .twice } } {},
  .addDevice 0 (.device 0 1) { name := "line", equipment := .clockLine } {}]

theorem showsBreaks_of_hidden : ∃ p : Progress, p.shot.Reachable false ∧
    p.shot.phase = .addDevices ∧ ShowsBreaks p ∧
    ∃ e q, start.run p = .error e q ∧ q.shot.phase = .establishAttributes := by
  have hrun : ((Session.script hidden).shot? 0).any fun s => s.phase = .addDevices ∧
      isOk (start.run ⟨s, #[]⟩) = false ∧
      (after start ⟨s, #[]⟩).shot.phase = .establishAttributes := by decide +kernel
  obtain ⟨s, hs, hp⟩ := (Option.any_eq_true _ _).mp hrun
  obtain ⟨hphase, hfails, hstays⟩ := of_decide_eq_true hp
  have hr : s.Reachable false := reachable_of_script (by decide) hs
  refine ⟨⟨s, #[]⟩, hr, hphase, showsBreaks_of_reachable (p := ⟨s, #[]⟩) hr hphase, ?_⟩
  unfold after at hstays
  cases hq : start.run ⟨s, #[]⟩ with
  | ok u q =>
    rw [hq] at hfails
    cases hfails
  | error e q =>
    rw [hq] at hstays
    exact ⟨e, q, rfl, hstays⟩

end Compile
end ShotTiming
