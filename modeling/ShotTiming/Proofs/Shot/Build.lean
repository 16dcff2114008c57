import ShotTiming.Proofs.Calls
import ShotTiming.Proofs.Shot.WellFormed

/-! # Building a shot

A step that builds writes one list or link after another, but only once it has made every check that can
fail. So a node enters as one change of the shot, and a refusal leaves the shot as it was.
-/
namespace ShotTiming

variable {s s' : Shot} {h : Host} {site : Site}

namespace Shot

theorem checkPhase_eq_ok {n : Node} {o : Operation} :
    s.checkPhase n o = .ok () ↔ o.phase = s.phase := by
  unfold checkPhase checkPhaseAs Calls.allows phase
  by_cases hp : o.phase = s.calls.phase <;> simp [hp]

/-- A device may enter the shot below a host. -/
structure AdmitsDevice (s : Shot) (h : Host) (d : Device) : Prop where
  phase : s.phase = .addDevices
  accepted : (s.acceptedDevices h).contains d.kind
  /-- There is one master at most. -/
  master : h = .shot → d.kind = .pseudoclockDevice → s.master = none
  room : s.devices.size < deviceCapacity

/-- An instruction may be given to a host, as long as there is room. -/
structure AdmitsInstruction (s : Shot) (h : Host) (i : Instruction) : Prop where
  phase : s.phase = .addInstructions
  accepted : (s.acceptedInstructions h).contains i.kind
  clock : h ≠ .shot → i.kind ≠ .static → s.clockBelow h ≠ none

/-- Where one instruction has entered, another of its kind may follow. -/
theorem AdmitsInstruction.again {i j : Instruction} (ha : s.AdmitsInstruction h i) (hk : j.kind = i.kind) :
    (s.withInstruction h i site).AdmitsInstruction h j where
  phase := by
    rw [Shot.phase, calls_withInstruction]
    exact ha.phase
  accepted := by
    rw [acceptedInstructions_withInstruction, hk]
    exact ha.accepted
  clock := by
    rw [clockBelow_withInstruction, hk]
    exact ha.clock

end Shot

namespace Build

/-! ## One check after the other -/

theorem run_check_bind (f : Shot → Except Fault Unit) (x : Unit → Build Unit) :
    (check f >>= x).run s =
      match f s with
      | .ok () => (x ()).run s
      | .error e => .error e s := by
  rw [EStateM.run_bind, check, EStateM.run_bind, EStateM.run_get]
  dsimp only
  cases f s <;> rfl

theorem run_refuse_or {c : Prop} [Decidable c] {e : Fault} {f : Unit → Build Unit} {x : Build Unit} :
    (if c then throw e >>= f else x).run s = if c then .error e s else x.run s := by
  split <;> rfl

/-! ## A device -/

private theorem run_addDevice_eq (d : Device) :
    (addDevice h d site).run s =
      match s.checkPhase h.node .addDevice with
      | .error f => .error f s
      | .ok () =>
        if !(s.acceptedDevices h).contains d.kind then
          .error (.structural
            (.deviceNotAccepted (s.subject h.node) d.kind d.name site (s.acceptedDevices h))) s
        else
          match if h = .shot ∧ d.kind = .pseudoclockDevice then s.master else none with
          | some id =>
            .error (.structural
              (.duplicateMaster (Node.device id).ref (s.nameOf (.device id)) d.name)) s
          | none =>
            if deviceCapacity ≤ s.devices.size then .error (.use .full) s
            else .ok () (s.withDevice h d site) := by
  rw [addDevice, run_check_bind]
  cases s.checkPhase h.node .addDevice with
  | error f => rfl
  | ok _ =>
    dsimp only
    rw [EStateM.run_bind, EStateM.run_get]
    dsimp only
    rw [run_refuse_or]
    refine ite_congr rfl (fun _ => rfl) fun _ => ?_
    by_cases hmaster : h = .shot ∧ d.kind = .pseudoclockDevice
    · simp only [if_pos hmaster, Shot.withDevice]
      cases s.master with
      | some id => rfl
      | none =>
        dsimp only
        rw [run_refuse_or]
        rfl
    · simp only [if_neg hmaster, Shot.withDevice]
      rw [run_refuse_or]
      rfl

theorem run_addDevice {d : Device} (ha : s.AdmitsDevice h d) :
    (addDevice h d site).run s = .ok () (s.withDevice h d site) := by
  have hphase : s.checkPhase h.node .addDevice = .ok () := Shot.checkPhase_eq_ok.mpr ha.phase.symm
  have hmaster : (if h = .shot ∧ d.kind = .pseudoclockDevice then s.master else none) = none := by
    split
    · rename_i hm
      exact ha.master hm.1 hm.2
    · rfl
  rw [run_addDevice_eq, hphase]
  simp [ha.accepted, hmaster, ha.room]

theorem run_addDevice_refused {d : Device} (ha : ¬ s.AdmitsDevice h d) (site : Site) :
    ∃ f, (addDevice h d site).run s = .error f s := by
  rw [run_addDevice_eq]
  split
  · exact ⟨_, rfl⟩
  · rename_i hp
    split
    · exact ⟨_, rfl⟩
    · rename_i hacc
      split
      · exact ⟨_, rfl⟩
      · rename_i hm
        split
        · exact ⟨_, rfl⟩
        · rename_i hfit
          refine absurd ⟨(Shot.checkPhase_eq_ok.mp hp).symm, by simpa using hacc, ?_, by omega⟩ ha
          intro h₁ h₂
          rwa [if_pos ⟨h₁, h₂⟩] at hm

/-! ## An instruction -/

private theorem run_addInstruction_eq (i : Instruction) (more : Nat) :
    (addInstruction h i site more).run s =
      match s.checkPhase h.node .addInstruction with
      | .error f => .error f s
      | .ok () =>
        if !(s.acceptedInstructions h).contains i.kind then
          .error (.structural
            (.instructionNotAccepted (s.subject h.node) i.kind site (s.acceptedInstructions h))) s
        else if h ≠ .shot ∧ s.clockBelow h = none ∧ i.kind ≠ .static then
          .error (.structural (.noClock (s.subject h.node) i.kind site)) s
        else if arenaCapacity ≤ s.instructions.size + more then .error (.use .full) s
        else .ok () (s.withInstruction h i site) := by
  rw [addInstruction, run_check_bind]
  cases s.checkPhase h.node .addInstruction with
  | error f => rfl
  | ok _ =>
    dsimp only
    rw [EStateM.run_bind, EStateM.run_get]
    dsimp only
    rw [run_refuse_or, run_refuse_or, run_refuse_or]
    rfl

theorem run_addInstruction {i : Instruction} (ha : s.AdmitsInstruction h i) (more : Nat) :
    (addInstruction h i site more).run s =
      if arenaCapacity ≤ s.instructions.size + more then .error (.use .full) s
      else .ok () (s.withInstruction h i site) := by
  have hphase : s.checkPhase h.node .addInstruction = .ok () := Shot.checkPhase_eq_ok.mpr ha.phase.symm
  have hclock : ¬ (h ≠ .shot ∧ s.clockBelow h = none ∧ i.kind ≠ .static) := fun hc =>
    ha.clock hc.1 hc.2.2 hc.2.1
  rw [run_addInstruction_eq, hphase]
  simp only [ha.accepted, Bool.not_true, Bool.false_eq_true, if_false, if_neg hclock]

/-- The refusal does not depend on the room that is left. -/
theorem run_addInstruction_refused {i : Instruction} (ha : ¬ s.AdmitsInstruction h i) (site : Site) :
    ∃ f, ∀ more, (addInstruction h i site more).run s = .error f s := by
  simp only [run_addInstruction_eq]
  split
  · exact ⟨_, fun _ => rfl⟩
  · rename_i hp
    split
    · exact ⟨_, fun _ => rfl⟩
    · rename_i hacc
      split
      · exact ⟨_, fun _ => rfl⟩
      · rename_i hclock
        refine absurd ⟨(Shot.checkPhase_eq_ok.mp hp).symm, by simpa using hacc, ?_⟩ ha
        exact fun h₁ h₂ h₃ => hclock ⟨h₁, h₃, h₂⟩

/-! ## A pulse -/

section Pulse

variable {id : Nat} {time : Float}

theorem run_addPulse (ha : s.AdmitsInstruction (.device id) { time, action := .constant 1 })
    (duration : Float) :
    (addPulse id time duration site).run s =
      if arenaCapacity ≤ s.instructions.size + 1 then .error (.use .full) s
      else .ok () ((s.withInstruction (.device id) { time, action := .constant 1 } site).withInstruction
        (.device id) { time := time + duration, action := .constant 0 } site) := by
  have hagain : (s.withInstruction (.device id) { time, action := .constant 1 } site).AdmitsInstruction
      (.device id) { time := time + duration, action := .constant 0 } := ha.again rfl
  rw [addPulse, EStateM.run_bind, run_addInstruction ha]
  by_cases hfull : arenaCapacity ≤ s.instructions.size + 1
  · simp only [if_pos hfull]
  · -- the room for the second value has been asked for with the first
    simp only [if_neg hfull]
    rw [run_addInstruction hagain, Shot.instructions_size_withInstruction, Nat.add_zero,
      if_neg hfull]

/-- A pulse is refused as its first value is. -/
theorem run_addPulse_refused
    (ha : ¬ s.AdmitsInstruction (.device id) { time, action := .constant 1 }) (duration : Float)
    (site : Site) :
    ∃ f, (addPulse id time duration site).run s = .error f s ∧
      (addInstruction (.device id) { time, action := .constant 1 } site 0).run s = .error f s := by
  obtain ⟨f, hf⟩ := run_addInstruction_refused ha site
  refine ⟨f, ?_, hf 0⟩
  rw [addPulse, EStateM.run_bind, hf]

end Pulse

/-! ## The delays of a device -/

theorem run_configure (id : Nat) (change : Device → String → Except UseFault Device) :
    (configure id change).run s =
      match s.checkPhase (.device id) .configure with
      | .error f => .error f s
      | .ok () =>
        match s.device? id with
        | none => .error (.use .noSuchNode) s
        | some d =>
          match change d (s.deviceTitle d) with
          | .error f => .error (.use f) s
          | .ok d' => .ok () (s.setDevice id fun _ => d') := by
  rw [configure, run_check_bind]
  cases s.checkPhase (.device id) .configure with
  | error f => rfl
  | ok _ =>
    dsimp only
    rw [EStateM.run_bind, EStateM.run_get]
    dsimp only
    cases s.device? id with
    | none => rfl
    | some d =>
      dsimp only
      cases change d (s.deviceTitle d) <;> rfl

/-! ## Whatever fails leaves the shot alone -/

/-- A step whose failures leave the shot as it was. -/
def ChecksFirst (x : Build Unit) : Prop := ∀ s f s', x.run s = .error f s' → s' = s

theorem checksFirst_of_run {x : Build Unit}
    (h : ∀ s, (∃ s', x.run s = .ok () s') ∨ ∃ f, x.run s = .error f s) : ChecksFirst x := by
  intro s f s' hrun
  rcases h s with ⟨t, ht⟩ | ⟨g, hg⟩
  · rw [ht] at hrun
    cases hrun
  · rw [hg] at hrun
    cases hrun
    rfl

theorem checksFirst_addDevice (h : Host) (d : Device) (site : Site) :
    ChecksFirst (addDevice h d site) := by
  refine checksFirst_of_run fun s => ?_
  by_cases ha : s.AdmitsDevice h d
  · exact .inl ⟨_, run_addDevice ha⟩
  · exact .inr (run_addDevice_refused ha site)

theorem checksFirst_addInstruction (h : Host) (i : Instruction) (site : Site) (more : Nat) :
    ChecksFirst (addInstruction h i site more) := by
  refine checksFirst_of_run fun s => ?_
  by_cases ha : s.AdmitsInstruction h i
  · rw [run_addInstruction ha]
    split
    · exact .inr ⟨_, rfl⟩
    · exact .inl ⟨_, rfl⟩
  · obtain ⟨f, hf⟩ := run_addInstruction_refused ha site
    exact .inr ⟨f, hf more⟩

/-- Although the first value is written before the second is tried. -/
theorem checksFirst_addPulse (id : Nat) (time duration : Float) (site : Site) :
    ChecksFirst (addPulse id time duration site) := by
  refine checksFirst_of_run fun s => ?_
  by_cases ha : s.AdmitsInstruction (.device id) { time, action := .constant 1 }
  · rw [run_addPulse ha]
    split
    · exact .inr ⟨_, rfl⟩
    · exact .inl ⟨_, rfl⟩
  · obtain ⟨f, hf, -⟩ := run_addPulse_refused ha duration site
    exact .inr ⟨f, hf⟩

theorem checksFirst_configure (id : Nat) (change : Device → String → Except UseFault Device) :
    ChecksFirst (configure id change) := by
  refine checksFirst_of_run fun s => ?_
  rw [run_configure]
  split
  · exact .inr ⟨_, rfl⟩
  · split
    · exact .inr ⟨_, rfl⟩
    · split
      · exact .inr ⟨_, rfl⟩
      · exact .inl ⟨_, rfl⟩

end Build

namespace Shot

/-! ## What went through -/

/-- What adding a device asks for, and what it does. -/
theorem addDevice_eq_ok {d : Device} (ha : (Build.addDevice h d site).run s = .ok () s') :
    s.AdmitsDevice h d ∧ s' = s.withDevice h d site := by
  by_cases hadmits : s.AdmitsDevice h d
  · rw [Build.run_addDevice hadmits] at ha
    cases ha
    exact ⟨hadmits, rfl⟩
  · obtain ⟨f, hf⟩ := Build.run_addDevice_refused hadmits site
    rw [hf] at ha
    cases ha

/-- What adding an instruction asks for, and what it does. -/
theorem addInstruction_eq_ok {i : Instruction} {more : Nat}
    (ha : (Build.addInstruction h i site more).run s = .ok () s') :
    s.AdmitsInstruction h i ∧ s.instructions.size < arenaCapacity ∧ s' = s.withInstruction h i site := by
  by_cases hadmits : s.AdmitsInstruction h i
  · rw [Build.run_addInstruction hadmits] at ha
    split at ha <;> cases ha
    exact ⟨hadmits, by omega, rfl⟩
  · obtain ⟨f, hf⟩ := Build.run_addInstruction_refused hadmits site
    rw [hf] at ha
    cases ha

/-- What configuring a device asks for, and what it does. -/
theorem configure_eq_ok {id : Nat} {change : Device → String → Except UseFault Device}
    (hc : (Build.configure id change).run s = .ok () s') :
    s.phase = .addDevices ∧ ∃ d d', s.device? id = some d ∧ change d (s.deviceTitle d) = .ok d' ∧
      s' = s.setDevice id fun _ => d' := by
  rw [Build.run_configure] at hc
  split at hc
  · cases hc
  · rename_i hp
    split at hc
    · cases hc
    · rename_i d hd
      split at hc
      · cases hc
      · rename_i d' hd'
        cases hc
        exact ⟨(checkPhase_eq_ok.mp hp).symm, d, d', hd, hd', rfl⟩

end Shot

end ShotTiming
