import ShotTiming.Proofs.Shot.WellFormed

/-! # Shots of plain devices

Where no user has replaced what a device takes, an instruction tells what it stands on: a wait on the
shot itself, a ramp on an output, a constant on an output or a trigger, a static value on a static
output. Clock lines stand on pseudoclocks, which carry nothing else.
-/
namespace ShotTiming

/-- A device as the library has it, without a hook. -/
def Device.IsPlain (d : Device) : Prop :=
  d.hooks.limits = .standard ∧ d.hooks.attributes = .standard ∧ d.hooks.check = .standard ∧
    d.hooks.childDelays = [] ∧ d.hooks.acceptsDevices.isNone ∧ d.hooks.acceptsInstructions.isNone

instance (d : Device) : Decidable d.IsPlain := inferInstanceAs (Decidable (_ ∧ _))

/-- A device that takes what its kind does. -/
def Device.KeepsTables (d : Device) : Prop :=
  d.hooks.acceptsDevices.isNone ∧ d.hooks.acceptsInstructions.isNone

instance (d : Device) : Decidable d.KeepsTables := inferInstanceAs (Decidable (_ ∧ _))

theorem Device.IsPlain.keepsTables {d : Device} (h : d.IsPlain) : d.KeepsTables := by
  obtain ⟨-, -, -, -, hd, hi⟩ := h
  exact ⟨hd, hi⟩

theorem Device.KeepsTables.acceptedDevices {d : Device} (h : d.KeepsTables) :
    d.acceptedDevices = d.kind.acceptedDevices := by
  simp [Device.acceptedDevices, Option.isNone_iff_eq_none.mp h.1]

theorem Device.KeepsTables.acceptedInstructions {d : Device} (h : d.KeepsTables) :
    d.acceptedInstructions = d.kind.acceptedInstructions := by
  simp [Device.acceptedInstructions, Option.isNone_iff_eq_none.mp h.2]

namespace Shot

/-- A shot of plain devices. -/
def IsPlain (s : Shot) : Prop := ∀ d ∈ s.devices.toList, d.IsPlain

instance (s : Shot) : Decidable s.IsPlain := inferInstanceAs (Decidable (∀ d ∈ s.devices.toList, _))

/-- A shot whose devices take what their kinds do, whatever else was replaced. -/
def KeepsTables (s : Shot) : Prop := ∀ d ∈ s.devices.toList, d.KeepsTables

instance (s : Shot) : Decidable s.KeepsTables :=
  inferInstanceAs (Decidable (∀ d ∈ s.devices.toList, _))

variable {s : Shot} {id : Nat} {i : Instruction}

theorem IsPlain.keepsTables (hp : s.IsPlain) : s.KeepsTables := fun d hd => (hp d hd).keepsTables

theorem KeepsTables.device (hs : s.KeepsTables) {d : Device} (hd : s.device? id = some d) :
    d.KeepsTables := by
  obtain ⟨hlt, rfl⟩ := Array.getElem?_eq_some_iff.mp hd
  exact hs _ (by simp)

theorem IsPlain.device (hp : s.IsPlain) {d : Device} (hd : s.device? id = some d) : d.IsPlain := by
  obtain ⟨hlt, rfl⟩ := Array.getElem?_eq_some_iff.mp hd
  exact hp _ (by simp)

/-- The devices of another state of the tree have the same hooks. -/
theorem SameTree.exists_hooks {s' : Shot} (h : SameTree s s') {d : Device} (hd : d ∈ s'.devices.toList) :
    ∃ e ∈ s.devices.toList, e.hooks = d.hooks := by
  obtain ⟨id, hid⟩ := List.mem_iff_getElem?.mp hd
  have hd' : s'.device? id = some d := by simpa [device?] using hid
  have hmap := h.map_device? (·.hooks) (fun _ => rfl) id
  rw [hd'] at hmap
  obtain ⟨e, he, hooks⟩ := Option.map_eq_some_iff.mp hmap.symm
  exact ⟨e, List.mem_iff_getElem?.mpr ⟨id, by simpa [device?] using he⟩, hooks⟩

theorem SameTree.isPlain {s' : Shot} (h : SameTree s s') (hp : s.IsPlain) : s'.IsPlain := by
  intro d hd
  obtain ⟨e, he, hooks⟩ := h.exists_hooks hd
  have hpe := hp e he
  unfold Device.IsPlain at hpe ⊢
  rwa [hooks] at hpe

theorem SameTree.keepsTables {s' : Shot} (h : SameTree s s') (hp : s.KeepsTables) : s'.KeepsTables := by
  intro d hd
  obtain ⟨e, he, hooks⟩ := h.exists_hooks hd
  have hpe := hp e he
  unfold Device.KeepsTables at hpe ⊢
  rwa [hooks] at hpe

/-- The kind of the host of a device. -/
theorem WellFormed.parent_cases (hs : s.WellFormed) (hp : s.KeepsTables) {k : DeviceKind} {h : Host}
    (hk : s.kind? id = some k) (hpar : s.parent? id = some h) :
    (h = .shot ∧ rootDevices.contains k) ∨
      ∃ p l, h = .device p ∧ s.kind? p = some l ∧ l.acceptedDevices.contains k := by
  have hacc := hs.accepting.device hk hpar
  cases h with
  | shot => exact .inl ⟨rfl, hacc⟩
  | device p =>
    have hlt := Nat.lt_trans (hs.devices.isBefore hpar) (lt_of_parent? hpar)
    obtain ⟨d, hd⟩ := exists_device hlt
    refine .inr ⟨p, d.kind, rfl, by simp [kind?, hd], ?_⟩
    rw [← (hp.device hd).acceptedDevices]
    simpa [acceptedDevices, hd] using hacc

/-- Clock lines stand on pseudoclocks. -/
theorem WellFormed.parent_of_clockLine (hs : s.WellFormed) (hp : s.KeepsTables)
    (hk : s.kind? id = some .clockLine) :
    ∃ c, s.parent? id = some (.device c) ∧ s.kind? c = some .pseudoclock := by
  obtain ⟨d, hd, -⟩ := Option.map_eq_some_iff.mp hk
  obtain ⟨h, hpar, -⟩ := hs.devices.parent id (device?_eq_some hd)
  rcases hs.parent_cases hp hk hpar with ⟨-, hroot⟩ | ⟨c, l, rfl, hl, hacc⟩
  · exact absurd hroot (by decide)
  · refine ⟨c, hpar, hl.trans (congrArg some ?_)⟩
    revert hacc
    cases l <;> decide

/-- Pseudoclocks carry clock lines only. -/
theorem WellFormed.clockLine_of_parent (hs : s.WellFormed) (hp : s.KeepsTables) {k : DeviceKind} {c : Nat}
    (hk : s.kind? id = some k) (hpar : s.parent? id = some (.device c))
    (hc : s.kind? c = some .pseudoclock) : k = .clockLine := by
  rcases hs.parent_cases hp hk hpar with ⟨h, -⟩ | ⟨q, l, he, hl, hacc⟩
  · cases h
  · cases he
    cases hc.symm.trans hl
    revert hacc
    cases k <;> decide

/-- The kind of the host of an instruction. -/
theorem WellFormed.owner_cases (hs : s.WellFormed) (hp : s.KeepsTables)
    (hi : s.instruction? id = some i) :
    (i.owner = some .shot ∧ i.kind = .wait) ∨
      ∃ p k, i.owner = some (.device p) ∧ s.kind? p = some k ∧ k.acceptedInstructions.contains i.kind := by
  have hkind : s.instructionKind? id = some i.kind := by simp [instructionKind?, hi]
  have howner : s.owner? id = i.owner := by simp [owner?, hi]
  obtain ⟨h, ho, hb⟩ := hs.instructions.owner id (instruction?_eq_some hi)
  have hacc := hs.accepting.instruction hkind ho
  rw [howner] at ho
  cases h with
  | shot => exact .inl ⟨ho, hs.isWait_of_own hi ho⟩
  | device p =>
    obtain ⟨d, hd⟩ := exists_device hb
    refine .inr ⟨p, d.kind, ho, by simp [kind?, hd], ?_⟩
    rw [← (hp.device hd).acceptedInstructions]
    simpa [acceptedInstructions, hd] using hacc

/-- The shot's own instructions are its waits. -/
theorem WellFormed.isWait_iff (hs : s.WellFormed) (hp : s.KeepsTables)
    (hi : s.instruction? id = some i) : i.kind = .wait ↔ i.owner = some .shot := by
  rcases hs.owner_cases hp hi with ⟨ho, hk⟩ | ⟨p, k, ho, -, hacc⟩
  · exact iff_of_true hk ho
  · refine iff_of_false (fun hw => ?_) (by simp [ho])
    rw [hw] at hacc
    revert hacc
    cases k <;> decide

/-- Timed instructions stand on outputs and triggers. -/
theorem WellFormed.host_of_timed (hs : s.WellFormed) (hp : s.KeepsTables)
    (hi : s.instruction? id = some i) (ht : i.kind.isTimed) :
    ∃ p k, i.owner = some (.device p) ∧ s.kind? p = some k ∧ (k = .output ∨ k = .trigger) := by
  rcases hs.owner_cases hp hi with ⟨-, hk⟩ | ⟨p, k, ho, hpk, hacc⟩
  · rw [hk] at ht
    cases ht
  · refine ⟨p, k, ho, hpk, ?_⟩
    revert ht hacc
    cases i.kind <;> cases k <;> decide

/-- What stands on a trigger is constant. -/
theorem WellFormed.isConstant_of_trigger (hs : s.WellFormed) (hp : s.KeepsTables)
    (hi : s.instruction? id = some i) {p : Nat} (ho : i.owner = some (.device p))
    (hk : s.kind? p = some .trigger) : i.kind = .constant := by
  rcases hs.owner_cases hp hi with ⟨ho', -⟩ | ⟨q, k, ho', hq, hacc⟩
  · rw [ho] at ho'
    cases ho'
  · rw [ho] at ho'
    cases ho'
    rw [hk] at hq
    cases hq
    revert hacc
    cases i.kind <;> decide

/-- Static values stand on static outputs. -/
theorem WellFormed.host_of_static (hs : s.WellFormed) (hp : s.KeepsTables)
    (hi : s.instruction? id = some i) (hk : i.kind = .static) :
    ∃ p, i.owner = some (.device p) ∧ s.kind? p = some .staticOutput := by
  rcases hs.owner_cases hp hi with ⟨-, hw⟩ | ⟨p, k, ho, hpk, hacc⟩
  · rw [hk] at hw
    cases hw
  · refine ⟨p, ho, hpk.trans (congrArg some ?_)⟩
    rw [hk] at hacc
    revert hacc
    cases k <;> decide

end Shot
end ShotTiming
