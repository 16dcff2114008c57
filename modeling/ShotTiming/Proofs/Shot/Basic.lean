import ShotTiming.Shot.Build
import ShotTiming.Shot.Tree

/-! # Reading the arenas of a shot after they were written -/
namespace ShotTiming

/-- The part of a device that no operation changes once the device is in the tree, except for the
delays that may be configured. -/
def Device.fixed (d : Device) : Device :=
  { d with
    outputDelay := 0, initialTrigger := 0, instructions := #[], start := 0, latency := 0
    limits := {} }

/-- The part of an instruction that no operation changes. -/
def Instruction.fixed (i : Instruction) : Instruction := { i with converted := false, timing := {} }

namespace Shot

variable {s : Shot} {id : Nat}

theorem device?_eq_some {d : Device} (h : s.device? id = some d) : id < s.devices.size :=
  (Array.getElem?_eq_some_iff.mp h).1

theorem instruction?_eq_some {i : Instruction} (h : s.instruction? id = some i) :
    id < s.instructions.size :=
  (Array.getElem?_eq_some_iff.mp h).1

theorem exists_device (h : id < s.devices.size) : ∃ d, s.device? id = some d :=
  ⟨_, Array.getElem?_eq_getElem h⟩

theorem exists_instruction (h : id < s.instructions.size) : ∃ i, s.instruction? id = some i :=
  ⟨_, Array.getElem?_eq_getElem h⟩

/-! ## Fields of nodes -/

/-- What a device stands directly below. -/
def parent? (s : Shot) (id : Nat) : Option Host := (s.device? id).bind (·.parent)

def kind? (s : Shot) (id : Nat) : Option DeviceKind := (s.device? id).map (·.kind)

/-- What an instruction was given to. -/
def owner? (s : Shot) (id : Nat) : Option Host := (s.instruction? id).bind (·.owner)

def instructionKind? (s : Shot) (id : Nat) : Option InstructionKind :=
  (s.instruction? id).map (·.kind)

theorem lt_of_parent? {h : Host} (hp : s.parent? id = some h) : id < s.devices.size := by
  obtain ⟨d, hd, -⟩ := Option.bind_eq_some_iff.mp hp
  exact device?_eq_some hd

theorem lt_of_owner? {h : Host} (ho : s.owner? id = some h) : id < s.instructions.size := by
  obtain ⟨i, hi, -⟩ := Option.bind_eq_some_iff.mp ho
  exact instruction?_eq_some hi

theorem isPseudoclock_iff : s.isPseudoclock id ↔ s.kind? id = some .pseudoclock := by
  cases h : s.device? id <;> simp [isPseudoclock, kind?, h]

/-! ## Changes of one device -/

@[simp] theorem device?_setDevice (k : Nat) (f : Device → Device) :
    (s.setDevice k f).device? id =
      if id = k then (s.device? id).map f else s.device? id := by
  simp only [setDevice, device?, Array.getElem?_modify, eq_comm (a := k)]

/-- A part of the devices that a change of one of them leaves alone. -/
theorem map_device?_setDevice {α : Type} (part : Device → α) {k : Nat} {f : Device → Device}
    (hf : ∀ d, s.device? k = some d → part (f d) = part d) (id : Nat) :
    ((s.setDevice k f).device? id).map part = (s.device? id).map part := by
  rw [device?_setDevice]
  split
  · rename_i hk
    subst hk
    cases hd : s.device? id with
    | none => rfl
    | some d => simp [hf d hd]
  · rfl

@[simp] theorem devices_size_setDevice (k : Nat) (f : Device → Device) :
    (s.setDevice k f).devices.size = s.devices.size := by simp [setDevice]

@[simp] theorem instructions_setDevice (k : Nat) (f : Device → Device) :
    (s.setDevice k f).instructions = s.instructions := rfl

/-! ## Changes of one instruction -/

@[simp] theorem instruction?_setInstruction (k : Nat) (f : Instruction → Instruction) :
    (s.setInstruction k f).instruction? id =
      if id = k then (s.instruction? id).map f else s.instruction? id := by
  simp only [setInstruction, instruction?, Array.getElem?_modify, eq_comm (a := k)]

/-- Only what a change makes of the instruction itself matters. -/
theorem setInstruction_congr {i : Instruction} {f g : Instruction → Instruction}
    (hi : s.instruction? id = some i) (h : f i = g i) :
    s.setInstruction id f = s.setInstruction id g := by
  have hmodify : s.instructions.modify id f = s.instructions.modify id g := by
    refine Array.ext_getElem? fun k => ?_
    rw [Array.getElem?_modify, Array.getElem?_modify]
    by_cases hk : id = k
    · subst hk
      have : s.instructions[id]? = some i := hi
      simp [this, h]
    · simp [hk]
  rw [setInstruction, setInstruction, hmodify]

@[simp] theorem calls_setInstruction (k : Nat) (f : Instruction → Instruction) :
    (s.setInstruction k f).calls = s.calls := rfl

@[simp] theorem instructionsOf_setInstruction (k : Nat) (f : Instruction → Instruction) (h : Host) :
    (s.setInstruction k f).instructionsOf h = s.instructionsOf h := by cases h <;> rfl

/-! ## New nodes -/

variable {h : Host} {site : Site}

/-- The record of a device that enters a shot. -/
def placedDevice (s : Shot) (h : Host) (d : Device) (site : Site) : Device :=
  { d with
    site, parent := some h
    clock := if d.kind = .pseudoclock then some s.devices.size else s.clockBelow h }

/-- The record of an instruction that enters a shot. -/
def placedInstruction (s : Shot) (h : Host) (i : Instruction) (site : Site) : Instruction :=
  { i with site, owner := some h, clock := s.clockBelow h }

/-- The shot with one more device, the last child of its host. -/
def withDevice (s : Shot) (h : Host) (d : Device) (site : Site) : Shot :=
  let id := s.devices.size
  let master := if h = .shot ∧ d.kind = .pseudoclockDevice then some id else s.master
  { s with devices := s.devices.push (s.placedDevice h d site), master }.listDevice h id

/-- The shot with one more instruction, the last of its owner. -/
def withInstruction (s : Shot) (h : Host) (i : Instruction) (site : Site) : Shot :=
  let id := s.instructions.size
  { s with instructions := s.instructions.push (s.placedInstruction h i site) }.listInstruction h id

theorem device?_withDevice (d : Device) :
    (s.withDevice h d site).device? id =
      ((if id = s.devices.size then some (s.placedDevice h d site) else s.device? id).map fun e =>
        if h = .device id then { e with children := e.children.push s.devices.size } else e) := by
  cases h with
  | shot =>
    simp [withDevice, listDevice, placedDevice, device?, Array.getElem?_push]
  | device p =>
    simp only [withDevice, listDevice, device?_setDevice, placedDevice]
    by_cases hp : id = p
    · subst hp
      simp [device?, Array.getElem?_push]
    · have hp' : p ≠ id := Ne.symm hp
      simp [device?, Array.getElem?_push, hp, hp']

@[simp] theorem instructions_withDevice (d : Device) :
    (s.withDevice h d site).instructions = s.instructions := by
  cases h <;> rfl

@[simp] theorem devices_size_withDevice (d : Device) :
    (s.withDevice h d site).devices.size = s.devices.size + 1 := by
  cases h <;> simp [withDevice, listDevice]

@[simp] theorem calls_withDevice (d : Device) : (s.withDevice h d site).calls = s.calls := by
  cases h <;> rfl

@[simp] theorem master_withDevice (d : Device) :
    (s.withDevice h d site).master =
      if h = .shot ∧ d.kind = .pseudoclockDevice then some s.devices.size else s.master := by
  cases h <;> rfl

@[simp] theorem instructions_withInstruction (i : Instruction) :
    (s.withInstruction h i site).instructions =
      s.instructions.push (s.placedInstruction h i site) := by
  cases h <;> rfl

theorem instruction?_withInstruction (i : Instruction) :
    (s.withInstruction h i site).instruction? id =
      if id = s.instructions.size then some (s.placedInstruction h i site)
      else s.instruction? id := by
  cases h <;>
    simp [withInstruction, listInstruction, placedInstruction, instruction?, setDevice,
      Array.getElem?_push]

theorem device?_withInstruction (i : Instruction) :
    (s.withInstruction h i site).device? id =
      (s.device? id).map fun d =>
        if h = .device id then { d with instructions := d.instructions.push s.instructions.size }
        else d := by
  cases h with
  | shot => simp [withInstruction, listInstruction, device?]
  | device p =>
    simp only [withInstruction, listInstruction, device?_setDevice]
    by_cases hp : id = p
    · subst hp
      simp [device?]
    · have hp' : p ≠ id := Ne.symm hp
      simp [device?, hp, hp']

@[simp] theorem instructions_size_withInstruction (i : Instruction) :
    (s.withInstruction h i site).instructions.size = s.instructions.size + 1 := by
  cases h <;> simp [withInstruction, listInstruction]

@[simp] theorem devices_size_withInstruction (i : Instruction) :
    (s.withInstruction h i site).devices.size = s.devices.size := by
  cases h <;> simp [withInstruction, listInstruction]

@[simp] theorem calls_withInstruction (i : Instruction) :
    (s.withInstruction h i site).calls = s.calls := by
  cases h <;> rfl

@[simp] theorem master_withInstruction (i : Instruction) :
    (s.withInstruction h i site).master = s.master := by
  cases h <;> rfl

@[simp] theorem settings_withInstruction (i : Instruction) :
    (s.withInstruction h i site).settings = s.settings := by
  cases h <;> rfl

/-! ## Lists of hosts after an insertion -/

theorem childrenOf_withDevice (d : Device) (hh : ∀ p, h = .device p → p < s.devices.size)
    (hd : d.children = #[]) (g : Host) :
    (s.withDevice h d site).childrenOf g =
      if g = h then s.childrenOf h ++ [s.devices.size] else s.childrenOf g := by
  cases g with
  | shot => cases h <;> simp [withDevice, listDevice, childrenOf, setDevice]
  | device q =>
    simp only [childrenOf, device?_withDevice]
    by_cases hq : q = s.devices.size
    · have hne : h ≠ .device q := fun e => by have := hh q e; omega
      have hnone : s.device? q = none := by simp [device?, hq]
      simp [hq, hq ▸ hne, hq ▸ hne.symm, placedDevice, hd, hq ▸ hnone]
    · by_cases he : h = .device q
      · subst he
        obtain ⟨e, he⟩ := exists_device (hh q rfl)
        simp [hq, he]
      · simp [hq, he, Ne.symm he]

theorem instructionsOf_withDevice (d : Device) (hd : d.instructions = #[]) (g : Host) :
    (s.withDevice h d site).instructionsOf g = s.instructionsOf g := by
  cases g with
  | shot => cases h <;> rfl
  | device q =>
    simp only [instructionsOf, device?_withDevice]
    by_cases hq : q = s.devices.size
    · have hnone : s.device? q = none := by simp [device?, hq]
      by_cases he : h = .device q <;> simp [hq, hq ▸ he, placedDevice, hd, hq ▸ hnone]
    · by_cases he : h = .device q <;> cases s.device? q <;> simp [hq, he]

@[simp] theorem childrenOf_withInstruction (i : Instruction) (g : Host) :
    (s.withInstruction h i site).childrenOf g = s.childrenOf g := by
  cases g with
  | shot => cases h <;> rfl
  | device q =>
    simp only [childrenOf, device?_withInstruction]
    by_cases he : h = .device q <;> cases s.device? q <;> simp [he]

theorem instructionsOf_withInstruction (i : Instruction)
    (hh : ∀ p, h = .device p → p < s.devices.size) (g : Host) :
    (s.withInstruction h i site).instructionsOf g =
      if g = h then s.instructionsOf h ++ [s.instructions.size] else s.instructionsOf g := by
  cases g with
  | shot => cases h <;> simp [withInstruction, listInstruction, instructionsOf, setDevice]
  | device q =>
    simp only [instructionsOf, device?_withInstruction]
    by_cases he : h = .device q
    · subst he
      obtain ⟨e, he⟩ := exists_device (hh q rfl)
      simp [he]
    · cases s.device? q <;> simp [he, Ne.symm he]

end Shot

end ShotTiming
