import ShotTiming.Proofs.Shot.Basic

/-! # The arenas form one tree

The links between the nodes of a shot agree: parents with child lists, owners with instruction lists,
clocks with the pseudoclocks above. Inserting a node keeps it so, and nothing else touches the links.
-/
namespace ShotTiming

/-- A host that stands before a position of the arena of devices. -/
def Host.IsBefore (n : Nat) : Host → Prop
  | .shot => True
  | .device p => p < n

theorem Host.IsBefore.mono {m n : Nat} {h : Host} (hh : h.IsBefore m) (hmn : m ≤ n) : h.IsBefore n := by
  cases h with
  | shot => trivial
  | device p => exact Nat.lt_of_lt_of_le hh hmn

namespace Shot

/-- The child lists are those of the parent links, in order of insertion. -/
structure DevicesLinked (s : Shot) : Prop where
  parent : ∀ id < s.devices.size, ∃ h, s.parent? id = some h ∧ h.IsBefore id
  mem_childrenOf : ∀ {h id}, id ∈ s.childrenOf h ↔ s.parent? id = some h
  increasing : ∀ h, (s.childrenOf h).Pairwise (· < ·)

/-- The instruction lists are those of the owner links, in any order. -/
structure InstructionsLinked (s : Shot) : Prop where
  owner : ∀ id < s.instructions.size, ∃ h, s.owner? id = some h ∧ h.IsBefore s.devices.size
  mem_instructionsOf : ∀ {h id}, id ∈ s.instructionsOf h ↔ s.owner? id = some h
  nodup : ∀ h, (s.instructionsOf h).Nodup

/-- Every node stands where its kind may stand. -/
structure Accepting (s : Shot) : Prop where
  device : ∀ {id k h}, s.kind? id = some k → s.parent? id = some h →
    (s.acceptedDevices h).contains k
  instruction : ∀ {id k h}, s.instructionKind? id = some k → s.owner? id = some h →
    (s.acceptedInstructions h).contains k

structure WellFormed (s : Shot) : Prop where
  devices : s.DevicesLinked
  instructions : s.InstructionsLinked
  accepting : s.Accepting
  devices_fit : s.devices.size ≤ deviceCapacity
  instructions_fit : s.instructions.size ≤ arenaCapacity

variable {s : Shot} {h g : Host} {site : Site} {id : Nat}

/-- A reference can name every device. -/
theorem WellFormed.devices_referable (hs : s.WellFormed) : s.devices.size ≤ arenaCapacity :=
  Nat.le_trans hs.devices_fit (by decide)

theorem wellFormed_empty (name : String) (settings : Settings) (site : Site) :
    ({ name, settings, site } : Shot).WellFormed where
  devices := by
    constructor <;> simp [childrenOf, parent?, device?]
    all_goals intro h; cases h <;> simp
  instructions := by
    constructor <;> simp [instructionsOf, owner?, device?, instruction?]
    all_goals intro h; cases h <;> simp
  accepting := by
    constructor <;> simp [kind?, instructionKind?, device?, instruction?]
  devices_fit := by simp
  instructions_fit := by simp

theorem DevicesLinked.isBefore (hs : s.DevicesLinked) (hp : s.parent? id = some h) :
    h.IsBefore id := by
  obtain ⟨h', hp', hh⟩ := hs.parent id (lt_of_parent? hp)
  cases hp.symm.trans hp'
  exact hh

theorem InstructionsLinked.isBefore (hs : s.InstructionsLinked) (ho : s.owner? id = some h) :
    h.IsBefore s.devices.size := by
  obtain ⟨h', ho', hh⟩ := hs.owner id (lt_of_owner? ho)
  cases ho.symm.trans ho'
  exact hh

theorem InstructionsLinked.mem_own (hs : s.InstructionsLinked) :
    id ∈ s.ownInstructions ↔ s.owner? id = some .shot := by
  rw [← hs.mem_instructionsOf, instructionsOf, Array.mem_toList_iff]

/-- The shot itself takes waits only. -/
theorem WellFormed.isWait_of_own (hs : s.WellFormed) {i : Instruction} (hi : s.instruction? id = some i)
    (ho : i.owner = some .shot) : i.kind = .wait := by
  have hkind : s.instructionKind? id = some i.kind := by simp [instructionKind?, hi]
  have howner : s.owner? id = some .shot := by simp [owner?, hi, ho]
  have hacc : rootInstructions.contains i.kind := hs.accepting.instruction hkind howner
  revert hacc
  cases i.kind <;> decide

/-- A host that accepts anything is there. -/
theorem isBefore_of_accepts {k : DeviceKind} (hk : (s.acceptedDevices h).contains k) :
    h.IsBefore s.devices.size := by
  cases h with
  | shot => trivial
  | device p =>
    cases hp : s.device? p with
    | none => simp [acceptedDevices, hp, KindSet.empty] at hk
    | some d => exact device?_eq_some hp

theorem isBefore_of_takes {k : InstructionKind} (hk : (s.acceptedInstructions h).contains k) :
    h.IsBefore s.devices.size := by
  cases h with
  | shot => trivial
  | device p =>
    cases hp : s.device? p with
    | none => simp [acceptedInstructions, hp, KindSet.empty] at hk
    | some d => exact device?_eq_some hp

/-! ## Reading one field -/

theorem bind_congr_map {α : Type} {o o' : Option Device} {f : Device → Option α}
    (h : o.map f = o'.map f) : o.bind f = o'.bind f := by
  cases o <;> cases o' <;> simp_all

theorem elim_congr_map {α : Type} {o o' : Option Device} {f : Device → α} {a : α}
    (h : o.map f = o'.map f) : o.elim a f = o'.elim a f := by
  cases o <;> cases o' <;> simp_all

/-! ## A new device -/

theorem map_device?_withDevice {α : Type} (f : Device → α) (d : Device)
    (hf : ∀ (e : Device) (cs : Array Nat), f { e with children := cs } = f e) (id : Nat) :
    ((s.withDevice h d site).device? id).map f =
      if id = s.devices.size then some (f (s.placedDevice h d site))
      else (s.device? id).map f := by
  rw [device?_withDevice]
  by_cases he : h = .device id
  · have hfe : f ∘ (fun e : Device => { e with children := e.children.push s.devices.size }) = f :=
      funext fun e => hf e _
    by_cases hid : id = s.devices.size <;> simp [he, hid, hf, hfe]
  · by_cases hid : id = s.devices.size
    · subst hid
      simp [he]
    · simp [he, hid]

private theorem map_device?_withDevice_old {α : Type} (f : Device → α) (d : Device)
    (hf : ∀ (e : Device) (cs : Array Nat), f { e with children := cs } = f e)
    (hid : id < s.devices.size) :
    ((s.withDevice h d site).device? id).map f = (s.device? id).map f := by
  rw [map_device?_withDevice f d hf, if_neg (Nat.ne_of_lt hid)]

theorem parent?_withDevice (d : Device) (id : Nat) :
    (s.withDevice h d site).parent? id =
      if id = s.devices.size then some h else s.parent? id := by
  have hm : ((s.withDevice h d site).device? id).map (·.parent) = _ :=
    map_device?_withDevice (·.parent) d (fun _ _ => rfl) id
  split at hm <;> rename_i hid
  · obtain ⟨e, he, hp⟩ := Option.map_eq_some_iff.mp hm
    rw [if_pos hid, parent?, he]
    exact hp
  · rw [if_neg hid]
    exact bind_congr_map hm

theorem kind?_withDevice (d : Device) (id : Nat) :
    (s.withDevice h d site).kind? id =
      if id = s.devices.size then some d.kind else s.kind? id :=
  map_device?_withDevice _ d (fun _ _ => rfl) id

theorem clockBelow_withDevice (d : Device) (g : Host) :
    (s.withDevice h d site).clockBelow g =
      if g = .device s.devices.size then
        if d.kind = .pseudoclock then some s.devices.size else s.clockBelow h
      else s.clockBelow g := by
  cases g with
  | shot => rfl
  | device q =>
    have hm : ((s.withDevice h d site).device? q).map (·.clock) =
        if q = s.devices.size then some (if d.kind = .pseudoclock then some s.devices.size else s.clockBelow h)
        else (s.device? q).map (·.clock) := map_device?_withDevice _ d (fun _ _ => rfl) q
    by_cases hq : q = s.devices.size
    · rw [if_pos hq] at hm
      obtain ⟨e, he, hclock⟩ := Option.map_eq_some_iff.mp hm
      rw [if_pos (congrArg Host.device hq), clockBelow, he]
      exact hclock
    · rw [if_neg hq] at hm
      rw [if_neg (by simpa using hq)]
      exact bind_congr_map hm

theorem acceptedDevices_withDevice (d : Device) (hg : g.IsBefore s.devices.size) :
    (s.withDevice h d site).acceptedDevices g = s.acceptedDevices g := by
  cases g with
  | shot => rfl
  | device q => exact elim_congr_map (map_device?_withDevice_old _ d (fun _ _ => rfl) hg)

theorem acceptedInstructions_withDevice (d : Device) (hg : g.IsBefore s.devices.size) :
    (s.withDevice h d site).acceptedInstructions g = s.acceptedInstructions g := by
  cases g with
  | shot => rfl
  | device q => exact elim_congr_map (map_device?_withDevice_old _ d (fun _ _ => rfl) hg)

@[simp] theorem owner?_withDevice (d : Device) (id : Nat) :
    (s.withDevice h d site).owner? id = s.owner? id := by
  simp [owner?, instruction?]

@[simp] theorem instructionKind?_withDevice (d : Device) (id : Nat) :
    (s.withDevice h d site).instructionKind? id = s.instructionKind? id := by
  simp [instructionKind?, instruction?]

theorem DevicesLinked.withDevice (hs : s.DevicesLinked) {d : Device}
    (hh : h.IsBefore s.devices.size) (hc : d.children = #[]) :
    (s.withDevice h d site).DevicesLinked := by
  have hh' : ∀ p, h = .device p → p < s.devices.size := fun p hp => by subst hp; exact hh
  constructor
  case parent =>
    intro id hid
    rw [devices_size_withDevice] at hid
    rw [parent?_withDevice]
    split
    · rename_i hid'
      exact ⟨h, rfl, hid' ▸ hh⟩
    · exact hs.parent id (by omega)
  case mem_childrenOf =>
    intro g id
    rw [childrenOf_withDevice d hh' hc, parent?_withDevice]
    by_cases hid : id = s.devices.size
    · have hnot : ∀ g, id ∉ s.childrenOf g := fun g hg => by
        have := lt_of_parent? (hs.mem_childrenOf.mp hg)
        omega
      by_cases hg : g = h
      · simp [hid, hg]
      · simpa [hid, hg, Ne.symm hg] using hid ▸ hnot g
    · by_cases hg : g = h <;> simp [hid, hg, hs.mem_childrenOf]
  case increasing =>
    intro g
    rw [childrenOf_withDevice d hh' hc]
    split
    · refine List.pairwise_append.mpr ⟨hs.increasing h, by simp, fun a ha b hb => ?_⟩
      rw [List.mem_singleton.mp hb]
      exact lt_of_parent? (hs.mem_childrenOf.mp ha)
    · exact hs.increasing g

theorem InstructionsLinked.withDevice (hs : s.InstructionsLinked) {d : Device}
    (hi : d.instructions = #[]) : (s.withDevice h d site).InstructionsLinked := by
  constructor
  case owner =>
    intro id hid
    rw [instructions_withDevice] at hid
    obtain ⟨g, hg, hb⟩ := hs.owner id hid
    exact ⟨g, by rw [owner?_withDevice, hg], hb.mono (by simp)⟩
  case mem_instructionsOf =>
    intro g id
    rw [instructionsOf_withDevice d hi, owner?_withDevice, hs.mem_instructionsOf]
  case nodup =>
    intro g
    rw [instructionsOf_withDevice d hi]
    exact hs.nodup g

private theorem Accepting.withDevice (hs : s.WellFormed) {d : Device}
    (hacc : (s.acceptedDevices h).contains d.kind) : (s.withDevice h d site).Accepting := by
  constructor
  case device =>
    intro id k g hk hp
    rw [kind?_withDevice] at hk
    rw [parent?_withDevice] at hp
    by_cases hid : id = s.devices.size
    · rw [if_pos hid] at hk hp
      cases hk
      cases hp
      rwa [acceptedDevices_withDevice d (isBefore_of_accepts hacc)]
    · rw [if_neg hid] at hk hp
      have hg := (hs.devices.isBefore hp).mono (Nat.le_of_lt (lt_of_parent? hp))
      rw [acceptedDevices_withDevice d hg]
      exact hs.accepting.device hk hp
  case instruction =>
    intro id k g hk ho
    rw [instructionKind?_withDevice] at hk
    rw [owner?_withDevice] at ho
    rw [acceptedInstructions_withDevice d (hs.instructions.isBefore ho)]
    exact hs.accepting.instruction hk ho

/-- A device without lists of its own may enter below a host that accepts it. -/
theorem WellFormed.withDevice (hs : s.WellFormed) {d : Device}
    (hacc : (s.acceptedDevices h).contains d.kind) (hfit : s.devices.size < deviceCapacity)
    (hc : d.children = #[]) (hi : d.instructions = #[]) : (s.withDevice h d site).WellFormed where
  devices := hs.devices.withDevice (isBefore_of_accepts hacc) hc
  instructions := hs.instructions.withDevice hi
  accepting := Accepting.withDevice hs hacc
  devices_fit := by
    rw [devices_size_withDevice]
    exact hfit
  instructions_fit := by
    rw [instructions_withDevice]
    exact hs.instructions_fit

/-! ## A new instruction -/

theorem map_device?_withInstruction {α : Type} (f : Device → α) (i : Instruction)
    (hf : ∀ (e : Device) (is : Array Nat), f { e with instructions := is } = f e) (id : Nat) :
    ((s.withInstruction h i site).device? id).map f = (s.device? id).map f := by
  rw [device?_withInstruction]
  by_cases he : h = .device id
  · have hfe : f ∘ (fun e : Device =>
        { e with instructions := e.instructions.push s.instructions.size }) = f :=
      funext fun e => hf e _
    simp [he, hfe]
  · simp [he]

@[simp] theorem parent?_withInstruction (i : Instruction) (id : Nat) :
    (s.withInstruction h i site).parent? id = s.parent? id :=
  bind_congr_map (map_device?_withInstruction _ i (fun _ _ => rfl) id)

@[simp] theorem kind?_withInstruction (i : Instruction) (id : Nat) :
    (s.withInstruction h i site).kind? id = s.kind? id :=
  map_device?_withInstruction _ i (fun _ _ => rfl) id

@[simp] theorem clockBelow_withInstruction (i : Instruction) (g : Host) :
    (s.withInstruction h i site).clockBelow g = s.clockBelow g := by
  cases g with
  | shot => rfl
  | device q => exact bind_congr_map (map_device?_withInstruction _ i (fun _ _ => rfl) q)

@[simp] theorem acceptedDevices_withInstruction (i : Instruction) (g : Host) :
    (s.withInstruction h i site).acceptedDevices g = s.acceptedDevices g := by
  cases g with
  | shot => rfl
  | device q => exact elim_congr_map (map_device?_withInstruction _ i (fun _ _ => rfl) q)

@[simp] theorem acceptedInstructions_withInstruction (i : Instruction) (g : Host) :
    (s.withInstruction h i site).acceptedInstructions g = s.acceptedInstructions g := by
  cases g with
  | shot => rfl
  | device q => exact elim_congr_map (map_device?_withInstruction _ i (fun _ _ => rfl) q)

theorem owner?_withInstruction (i : Instruction) (id : Nat) :
    (s.withInstruction h i site).owner? id =
      if id = s.instructions.size then some h else s.owner? id := by
  rw [owner?, instruction?_withInstruction]
  split <;> rfl

theorem instructionKind?_withInstruction (i : Instruction) (id : Nat) :
    (s.withInstruction h i site).instructionKind? id =
      if id = s.instructions.size then some i.kind else s.instructionKind? id := by
  rw [instructionKind?, instruction?_withInstruction]
  split <;> rfl

theorem DevicesLinked.withInstruction (hs : s.DevicesLinked) (i : Instruction) :
    (s.withInstruction h i site).DevicesLinked where
  parent := by simpa using hs.parent
  mem_childrenOf := by
    intro g id
    rw [childrenOf_withInstruction, parent?_withInstruction, hs.mem_childrenOf]
  increasing := by simpa using hs.increasing

theorem InstructionsLinked.withInstruction (hs : s.InstructionsLinked)
    (hh : h.IsBefore s.devices.size) (i : Instruction) :
    (s.withInstruction h i site).InstructionsLinked := by
  have hh' : ∀ p, h = .device p → p < s.devices.size := fun p hp => by subst hp; exact hh
  have hnot : ∀ g, s.instructions.size ∉ s.instructionsOf g := fun g hg => by
    have := lt_of_owner? (hs.mem_instructionsOf.mp hg)
    omega
  constructor
  case owner =>
    intro id hid
    rw [instructions_size_withInstruction] at hid
    rw [owner?_withInstruction, devices_size_withInstruction]
    split
    · exact ⟨h, rfl, hh⟩
    · exact hs.owner id (by omega)
  case mem_instructionsOf =>
    intro g id
    rw [instructionsOf_withInstruction i hh', owner?_withInstruction]
    by_cases hid : id = s.instructions.size
    · by_cases hg : g = h
      · simp [hid, hg]
      · simpa [hid, hg, Ne.symm hg] using hnot g
    · by_cases hg : g = h <;> simp [hid, hg, hs.mem_instructionsOf]
  case nodup =>
    intro g
    rw [instructionsOf_withInstruction i hh']
    split
    · refine List.nodup_append.mpr ⟨hs.nodup h, by simp, fun a ha b hb he => ?_⟩
      rw [List.mem_singleton.mp hb] at he
      exact hnot h (he ▸ ha)
    · exact hs.nodup g

private theorem Accepting.withInstruction (hs : s.WellFormed) {i : Instruction}
    (hacc : (s.acceptedInstructions h).contains i.kind) :
    (s.withInstruction h i site).Accepting := by
  constructor
  case device =>
    intro id k g hk hp
    rw [kind?_withInstruction] at hk
    rw [parent?_withInstruction] at hp
    rw [acceptedDevices_withInstruction]
    exact hs.accepting.device hk hp
  case instruction =>
    intro id k g hk ho
    rw [instructionKind?_withInstruction] at hk
    rw [owner?_withInstruction] at ho
    rw [acceptedInstructions_withInstruction]
    by_cases hid : id = s.instructions.size
    · rw [if_pos hid] at hk ho
      cases hk
      cases ho
      exact hacc
    · rw [if_neg hid] at hk ho
      exact hs.accepting.instruction hk ho

/-- An instruction may enter the list of a host that accepts it. -/
theorem WellFormed.withInstruction (hs : s.WellFormed) {i : Instruction}
    (hacc : (s.acceptedInstructions h).contains i.kind) (hfit : s.instructions.size < arenaCapacity) :
    (s.withInstruction h i site).WellFormed where
  devices := hs.devices.withInstruction i
  instructions := hs.instructions.withInstruction (isBefore_of_takes hacc) i
  accepting := Accepting.withInstruction hs hacc
  devices_fit := by
    rw [devices_size_withInstruction]
    exact hs.devices_fit
  instructions_fit := by
    rw [instructions_size_withInstruction]
    exact hfit

/-! ## What leaves the links alone -/

/-- A change that leaves the devices and their links in place; it may give hosts other instructions. -/
structure SameTree (s s' : Shot) : Prop where
  settings : s'.settings = s.settings
  master : s'.master = s.master
  children : s'.children = s.children
  devices : ∀ id, (s'.device? id).map Device.fixed = (s.device? id).map Device.fixed

/-- A change that leaves every link in place; it may put instruction lists in another order. -/
structure SameLinks (s s' : Shot) : Prop extends SameTree s s' where
  instructions : ∀ id,
    (s'.instruction? id).map Instruction.fixed = (s.instruction? id).map Instruction.fixed
  listed : ∀ h, (s'.instructionsOf h).Perm (s.instructionsOf h)

namespace SameTree

variable {s' s'' : Shot}

theorem refl (s : Shot) : SameTree s s := ⟨rfl, rfl, rfl, fun _ => rfl⟩

theorem symm (h : SameTree s s') : SameTree s' s :=
  ⟨h.settings.symm, h.master.symm, h.children.symm, fun id => (h.devices id).symm⟩

theorem trans (h₁ : SameTree s s') (h₂ : SameTree s' s'') : SameTree s s'' :=
  ⟨h₂.settings.trans h₁.settings, h₂.master.trans h₁.master, h₂.children.trans h₁.children,
    fun id => (h₂.devices id).trans (h₁.devices id)⟩

theorem map_device? {α : Type} (hs : SameTree s s') (f : Device → α)
    (hf : ∀ e : Device, f e.fixed = f e) (id : Nat) : (s'.device? id).map f = (s.device? id).map f := by
  have hfe : f ∘ Device.fixed = f := funext hf
  rw [← hfe, ← Option.map_map, ← Option.map_map, hs.devices]

theorem devices_size (hs : SameTree s s') : s'.devices.size = s.devices.size := by
  have hnone : ∀ id, s'.device? id = none ↔ s.device? id = none := fun id => by
    have := hs.devices id
    cases h₁ : s'.device? id <;> cases h₂ : s.device? id <;> simp_all
  simp only [device?, Array.getElem?_eq_none_iff] at hnone
  have h₁ := hnone s'.devices.size
  have h₂ := hnone s.devices.size
  omega

theorem childrenOf (hs : SameTree s s') (h : Host) : s'.childrenOf h = s.childrenOf h := by
  cases h with
  | shot => exact congrArg Array.toList hs.children
  | device q => exact elim_congr_map (hs.map_device? _ (fun _ => rfl) q)

theorem parent? (hs : SameTree s s') (id : Nat) : s'.parent? id = s.parent? id :=
  bind_congr_map (hs.map_device? _ (fun _ => rfl) id)

theorem kind? (hs : SameTree s s') (id : Nat) : s'.kind? id = s.kind? id :=
  hs.map_device? _ (fun _ => rfl) id

theorem clockBelow (hs : SameTree s s') (h : Host) : s'.clockBelow h = s.clockBelow h := by
  cases h with
  | shot => rfl
  | device q => exact bind_congr_map (hs.map_device? (·.clock) (fun _ => rfl) q)

theorem acceptedDevices (hs : SameTree s s') (h : Host) :
    s'.acceptedDevices h = s.acceptedDevices h := by
  cases h with
  | shot => rfl
  | device q => exact elim_congr_map (hs.map_device? _ (fun _ => rfl) q)

theorem acceptedInstructions (hs : SameTree s s') (h : Host) :
    s'.acceptedInstructions h = s.acceptedInstructions h := by
  cases h with
  | shot => rfl
  | device q => exact elim_congr_map (hs.map_device? _ (fun _ => rfl) q)

end SameTree

namespace SameLinks

variable {s' s'' : Shot}

theorem refl (s : Shot) : SameLinks s s := ⟨.refl s, fun _ => rfl, fun _ => .rfl⟩

/-- Fields outside the arenas and the lists do not matter. -/
theorem of_eq (hsettings : s'.settings = s.settings) (hmaster : s'.master = s.master)
    (hchildren : s'.children = s.children) (hdevices : s'.devices = s.devices)
    (hinstructions : s'.instructions = s.instructions)
    (hown : s'.ownInstructions = s.ownInstructions) : SameLinks s s' where
  settings := hsettings
  master := hmaster
  children := hchildren
  devices id := by rw [device?, device?, hdevices]
  instructions id := by rw [instruction?, instruction?, hinstructions]
  listed h := by
    cases h with
    | shot => exact .of_eq (congrArg Array.toList hown)
    | device k => simp only [instructionsOf, device?, hdevices, List.Perm.refl]

theorem trans (h₁ : SameLinks s s') (h₂ : SameLinks s' s'') : SameLinks s s'' :=
  ⟨h₁.toSameTree.trans h₂.toSameTree, fun id => (h₂.instructions id).trans (h₁.instructions id),
    fun h => (h₂.listed h).trans (h₁.listed h)⟩

theorem map_instruction? {α : Type} (hs : SameLinks s s') (f : Instruction → α)
    (hf : ∀ e : Instruction, f e.fixed = f e) (id : Nat) :
    (s'.instruction? id).map f = (s.instruction? id).map f := by
  have hfe : f ∘ Instruction.fixed = f := funext hf
  rw [← hfe, ← Option.map_map, ← Option.map_map, hs.instructions]

theorem instructions_size (hs : SameLinks s s') : s'.instructions.size = s.instructions.size := by
  have hnone : ∀ id, s'.instruction? id = none ↔ s.instruction? id = none := fun id => by
    have := hs.instructions id
    cases h₁ : s'.instruction? id <;> cases h₂ : s.instruction? id <;> simp_all
  simp only [instruction?, Array.getElem?_eq_none_iff] at hnone
  have h₁ := hnone s'.instructions.size
  have h₂ := hnone s.instructions.size
  omega

theorem instructionKind? (hs : SameLinks s s') (id : Nat) :
    s'.instructionKind? id = s.instructionKind? id :=
  hs.map_instruction? _ (fun _ => rfl) id

theorem owner? (hs : SameLinks s s') (id : Nat) : s'.owner? id = s.owner? id := by
  have := hs.map_instruction? (·.owner) (fun _ => rfl) id
  unfold Shot.owner?
  cases h₁ : s'.instruction? id <;> cases h₂ : s.instruction? id <;> simp_all

theorem wellFormed (hs : SameLinks s s') (h : s.WellFormed) : s'.WellFormed where
  devices := by
    constructor
    · simpa only [hs.devices_size, hs.parent?] using h.devices.parent
    · intro g id
      rw [hs.childrenOf, hs.parent?, h.devices.mem_childrenOf]
    · simpa only [hs.childrenOf] using h.devices.increasing
  instructions := by
    constructor
    · simpa only [hs.devices_size, hs.instructions_size, hs.owner?] using h.instructions.owner
    · intro g id
      rw [(hs.listed g).mem_iff, hs.owner?, h.instructions.mem_instructionsOf]
    · exact fun g => (hs.listed g).nodup_iff.mpr (h.instructions.nodup g)
  accepting := by
    constructor
    · intro id k g hk hp
      rw [hs.acceptedDevices]
      exact h.accepting.device (hs.kind? id ▸ hk) (hs.parent? id ▸ hp)
    · intro id k g hk ho
      rw [hs.acceptedInstructions]
      exact h.accepting.instruction (hs.instructionKind? id ▸ hk) (hs.owner? id ▸ ho)
  devices_fit := hs.devices_size ▸ h.devices_fit
  instructions_fit := hs.instructions_size ▸ h.instructions_fit

/-! ## Steps that keep the links -/

theorem setDevice {id : Nat} {f : Device → Device}
    (hf : ∀ d, s.device? id = some d → (f d).fixed = d.fixed)
    (hl : ∀ d, s.device? id = some d → (f d).instructions.toList.Perm d.instructions.toList) :
    SameLinks s (s.setDevice id f) where
  settings := rfl
  master := rfl
  children := rfl
  devices := map_device?_setDevice Device.fixed hf
  instructions k := rfl
  listed h := by
    cases h with
    | shot => exact .rfl
    | device k =>
      simp only [instructionsOf, device?_setDevice]
      split
      · rename_i hk
        subst hk
        cases hd : s.device? k with
        | none => exact .rfl
        | some d => simpa using hl d hd
      · exact .rfl

theorem setInstruction {id : Nat} {f : Instruction → Instruction}
    (hf : ∀ i, s.instruction? id = some i → (f i).fixed = i.fixed) :
    SameLinks s (s.setInstruction id f) where
  settings := rfl
  master := rfl
  children := rfl
  devices k := rfl
  instructions k := by
    rw [instruction?_setInstruction]
    split
    · rename_i hk
      subst hk
      cases hi : s.instruction? k with
      | none => rfl
      | some i => simp [hf i hi]
    · rfl
  listed h := by rw [instructionsOf_setInstruction]

end SameLinks

end Shot
end ShotTiming
