import ShotTiming.Proofs.Session
import ShotTiming.Proofs.Shot.History
import ShotTiming.Proofs.Shot.Traversal

/-! # The tree of a reachable shot

Whatever commands led to a shot and whatever its devices accept, its arenas form one tree, and a walk
over the tree finds every node once.
-/
namespace ShotTiming.Shot

variable {s s' : Shot} {raw : Bool}

/-! ## The master -/

/-- The master is the only pseudoclock device directly below the shot. -/
def KnowsMaster (s : Shot) : Prop :=
  ∀ id, s.master = some id ↔ s.kind? id = some .pseudoclockDevice ∧ s.parent? id = some .shot

theorem SameLinks.knowsMaster (h : SameLinks s s') (hs : s.KnowsMaster) : s'.KnowsMaster := by
  intro id
  rw [h.master, h.kind?, h.parent?]
  exact hs id

/-- A second pseudoclock device does not enter directly below the shot. -/
theorem KnowsMaster.withDevice (hs : s.KnowsMaster) {h : Host} {d : Device} {site : Site}
    (hm : h = .shot → d.kind = .pseudoclockDevice → s.master = none) :
    (s.withDevice h d site).KnowsMaster := by
  intro id
  rw [master_withDevice, kind?_withDevice, parent?_withDevice]
  have hnew : s.master ≠ some s.devices.size := by
    intro hsize
    exact absurd (lt_of_parent? ((hs _).mp hsize).2) (Nat.lt_irrefl _)
  by_cases hid : id = s.devices.size
  · by_cases hd : h = .shot ∧ d.kind = .pseudoclockDevice
    · simp [hid, hd]
    · have hold : ¬ (d.kind = .pseudoclockDevice ∧ h = .shot) := fun hc => hd ⟨hc.2, hc.1⟩
      simp [hid, hd, hold, hnew]
  · by_cases hd : h = .shot ∧ d.kind = .pseudoclockDevice
    · have hnone : s.master ≠ some id := by simp [hm hd.1 hd.2]
      have hother : ¬ (s.kind? id = some .pseudoclockDevice ∧ s.parent? id = some .shot) :=
        mt (hs id).mpr hnone
      simp [hid, Ne.symm hid, hd, hother]
    · simp [hid, hd, hs id]

theorem KnowsMaster.withInstruction (hs : s.KnowsMaster) {h : Host} {site : Site} (i : Instruction) :
    (s.withInstruction h i site).KnowsMaster := by
  intro id
  rw [master_withInstruction, kind?_withInstruction, parent?_withInstruction]
  exact hs id

theorem Change.knowsMaster (hc : Change raw s s') (hs : s.KnowsMaster) : s'.KnowsMaster := by
  rcases hc.adds_or_sameLinks with ⟨h, d, site, -, ha, rfl⟩ | ⟨h, i, site, -, ha, -, rfl⟩ | hl
  · exact hs.withDevice ha.master
  · exact hs.withInstruction i
  · exact hl.knowsMaster hs

theorem IsNew.knowsMaster (hs : s.IsNew) : s.KnowsMaster := by
  obtain ⟨name, settings, site, rfl⟩ := hs.eq
  intro id
  simp [kind?, parent?, device?]

theorem Grown.knowsMaster (h : s.Grown raw) : s.KnowsMaster :=
  h.induction (fun _ hs => hs.knowsMaster) fun _ _ _ hc hs => hc.knowsMaster hs

/-! ## The tree and its walks -/

/-- Parents and children, owners and instructions, and the master agree. -/
structure FormsTree (s : Shot) : Prop where
  /-- The reference to a device holds its position in the arena. -/
  position : ∀ id < s.devices.size, (Node.device id).ref.id.toNat = id
  parent : ∀ id < s.devices.size, ∃ h, s.parent? id = some h ∧ h.IsBefore id
  increasing : ∀ h, (s.childrenOf h).Pairwise (· < ·)
  mem_childrenOf : ∀ h id, id ∈ s.childrenOf h ↔ s.parent? id = some h
  count_instructionsOf : ∀ id < s.instructions.size, ∃ o, s.owner? id = some o ∧
    ∀ h, (s.instructionsOf h).count id = if h = o then 1 else 0
  master : s.KnowsMaster

/-- The walks over the tree end, and list every node once and in order. -/
structure ListsTree (s : Shot) : Prop where
  /-- A walk lists the children one after another, each in front of the walk below it. -/
  unfolds : ∀ h, s.descendants h true =
    (s.childrenOf h).flatMap fun id => id :: s.descendants (.device id) true
  devices : (s.descendants .shot true).Perm (List.range s.devices.size)
  parent_first : ∀ id p, s.parent? id = some (.device p) →
    [p, id].Sublist (s.descendants .shot true)
  siblings : ∀ h, (s.childrenOf h).Sublist (s.descendants .shot true)
  instructions : (s.descendantInstructions .shot true).Perm (List.range s.instructions.size)

theorem WellFormed.formsTree (hs : s.WellFormed) (hm : s.KnowsMaster) : s.FormsTree where
  position id hid := by
    have hlt : id < arenaCapacity := Nat.lt_of_lt_of_le hid hs.devices_referable
    rw [Node.ref, UInt32.toNat_ofNat']
    exact Nat.mod_eq_of_lt hlt
  parent := hs.devices.parent
  increasing := hs.devices.increasing
  mem_childrenOf h id := hs.devices.mem_childrenOf
  count_instructionsOf id hid := by
    obtain ⟨o, ho, -⟩ := hs.instructions.owner id hid
    refine ⟨o, ho, fun h => ?_⟩
    have hmem : id ∈ s.instructionsOf h ↔ h = o := by
      rw [hs.instructions.mem_instructionsOf, ho, Option.some_inj, eq_comm]
    simp [(hs.instructions.nodup h).count, hmem]
  master := hm

theorem WellFormed.listsTree (hs : s.WellFormed) : s.ListsTree where
  unfolds := hs.devices.descendants_eq
  devices := hs.devices.descendants_perm
  parent_first id p hp := by
    have hlt : p < s.devices.size :=
      Nat.lt_trans (hs.devices.isBefore hp) (lt_of_parent? hp)
    have hchild : [id].Sublist (s.childrenOf (.device p)) :=
      List.singleton_sublist.mpr (hs.devices.mem_childrenOf.mpr hp)
    exact (hchild.cons_cons p).trans (hs.devices.family_sublist hlt)
  siblings h := by
    cases h with
    | shot => exact hs.devices.children_sublist .shot
    | device p =>
      by_cases hp : p < s.devices.size
      · exact (List.sublist_cons_self p _).trans (hs.devices.family_sublist hp)
      · have hnone : s.device? p = none := by simpa [device?] using hp
        simp [childrenOf, hnone]
  instructions := hs.descendantInstructions_perm

/-- The arenas of a reachable shot form one tree, which the walks enumerate. -/
theorem tree_of_reachable (h : s.Reachable raw) : s.FormsTree ∧ s.ListsTree := by
  have hs := h.grown.wellFormed
  exact ⟨hs.formsTree h.grown.knowsMaster, hs.listsTree⟩

/-- A pseudoclock device below an output that a user lets accept it, a second master that is refused, and
two values that a stop puts in order. -/
private def grafted : List Command := [
  .openShot "bench" {} {},
  .addDevice 0 (.shot 0) { name := "master", equipment := .pseudoclockDevice 0 } {},
  .addDevice 0 (.device 0 0) { name := "clock", equipment := .pseudoclock ⟨1, 0, 10⟩ } {},
  .addDevice 0 (.device 0 1) { name := "line", equipment := .clockLine } {},
  .addDevice 0 (.device 0 2) { name := "card", equipment := .clockableDevice 0 0 } {},
  .addDevice 0 (.device 0 3)
    { name := "a", equipment := .output,
      hooks := { acceptsDevices := some (.ofList [.pseudoclockDevice]) } } {},
  .addDevice 0 (.device 0 4) { name := "slave", equipment := .pseudoclockDevice 0 } {},
  .addDevice 0 (.shot 0) { name := "second", equipment := .pseudoclockDevice 0 } {},
  .start 0,
  .issue (.device 0 4) (.constant 15 1) {},
  .issue (.device 0 4) (.constant 10 1) {},
  .stop 0 50]

theorem formsTree_grafted : ∃ s : Shot, s.Reachable true ∧ s.devices.size = 6 ∧
    s.instructionsOf (.device 4) = [1, 0] ∧ s.master = some 0 ∧ s.FormsTree ∧ s.ListsTree := by
  have hrun : ((Session.script grafted).shot? 0).any fun s => s.devices.size = 6 ∧
      s.instructionsOf (.device 4) = [1, 0] ∧ s.master = some 0 := by decide +kernel
  obtain ⟨s, hs, hp⟩ := (Option.any_eq_true _ _).mp hrun
  obtain ⟨hsize, hlist, hmaster⟩ := of_decide_eq_true hp
  have hr : s.Reachable true := reachable_of_script (by simp) hs
  exact ⟨s, hr, hsize, hlist, hmaster, tree_of_reachable hr⟩

end ShotTiming.Shot
