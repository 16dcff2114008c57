import ShotTiming.Proofs.Forest
import ShotTiming.Proofs.Shot.WellFormed

/-! # Walks over the tree miss nothing and repeat nothing

They list parents in front of their children and siblings in the order of their numbers.
-/
namespace ShotTiming.Shot
open Relation

variable {s : Shot} {h : Host} {id : Nat}

theorem DevicesLinked.climbing (hs : s.DevicesLinked) :
    Forest.Climbing (fun id => s.childrenOf (.device id)) s.devices.size where
  gt hc := hs.isBefore (hs.mem_childrenOf.mp hc)
  lt hc := lt_of_parent? (hs.mem_childrenOf.mp hc)

private theorem DevicesLinked.one_parent (hs : s.DevicesLinked) {g : Host} (hc : id ∈ s.childrenOf h)
    (hc' : id ∈ s.childrenOf g) : h = g :=
  Option.some_inj.mp ((hs.mem_childrenOf.mp hc).symm.trans (hs.mem_childrenOf.mp hc'))

theorem DevicesLinked.roots_fit (hs : s.DevicesLinked) (h : Host) :
    ∀ r ∈ s.childrenOf h, r < s.devices.size ∧ s.devices.size ≤ r + s.devices.size :=
  fun _ hr => ⟨lt_of_parent? (hs.mem_childrenOf.mp hr), by omega⟩

theorem DevicesLinked.mem_below (hs : s.DevicesLinked) :
    id ∈ (s.below h).toList ↔
      ∃ r ∈ s.childrenOf h, Forest.Reaches (fun a => s.childrenOf (.device a)) r id :=
  Forest.mem_plant hs.climbing (hs.roots_fit h)

/-- What is below a host stands on the host, or on something below it. -/
theorem DevicesLinked.mem_descendants (hs : s.DevicesLinked) :
    id ∈ s.descendants h true ↔
      s.parent? id = some h ∨ ∃ p ∈ s.descendants h true, s.parent? id = some (.device p) := by
  simp only [← hs.mem_childrenOf]
  exact Forest.mem_plant_iff hs.climbing (hs.roots_fit h)

theorem DevicesLinked.nodup_below (hs : s.DevicesLinked) (h : Host) : (s.below h).toList.Nodup := by
  refine Forest.nodup_plant hs.climbing ?_ (fun a => (hs.increasing _).imp Nat.ne_of_lt)
    (hs.roots_fit h) ((hs.increasing h).imp Nat.ne_of_lt) ?_
  · intro a b c ha hb
    exact Host.device.inj (hs.one_parent ha hb)
  · intro r hr a ha r' hr'
    have hp := hs.one_parent ha hr
    subst hp
    exact hs.isBefore (hs.mem_childrenOf.mp hr')

theorem DevicesLinked.isBefore_of_mem (hs : s.DevicesLinked) (hid : id ∈ s.descendants h true) :
    h.IsBefore id := by
  induction id using Nat.strongRecOn with
  | ind id ih =>
    rcases hs.mem_descendants.mp hid with hp | ⟨p, hmem, hp⟩
    · exact hs.isBefore hp
    · have hlt : p < id := hs.isBefore hp
      exact (ih p hlt hmem).mono (Nat.le_of_lt hlt)

theorem descendants_sublist (s : Shot) (h : Host) (acrossClocks : Bool) :
    (s.descendants h acrossClocks).Sublist (s.descendants h true) := by
  cases acrossClocks with
  | true => exact .refl _
  | false => exact Forest.prune_sublist _ _

theorem DevicesLinked.nodup_descendants (hs : s.DevicesLinked) (h : Host) (acrossClocks : Bool) :
    (s.descendants h acrossClocks).Nodup := (descendants_sublist s h acrossClocks).nodup (hs.nodup_below h)

/-- Every device is in the tree of the shot. -/
theorem DevicesLinked.mem_below_shot (hs : s.DevicesLinked) :
    id ∈ (s.below .shot).toList ↔ id < s.devices.size := by
  constructor
  · intro hid
    obtain ⟨r, hr, hrid⟩ := hs.mem_below.mp hid
    rcases ReflTransGen.cases_tail hrid with rfl | ⟨p, -, hp⟩
    · exact lt_of_parent? (hs.mem_childrenOf.mp hr)
    · exact lt_of_parent? (hs.mem_childrenOf.mp hp)
  · intro hid
    rw [hs.mem_below]
    induction id using Nat.strongRecOn with
    | ind id ih =>
      obtain ⟨g, hg, hb⟩ := hs.parent id hid
      cases g with
      | shot => exact ⟨id, hs.mem_childrenOf.mpr hg, .refl⟩
      | device p =>
        obtain ⟨r, hr, hrp⟩ := ih p hb (Nat.lt_trans hb hid)
        exact ⟨r, hr, hrp.tail (hs.mem_childrenOf.mpr hg)⟩

theorem DevicesLinked.descendants_perm (hs : s.DevicesLinked) :
    (s.descendants .shot true).Perm (List.range s.devices.size) := by
  refine (List.perm_ext_iff_of_nodup (hs.nodup_below .shot) List.nodup_range).mpr fun id => ?_
  rw [List.mem_range]
  exact hs.mem_below_shot

/-- A walk goes on below every device it meets. -/
theorem DevicesLinked.descendants_eq (hs : s.DevicesLinked) (h : Host) :
    s.descendants h true =
      (s.childrenOf h).flatMap fun id => id :: s.descendants (.device id) true :=
  Forest.toList_plant hs.climbing (hs.roots_fit h)

theorem DevicesLinked.children_sublist (hs : s.DevicesLinked) (h : Host) :
    (s.childrenOf h).Sublist (s.descendants h true) :=
  Forest.roots_sublist hs.climbing (hs.roots_fit h)

/-- Every device is listed in front of what is below it, in the order of its own walk. -/
theorem DevicesLinked.tree_sublist (hs : s.DevicesLinked) (hid : id < s.devices.size) :
    (id :: s.descendants (.device id) true).Sublist (s.descendants .shot true) :=
  Forest.tree_sublist hs.climbing (hs.roots_fit .shot) (hs.mem_below_shot.mpr hid)

/-- Every device is listed in front of its children, and these in order. -/
theorem DevicesLinked.family_sublist (hs : s.DevicesLinked) (hid : id < s.devices.size) :
    (id :: s.childrenOf (.device id)).Sublist (s.descendants .shot true) :=
  Forest.children_sublist hs.climbing (hs.roots_fit .shot) (hs.mem_below_shot.mpr hid)

theorem DevicesLinked.mem_outputs (hs : s.DevicesLinked) :
    id ∈ s.outputs ↔ ∃ k, s.kind? id = some k ∧ k.isOutput := by
  rw [outputs, List.mem_filter, hs.descendants_perm.mem_iff, List.mem_range]
  constructor
  · rintro ⟨-, h⟩
    obtain ⟨d, hd, hk⟩ := (Option.any_eq_true _ _).mp h
    exact ⟨d.kind, by simp [kind?, hd], hk⟩
  · rintro ⟨k, hk, ho⟩
    obtain ⟨d, hd, rfl⟩ := Option.map_eq_some_iff.mp hk
    exact ⟨device?_eq_some hd, by simp [hd, ho]⟩

theorem DevicesLinked.nodup_outputs (hs : s.DevicesLinked) : s.outputs.Nodup :=
  (hs.nodup_below .shot).filter _

/-! ## Instructions -/

/-- A walk meets an instruction once. -/
theorem WellFormed.nodup_descendantInstructions (hs : s.WellFormed) (h : Host) (acrossClocks : Bool) :
    (s.descendantInstructions h acrossClocks).Nodup := by
  have hdis : ∀ {g g' : Host}, g ≠ g' → (s.instructionsOf g).Disjoint (s.instructionsOf g') := by
    intro g g' hne a ha ha'
    have := (hs.instructions.mem_instructionsOf.mp ha).symm.trans
      (hs.instructions.mem_instructionsOf.mp ha')
    exact hne (Option.some_inj.mp this)
  refine List.Nodup.append (hs.instructions.nodup _) ?_ ?_
  · refine List.nodup_flatMap.mpr ⟨fun a _ => hs.instructions.nodup _, ?_⟩
    refine (hs.devices.nodup_descendants h acrossClocks).imp fun {a b} hab => hdis fun he => ?_
    exact hab (Host.device.inj he)
  · intro a ha hb
    obtain ⟨k, hk, hka⟩ := List.mem_flatMap.mp hb
    refine hdis (fun he => ?_) ha hka
    subst he
    exact Nat.lt_irrefl k (hs.devices.isBefore_of_mem ((descendants_sublist s _ acrossClocks).subset hk))

/-- Every instruction is found once in the tree of the shot. -/
theorem WellFormed.descendantInstructions_perm (hs : s.WellFormed) :
    (s.descendantInstructions .shot true).Perm (List.range s.instructions.size) := by
  have hd := hs.devices.descendants_perm
  refine (List.perm_ext_iff_of_nodup (hs.nodup_descendantInstructions .shot true) List.nodup_range).mpr
    fun id => ?_
  rw [descendantInstructions, List.mem_append, List.mem_flatMap, List.mem_range]
  constructor
  · rintro (hid | ⟨k, -, hid⟩) <;>
      exact lt_of_owner? (hs.instructions.mem_instructionsOf.mp hid)
  · intro hid
    obtain ⟨g, hg, hb⟩ := hs.instructions.owner id hid
    cases g with
    | shot => exact .inl (hs.instructions.mem_instructionsOf.mpr hg)
    | device k =>
      refine .inr ⟨k, ?_, hs.instructions.mem_instructionsOf.mpr hg⟩
      exact hd.mem_iff.mpr (List.mem_range.mpr hb)

theorem WellFormed.mem_allInstructions (hs : s.WellFormed) {id : Nat} :
    id ∈ s.descendantInstructions .shot true ↔ id < s.instructions.size :=
  hs.descendantInstructions_perm.mem_iff.trans List.mem_range

/-! ## Clock domains -/

/-- A device at or below another one, without a pseudoclock in between. -/
inductive SharesClock (s : Shot) (host : Nat) : Nat → Prop
  | self : SharesClock s host host
  | step {p id : Nat} : SharesClock s host p → s.parent? id = some (.device p) →
    s.kind? id ≠ some .pseudoclock → SharesClock s host id

theorem SameTree.sharesClock {s' : Shot} (h : SameTree s s') {host : Nat} :
    s'.SharesClock host id ↔ s.SharesClock host id := by
  constructor
  · intro hs
    induction hs with
    | self => exact .self
    | step _ hp hk ih => exact .step ih (h.parent? _ ▸ hp) (h.kind? _ ▸ hk)
  · intro hs
    induction hs with
    | self => exact .self
    | step _ hp hk ih => exact .step ih ((h.parent? _).symm ▸ hp) ((h.kind? _).symm ▸ hk)

/-- A walk that stops at pseudoclocks goes on below what it meets otherwise. -/
theorem DevicesLinked.mem_sameClock (hs : s.DevicesLinked) :
    id ∈ s.descendants h false ↔ s.kind? id ≠ some .pseudoclock ∧
      (s.parent? id = some h ∨ ∃ p ∈ s.descendants h false, s.parent? id = some (.device p)) := by
  have hkept : ∀ {g}, id ∈ (s.childrenOf g).filter (!s.isPseudoclock ·) ↔
      s.kind? id ≠ some .pseudoclock ∧ s.parent? id = some g := by
    intro g
    rw [List.mem_filter, hs.mem_childrenOf, Bool.not_eq_true', ← Bool.not_eq_true,
      isPseudoclock_iff, and_comm]
  have hclimb : Forest.Climbing (fun a => (s.childrenOf (.device a)).filter (!s.isPseudoclock ·))
      s.devices.size :=
    ⟨fun hc => hs.climbing.gt (List.mem_of_mem_filter hc),
      fun hc => hs.climbing.lt (List.mem_of_mem_filter hc)⟩
  have hwalk : s.descendants h false =
      (Forest.plant (fun a => (s.childrenOf (.device a)).filter (!s.isPseudoclock ·)) s.devices.size
        ((s.childrenOf h).filter (!s.isPseudoclock ·))).toList := by
    simp only [descendants, sameClock, below, Forest.prune_plant, Bool.false_eq_true, if_false]
  rw [hwalk, Forest.mem_plant_iff hclimb fun r hr => hs.roots_fit h r (List.mem_of_mem_filter hr)]
  simp only [hkept]
  constructor
  · rintro (⟨hk, hp⟩ | ⟨p, hp, hk, hpar⟩)
    · exact ⟨hk, .inl hp⟩
    · exact ⟨hk, .inr ⟨p, hp, hpar⟩⟩
  · rintro ⟨hk, hp | ⟨p, hp, hpar⟩⟩
    · exact .inl ⟨hk, hp⟩
    · exact .inr ⟨p, hp, hk, hpar⟩

/-- A walk that stops at pseudoclocks finds what shares the clock of its host. -/
theorem DevicesLinked.mem_host_or_descendants (hs : s.DevicesLinked) {host : Nat} :
    (id = host ∨ id ∈ s.descendants (.device host) false) ↔ s.SharesClock host id := by
  constructor
  · induction id using Nat.strongRecOn with
    | ind id ih =>
      rintro (rfl | hid)
      · exact .self
      · obtain ⟨hk, hp | ⟨p, hp, hpar⟩⟩ := hs.mem_sameClock.mp hid
        · exact .step .self hp hk
        · exact .step (ih p (hs.isBefore hpar) (.inr hp)) hpar hk
  · intro hsh
    induction hsh with
    | self => exact .inl rfl
    | step _ hp hk ih =>
      rcases ih with rfl | hwalk
      · exact .inr (hs.mem_sameClock.mpr ⟨hk, .inl hp⟩)
      · exact .inr (hs.mem_sameClock.mpr ⟨hk, .inr ⟨_, hwalk, hp⟩⟩)

theorem WellFormed.mem_descendantInstructions (hs : s.WellFormed) {host : Nat} :
    id ∈ s.descendantInstructions (.device host) false ↔
      ∃ p, s.SharesClock host p ∧ s.owner? id = some (.device p) := by
  rw [descendantInstructions, List.mem_append, List.mem_flatMap]
  simp only [hs.instructions.mem_instructionsOf, ← hs.devices.mem_host_or_descendants]
  constructor
  · rintro (ho | ⟨p, hp, ho⟩)
    · exact ⟨host, .inl rfl, ho⟩
    · exact ⟨p, .inr hp, ho⟩
  · rintro ⟨p, rfl | hp, ho⟩
    · exact .inl ho
    · exact .inr ⟨p, hp, ho⟩

end ShotTiming.Shot
