import Mathlib.Data.List.Perm.Basic
import ShotTiming.Proofs.Session
import ShotTiming.Proofs.Shot.History
import ShotTiming.Proofs.Shot.Plain
import ShotTiming.Proofs.Shot.Traversal

/-! # Clock domains

A node takes over the clock of its host as it enters the shot, and a walk stops at pseudoclocks. Both
cut the tree into the same domains, and where devices take what their kinds do, each timed node of a
domain stands below one clock line of its clock. Every instruction takes over the clock that reaches its
owner, also a static value, which has no use for it.
-/
namespace ShotTiming

/-- An instruction of a shot has the clock of its owner, and has one if it needs one. -/
structure Instruction.HasClockIn (i : Instruction) (s : Shot) : Prop where
  inherited : ∀ h, i.owner = some h → i.clock = s.clockBelow h
  needed : ∀ h, i.owner = some h → h ≠ .shot → i.kind ≠ .static → i.clock ≠ none

namespace Shot

variable {s s' : Shot} {h g : Host} {site : Site} {id c p line line' : Nat} {raw : Bool}

/-! ## Clocks are handed down -/

/-- Every node has the clock of its host, but a pseudoclock is its own clock. The values of devices are
those that they were made with. -/
structure Clocked (s : Shot) : Prop where
  device : ∀ {id h}, s.parent? id = some h →
    s.clockBelow (.device id) = if s.kind? id = some .pseudoclock then some id else s.clockBelow h
  instruction : ∀ {id i}, s.instruction? id = some i → i.HasClockIn s
  usable : ∀ {id r}, (s.device? id).map (fun d => d.equipment.check d.name) = some r → r = .ok ()

theorem SameLinks.clocked (h : SameLinks s s') (hs : s.Clocked) : s'.Clocked where
  device := by
    intro id g hp
    rw [h.clockBelow, h.clockBelow, h.kind?]
    exact hs.device (h.parent? id ▸ hp)
  instruction := by
    intro id i' hi'
    have hfixed := h.instructions id
    rw [hi'] at hfixed
    obtain ⟨i, hi, he⟩ := Option.map_eq_some_iff.mp hfixed.symm
    have hown := hs.instruction hi
    have howner : i'.owner = i.owner := (congrArg Instruction.owner he).symm
    have hclock : i'.clock = i.clock := (congrArg Instruction.clock he).symm
    have haction : i'.action = i.action := (congrArg Instruction.action he).symm
    constructor
    · simpa only [howner, hclock, h.clockBelow] using hown.inherited
    · simpa only [howner, hclock, Instruction.kind, haction] using hown.needed
  usable := by
    intro id r hr
    rw [h.map_device? _ fun _ => rfl] at hr
    exact hs.usable hr

theorem Clocked.withDevice (hs : s.Clocked) (hlinked : s.DevicesLinked) {d : Device}
    (hh : h.IsBefore s.devices.size) (hinstr : s.InstructionsLinked)
    (hd : d.equipment.check d.name = .ok ()) : (s.withDevice h d site).Clocked where
  device := by
    intro id g hp
    rw [parent?_withDevice] at hp
    rw [kind?_withDevice, clockBelow_withDevice, clockBelow_withDevice]
    by_cases hid : id = s.devices.size
    · rw [if_pos hid, Option.some_inj] at hp
      subst hp
      have hnew : h ≠ .device s.devices.size := fun he => absurd (he ▸ hh) (Nat.lt_irrefl _)
      simp [hid, hnew]
    · rw [if_neg hid] at hp
      have hold : g ≠ .device s.devices.size := by
        rintro rfl
        have hb : s.devices.size < id := hlinked.isBefore hp
        exact absurd (Nat.lt_trans hb (lt_of_parent? hp)) (Nat.lt_irrefl _)
      rw [if_neg (by simpa using hid), if_neg hid, if_neg hold]
      exact hs.device hp
  instruction := by
    intro id i hi
    have hi : s.instruction? id = some i := by simpa [instruction?] using hi
    refine ⟨fun g ho => ?_, (hs.instruction hi).needed⟩
    have howner : s.owner? id = some g := by simp [owner?, hi, ho]
    have hb : g.IsBefore s.devices.size := hinstr.isBefore howner
    have hold : g ≠ .device s.devices.size := fun he => absurd (he ▸ hb) (Nat.lt_irrefl _)
    rw [clockBelow_withDevice, if_neg hold]
    exact (hs.instruction hi).inherited g ho
  usable := by
    intro id r hr
    rw [map_device?_withDevice _ d fun _ _ => rfl] at hr
    by_cases hid : id = s.devices.size
    · rw [if_pos hid, Option.some_inj] at hr
      exact hr.symm.trans hd
    · rw [if_neg hid] at hr
      exact hs.usable hr

theorem Clocked.withInstruction (hs : s.Clocked) {i : Instruction}
    (hi : h ≠ .shot → i.kind ≠ .static → s.clockBelow h ≠ none) :
    (s.withInstruction h i site).Clocked where
  device := by
    intro id g hp
    rw [parent?_withInstruction] at hp
    rw [kind?_withInstruction, clockBelow_withInstruction, clockBelow_withInstruction]
    exact hs.device hp
  instruction := by
    intro id j hj
    have hclock : ∀ g, (s.withInstruction h i site).clockBelow g = s.clockBelow g :=
      clockBelow_withInstruction i
    rw [instruction?_withInstruction] at hj
    by_cases hid : id = s.instructions.size
    · rw [if_pos hid, Option.some_inj] at hj
      subst hj
      refine ⟨fun g hg => ?_, fun g hg => ?_⟩
      · cases hg
        exact (hclock h).symm
      · cases hg
        exact hi
    · rw [if_neg hid] at hj
      exact ⟨fun g hg => (hclock g).symm ▸ (hs.instruction hj).inherited g hg, (hs.instruction hj).needed⟩
  usable := by
    intro id r hr
    rw [map_device?_withInstruction _ i fun _ _ => rfl] at hr
    exact hs.usable hr

theorem Change.clocked (hc : Change raw s s') (hw : s.WellFormed) (hs : s.Clocked) : s'.Clocked := by
  rcases hc.adds_or_sameLinks with ⟨h, d, site, hd, ha, rfl⟩ | ⟨h, i, site, -, ha, -, rfl⟩ | hl
  · exact hs.withDevice hw.devices (isBefore_of_accepts ha.accepted) hw.instructions hd.usable
  · exact hs.withInstruction ha.clock
  · exact hl.clocked hs

theorem IsNew.clocked (hs : s.IsNew) : s.Clocked := by
  obtain ⟨name, settings, site, rfl⟩ := hs.eq
  constructor <;> simp [parent?, device?, instruction?]

theorem Grown.clocked (h : s.Grown raw) : s.Clocked :=
  h.induction (fun _ hs => hs.clocked) fun _ _ ht hc hs => hc.clocked ht.wellFormed hs

/-! ## The nearest pseudoclock -/

/-- A device and the devices above it, upwards. -/
def lineage (s : Shot) (id : Nat) : List Nat :=
  id :: match s.parent? id with
    | some (.device p) => if p < id then s.lineage p else []
    | _ => []
termination_by id

/-- The clock of a device is the nearest pseudoclock among itself and the devices above it. -/
theorem Clocked.nearest (hs : s.Clocked) (hw : s.DevicesLinked) (hid : id < s.devices.size) :
    s.clockBelow (.device id) = (s.lineage id).find? s.isPseudoclock := by
  induction id using Nat.strongRecOn with
  | ind id ih =>
    obtain ⟨h, hp, hb⟩ := hw.parent id hid
    rw [hs.device hp, lineage, hp, List.find?_cons]
    by_cases hk : s.kind? id = some .pseudoclock
    · rw [if_pos hk, isPseudoclock_iff.mpr hk]
    · rw [if_neg hk, Bool.not_eq_true _ |>.mp (mt isPseudoclock_iff.mp hk)]
      cases h with
      | shot => rfl
      | device p =>
        have hlt : p < id := hb
        simp only [hlt, if_true]
        exact ih p hlt (Nat.lt_trans hlt hid)

/-- The clock of a host is a pseudoclock at or above the host. -/
theorem Clocked.of_clockBelow (hs : s.Clocked) (hw : s.DevicesLinked)
    (hc : s.clockBelow (.device id) = some c) : s.kind? c = some .pseudoclock ∧ c ≤ id := by
  induction id using Nat.strongRecOn with
  | ind id ih =>
    have hid : id < s.devices.size := by
      obtain ⟨d, hd, -⟩ := Option.bind_eq_some_iff.mp hc
      exact device?_eq_some hd
    obtain ⟨h, hp, hb⟩ := hw.parent id hid
    rw [hs.device hp] at hc
    by_cases hk : s.kind? id = some .pseudoclock
    · rw [if_pos hk, Option.some_inj] at hc
      subst hc
      exact ⟨hk, Nat.le_refl id⟩
    · rw [if_neg hk] at hc
      cases h with
      | shot => cases hc
      | device p =>
        have hlt : p < id := hb
        obtain ⟨hkc, hle⟩ := ih p hlt hc
        exact ⟨hkc, Nat.le_trans hle (Nat.le_of_lt hlt)⟩

/-- A timed instruction has the clock of its owner, which is no pseudoclock itself. -/
theorem Clocked.clock_of_timed (hs : s.Clocked) (hw : s.WellFormed) (ht : s.KeepsTables)
    {i : Instruction} (hi : s.instruction? id = some i) (htimed : i.kind.isTimed) :
    ∃ p c, i.owner = some (.device p) ∧ s.kind? p ≠ some .pseudoclock ∧ i.clock = some c ∧
      s.clockBelow (.device p) = some c := by
  obtain ⟨p, k, ho, hk, hcases⟩ := hw.host_of_timed ht hi htimed
  have hstatic : i.kind ≠ .static := by
    intro he
    rw [he] at htimed
    cases htimed
  have hkind : s.kind? p ≠ some .pseudoclock := by
    rcases hcases with rfl | rfl <;> simp [hk]
  obtain ⟨c, hc⟩ := Option.ne_none_iff_exists'.mp ((hs.instruction hi).needed _ ho (by simp) hstatic)
  exact ⟨p, c, ho, hkind, hc, ((hs.instruction hi).inherited _ ho).symm.trans hc⟩

/-! ## Walks that stop at pseudoclocks -/

/-- A pseudoclock below a host is not the clock of the host. -/
theorem Clocked.clockBelow_ne (hs : s.Clocked) (hw : s.DevicesLinked)
    (hid : id ∈ s.descendants h true) : s.clockBelow h ≠ some id := by
  intro hc
  have hb := hw.isBefore_of_mem hid
  cases h with
  | shot => cases hc
  | device p =>
    have hle := (hs.of_clockBelow hw hc).2
    have hlt : p < id := hb
    omega

/-- What a walk meets that stops at pseudoclocks is what has the clock of its host. -/
theorem Clocked.mem_sameClock (hs : s.Clocked) (hw : s.DevicesLinked) :
    id ∈ s.descendants h false ↔
      id ∈ s.descendants h true ∧ s.clockBelow (.device id) = s.clockBelow h := by
  induction id using Nat.strongRecOn with
  | ind id ih =>
    have hstep : ∀ p, s.parent? id = some (.device p) → (p ∈ s.descendants h false ↔
        p ∈ s.descendants h true ∧ s.clockBelow (.device p) = s.clockBelow h) :=
      fun p hp => ih p (hw.isBefore hp)
    rw [hw.mem_sameClock, hw.mem_descendants]
    by_cases hk : s.kind? id = some .pseudoclock
    · refine iff_of_false (fun hc => hc.1 hk) fun ⟨hmem, hc⟩ => ?_
      have hin : id ∈ s.descendants h true := hw.mem_descendants.mpr hmem
      have hlisted := (hw.mem_descendants (h := h)).mp hin
      have hself : s.clockBelow (.device id) = some id := by
        rcases hlisted with hp | ⟨p, -, hp⟩ <;> rw [hs.device hp, if_pos hk]
      exact hs.clockBelow_ne hw hin (hc.symm.trans hself)
    · have hclock : ∀ g, s.parent? id = some g → s.clockBelow (.device id) = s.clockBelow g := by
        intro g hg
        rw [hs.device hg, if_neg hk]
      constructor
      · rintro ⟨-, hp | ⟨p, hmem, hp⟩⟩
        · exact ⟨.inl hp, hclock h hp⟩
        · obtain ⟨hin, hc⟩ := (hstep p hp).mp hmem
          exact ⟨.inr ⟨p, hin, hp⟩, (hclock _ hp).trans hc⟩
      · rintro ⟨hp | ⟨p, hin, hp⟩, hc⟩
        · exact ⟨hk, .inl hp⟩
        · have hmem := (hstep p hp).mpr ⟨hin, (hclock _ hp).symm.trans hc⟩
          exact ⟨hk, .inr ⟨p, hmem, hp⟩⟩

theorem Clocked.descendants_eq_filter (hs : s.Clocked) (hw : s.DevicesLinked) (h : Host) :
    s.descendants h false = (s.descendants h true).filter fun id =>
      s.clockBelow (.device id) = s.clockBelow h := by
  have hnodup : (s.descendants h true).Nodup := hw.nodup_below h
  have hpruned : (s.descendants h false).Sublist (s.descendants h true) := Forest.prune_sublist _ _
  have hfilter := List.filter_sublist (p := fun id => decide (s.clockBelow (.device id) = s.clockBelow h))
    (l := s.descendants h true)
  refine (hnodup.perm_iff_eq_of_sublist hpruned hfilter).mp ?_
  refine (List.perm_ext_iff_of_nodup (hpruned.nodup hnodup) (hfilter.nodup hnodup)).mpr fun id => ?_
  rw [hs.mem_sameClock hw, List.mem_filter, decide_eq_true_iff]

/-! ## One clock line for each timed node -/

theorem SharesClock.eq_of_pseudoclock (h : s.SharesClock line p) (hp : s.kind? p = some .pseudoclock) :
    line = p := by
  cases h with
  | self => rfl
  | step _ _ hk => exact absurd hp hk

/-- Nothing stands below two clock lines without a pseudoclock in between. -/
theorem SharesClock.unique (hw : s.WellFormed) (ht : s.KeepsTables) (h : s.SharesClock line p)
    (h' : s.SharesClock line' p) (hk : s.kind? line = some .clockLine)
    (hk' : s.kind? line' = some .clockLine) : line = line' := by
  -- A clock line stands on its pseudoclock, so the way up from one ends there.
  have hends : ∀ {a b q}, s.kind? a = some .clockLine → s.kind? b = some .clockLine →
      s.SharesClock a q → s.parent? b ≠ some (.device q) := by
    intro a b q ha hb haq hq
    obtain ⟨c, hc, hkc⟩ := hw.parent_of_clockLine ht hb
    cases hq.symm.trans hc
    cases haq.eq_of_pseudoclock hkc
    cases ha.symm.trans hkc
  induction h with
  | self =>
    cases h' with
    | self => rfl
    | step hq hp _ => exact absurd hp (hends hk' hk hq)
  | step hq hp hne ih =>
    cases h' with
    | self => exact absurd hp (hends hk hk' hq)
    | step hq' hp' _ =>
      cases hp.symm.trans hp'
      exact ih hq'

/-- A clock line of a clock that a device stands below, with no pseudoclock in between. -/
structure IsLineOf (s : Shot) (line c p : Nat) : Prop where
  kind : s.kind? line = some .clockLine
  parent : s.parent? line = some (.device c)
  shares : s.SharesClock line p

/-- Every device with a clock but pseudoclocks stands at or below a clock line of its clock. -/
theorem Clocked.exists_line (hs : s.Clocked) (hw : s.WellFormed) (ht : s.KeepsTables)
    (hc : s.clockBelow (.device p) = some c) (hk : s.kind? p ≠ some .pseudoclock) :
    ∃ line, s.IsLineOf line c p := by
  induction p using Nat.strongRecOn with
  | ind p ih =>
    obtain ⟨d, hd, -⟩ := Option.bind_eq_some_iff.mp hc
    have hkind : s.kind? p = some d.kind := by simp [kind?, hd]
    obtain ⟨h, hp, hb⟩ := hw.devices.parent p (device?_eq_some hd)
    rw [hs.device hp, if_neg hk] at hc
    cases h with
    | shot => cases hc
    | device q =>
      by_cases hq : s.kind? q = some .pseudoclock
      · have hline := hw.clockLine_of_parent ht hkind hp hq
        have hqc : q = c := by
          obtain ⟨e, he, -⟩ := Option.bind_eq_some_iff.mp hc
          obtain ⟨g, hg, -⟩ := hw.devices.parent q (device?_eq_some he)
          rw [hs.device hg, if_pos hq] at hc
          exact Option.some_inj.mp hc
        exact ⟨p, hline ▸ hkind, hqc ▸ hp, .self⟩
      · obtain ⟨line, hl⟩ := ih q hb hc hq
        exact ⟨line, hl.kind, hl.parent, .step hl.shares hp hk⟩

/-- The values that a pseudoclock was made with include a positive timebase. -/
theorem Clocked.timebase_pos (hs : s.Clocked) (hk : s.kind? c = some .pseudoclock) :
    0 < s.timebaseOf (some c) := by
  obtain ⟨d, hd, hkind⟩ := Option.map_eq_some_iff.mp hk
  have hmade : (s.device? c).map (fun d => d.equipment.check d.name) =
      some (d.equipment.check d.name) := congrArg _ hd
  have hcheck : d.equipment.check d.name = .ok () := hs.usable hmade
  cases he : d.equipment with
  | pseudoclock source =>
    have htimebase : s.timebaseOf (some c) = source.timebase := by
      simp [timebaseOf, source?, hd, he, Equipment.source?]
    rw [htimebase]
    rw [he] at hcheck
    by_contra hneg
    simp [Equipment.check, hneg, throw, throwThe, MonadExceptOf.throw, bind, Except.bind] at hcheck
  | _ => simp [Device.kind, he, Equipment.kind] at hkind

/-! ## Both together -/

/-- A clock with a grid, and the one clock line whose walk meets what it times. -/
structure ClocksOnce (s : Shot) (c : Nat) (meets : Nat → Prop) (line : Nat) : Prop where
  clock : s.kind? c = some .pseudoclock
  timebase_pos : 0 < s.timebaseOf (some c)
  kind : s.kind? line = some .clockLine
  parent : s.parent? line = some (.device c)
  only : ∀ line', s.kind? line' = some .clockLine → (meets line' ↔ line' = line)

structure HasClockDomains (s : Shot) : Prop where
  nearest : ∀ id < s.devices.size,
    s.clockBelow (.device id) = (s.lineage id).find? s.isPseudoclock
  walks : ∀ h, s.descendants h false = (s.descendants h true).filter fun id =>
    s.clockBelow (.device id) = s.clockBelow h
  timed : ∀ id i, s.instruction? id = some i → i.kind.isTimed → ∃ c line, i.clock = some c ∧
    s.ClocksOnce c (fun l => id ∈ s.descendantInstructions (.device l) false) line
  clockable : ∀ id c, s.kind? id = some .clockableDevice → s.clockBelow (.device id) = some c →
    ∃ line, s.ClocksOnce c (fun l => id ∈ s.descendants (.device l) false) line

theorem Clocked.clocksOnce (hs : s.Clocked) (hw : s.WellFormed) (ht : s.KeepsTables)
    (hl : s.IsLineOf line c p) {meets : Nat → Prop}
    (hm : ∀ l, s.kind? l = some .clockLine → (meets l ↔ s.SharesClock l p)) :
    s.ClocksOnce c meets line := by
  obtain ⟨c', hc', hkc⟩ := hw.parent_of_clockLine ht hl.kind
  cases hl.parent.symm.trans hc'
  refine ⟨hkc, hs.timebase_pos hkc, hl.kind, hl.parent, fun l hk => ?_⟩
  rw [hm l hk]
  constructor
  · exact fun hshare => hshare.unique hw ht hl.shares hk hl.kind
  · rintro rfl
    exact hl.shares

theorem Clocked.hasClockDomains (hs : s.Clocked) (hw : s.WellFormed) (ht : s.KeepsTables) :
    s.HasClockDomains where
  nearest id hid := hs.nearest hw.devices hid
  walks := hs.descendants_eq_filter hw.devices
  timed id i hi htimed := by
    obtain ⟨p, c, ho, hkind, hc, hbelow⟩ := hs.clock_of_timed hw ht hi htimed
    obtain ⟨line, hl⟩ := hs.exists_line hw ht hbelow hkind
    refine ⟨c, line, hc, hs.clocksOnce hw ht hl fun l _ => ?_⟩
    have howner : s.owner? id = some (.device p) := by simp [owner?, hi, ho]
    rw [hw.mem_descendantInstructions]
    constructor
    · rintro ⟨q, hq, hoq⟩
      cases howner.symm.trans hoq
      exact hq
    · exact fun hp => ⟨p, hp, howner⟩
  clockable id c hk hc := by
    obtain ⟨line, hl⟩ := hs.exists_line hw ht hc (by simp [hk])
    refine ⟨line, hs.clocksOnce hw ht hl fun l hkl => ?_⟩
    have hne : id ≠ l := by
      rintro rfl
      cases hk.symm.trans hkl
    rw [← hw.devices.mem_host_or_descendants]
    simp [hne]

/-- The clocks of the devices of a reachable shot and the walks over its tree agree. -/
theorem clockDomains_of_reachable (h : s.Reachable raw) (ht : s.KeepsTables) : s.HasClockDomains :=
  h.grown.clocked.hasClockDomains h.grown.wellFormed ht

/-- A second pseudoclock, which a trigger on a clock line of the first starts. -/
private def cascaded : List Command := [
  .openShot "bench" {} {},
  .addDevice 0 (.shot 0) { name := "master", equipment := .pseudoclockDevice 0 } {},
  .addDevice 0 (.device 0 0) { name := "clock", equipment := .pseudoclock ⟨1, 0, 10⟩ } {},
  .addDevice 0 (.device 0 1) { name := "line", equipment := .clockLine } {},
  .addDevice 0 (.device 0 2) { name := "card", equipment := .clockableDevice 0 0 } {},
  .addDevice 0 (.device 0 3) { name := "trigger", equipment := .trigger } {},
  .addDevice 0 (.device 0 4) { name := "slave", equipment := .pseudoclockDevice 0 } {},
  .addDevice 0 (.device 0 5) { name := "slave clock", equipment := .pseudoclock ⟨2, 0, 10⟩ } {},
  .addDevice 0 (.device 0 6) { name := "slave line", equipment := .clockLine } {},
  .addDevice 0 (.device 0 7) { name := "slave card", equipment := .clockableDevice 0 0 } {},
  .addDevice 0 (.device 0 8) { name := "output", equipment := .output } {},
  .start 0,
  .pulse (.device 0 4) 10 10 {},
  .issue (.device 0 9) (.constant 20 1) {}]

theorem hasClockDomains_cascaded : ∃ s : Shot, s.Reachable true ∧ s.KeepsTables ∧
    s.descendants (.device 2) false = [3, 4, 5] ∧ s.clockBelow (.device 9) = some 6 ∧
    s.descendantInstructions (.device 7) false = [2] ∧ s.HasClockDomains := by
  have hrun : ((Session.script cascaded).shot? 0).any fun s => s.KeepsTables ∧
      s.descendants (.device 2) false = [3, 4, 5] ∧ s.clockBelow (.device 9) = some 6 ∧
      s.descendantInstructions (.device 7) false = [2] := by decide +kernel
  obtain ⟨s, hs, hp⟩ := (Option.any_eq_true _ _).mp hrun
  obtain ⟨ht, hwalk, hclock, hinstructions⟩ := of_decide_eq_true hp
  have hr : s.Reachable true := reachable_of_script (by simp) hs
  exact ⟨s, hr, ht, hwalk, hclock, hinstructions, clockDomains_of_reachable hr ht⟩

/-! ## Which instructions have a clock -/

/-- An instruction stands below a pseudoclock, however far. -/
def IsUnderClock (s : Shot) (i : Instruction) : Prop :=
  ∃ p, i.owner = some (.device p) ∧ ∃ a ∈ s.lineage p, s.isPseudoclock a

/-- Whether an instruction has a clock goes by its kind and by where it stands. A static value takes over
the clock that reaches its output, so it is without one only outside the clock domains. -/
structure TakesClock (s : Shot) (i : Instruction) : Prop where
  wait : i.kind = .wait → i.clock = none
  timed : i.kind.isTimed → ∃ p k c, i.owner = some (.device p) ∧ s.kind? p = some k ∧
    (k = .output ∨ k = .trigger) ∧ s.clockBelow (.device p) = some c ∧ i.clock = some c
  static : i.kind = .static → ∃ p, i.owner = some (.device p) ∧ s.kind? p = some .staticOutput ∧
    i.clock = s.clockBelow (.device p)
  clock_eq_none_iff : i.clock = none ↔ i.kind = .wait ∨ i.kind = .static ∧ ¬ s.IsUnderClock i
  /-- To have no clock is to be a wait or a static value, unless this is a static value below a clock. -/
  clockless_iff : (i.clock = none ↔ i.kind = .wait ∨ i.kind = .static) ↔
    ¬ (i.kind = .static ∧ s.IsUnderClock i)

theorem Clocked.clockBelow_eq_none (hs : s.Clocked) (hw : s.WellFormed) (hp : p < s.devices.size)
    {i : Instruction} (ho : i.owner = some (.device p)) :
    s.clockBelow (.device p) = none ↔ ¬ s.IsUnderClock i := by
  simp [IsUnderClock, hs.nearest hw.devices hp, ho]

theorem Clocked.takesClock (hs : s.Clocked) (hw : s.WellFormed) (ht : s.KeepsTables) {i : Instruction}
    (hi : s.instruction? id = some i) : s.TakesClock i := by
  have hwait : i.kind = .wait → i.clock = none := fun hk =>
    (hs.instruction hi).inherited .shot ((hw.isWait_iff ht hi).mp hk)
  have htimed : i.kind.isTimed → ∃ p k c, i.owner = some (.device p) ∧ s.kind? p = some k ∧
      (k = .output ∨ k = .trigger) ∧ s.clockBelow (.device p) = some c ∧ i.clock = some c := by
    intro hk
    obtain ⟨p, c, ho, -, hc, hbelow⟩ := hs.clock_of_timed hw ht hi hk
    obtain ⟨q, k, hoq, hkq, hcases⟩ := hw.host_of_timed ht hi hk
    cases ho.symm.trans hoq
    exact ⟨p, k, c, ho, hkq, hcases, hbelow, hc⟩
  have hstatic : i.kind = .static → ∃ p, i.owner = some (.device p) ∧
      s.kind? p = some .staticOutput ∧ i.clock = s.clockBelow (.device p) := by
    intro hk
    obtain ⟨p, ho, hkp⟩ := hw.host_of_static ht hi hk
    exact ⟨p, ho, hkp, (hs.instruction hi).inherited _ ho⟩
  have hnone : i.clock = none ↔ i.kind = .wait ∨ i.kind = .static ∧ ¬ s.IsUnderClock i := by
    cases hk : i.kind with
    | wait => simp [hwait hk]
    | static =>
      obtain ⟨p, ho, hkp, hc⟩ := hstatic hk
      obtain ⟨d, hd, -⟩ := Option.map_eq_some_iff.mp hkp
      simp [hc, hs.clockBelow_eq_none hw (device?_eq_some hd) ho]
    | function | constant =>
      obtain ⟨p, k, c, -, -, -, -, hc⟩ := htimed (by rw [hk]; rfl)
      simp [hc]
  refine ⟨hwait, htimed, hstatic, hnone, ?_⟩
  rw [hnone]
  by_cases hu : s.IsUnderClock i <;> cases i.kind <;> simp [hu]

/-- In a reachable shot whose devices take what their kinds do, a wait has no clock, a timed instruction has
that of its output, and a static value has one exactly if a pseudoclock stands above it. -/
theorem takesClock_of_reachable (h : s.Reachable raw) (ht : s.KeepsTables) :
    ∀ id i, s.instruction? id = some i → s.TakesClock i :=
  fun _ _ hi => h.grown.clocked.takesClock h.grown.wellFormed ht hi

/-- A static output on a clocked card and one outside the clock domains. -/
private def pinned : List Command := [
  .openShot "bench" {} {},
  .addDevice 0 (.shot 0) { name := "master", equipment := .pseudoclockDevice 0 } {},
  .addDevice 0 (.device 0 0) { name := "clock", equipment := .pseudoclock ⟨1, 0, 10⟩ } {},
  .addDevice 0 (.device 0 1) { name := "line", equipment := .clockLine } {},
  .addDevice 0 (.device 0 2) { name := "card", equipment := .clockableDevice 0 0 } {},
  .addDevice 0 (.device 0 3) { name := "pinned", equipment := .staticOutput } {},
  .addDevice 0 (.shot 0) { name := "supply", equipment := .staticDevice } {},
  .addDevice 0 (.device 0 5) { name := "fixed", equipment := .staticOutput } {},
  .start 0,
  .issue (.device 0 4) (.static 1) {},
  .issue (.device 0 6) (.static 2) {}]

private theorem exists_pinned : ∃ (s : Shot) (i j : Instruction), s.Reachable false ∧ s.KeepsTables ∧
    s.instruction? 0 = some i ∧ i.kind = .static ∧ i.clock = some 1 ∧
    s.instruction? 1 = some j ∧ j.kind = .static ∧ j.clock = none := by
  have hrun : ((Session.script pinned).shot? 0).any fun s => s.KeepsTables ∧
      (s.instruction? 0).map (fun i => (i.kind, i.clock)) = some (.static, some 1) ∧
      (s.instruction? 1).map (fun i => (i.kind, i.clock)) = some (.static, none) := by decide +kernel
  obtain ⟨s, hs, hp⟩ := (Option.any_eq_true _ _).mp hrun
  obtain ⟨ht, hunder, hout⟩ := of_decide_eq_true hp
  obtain ⟨i, hi, hki⟩ := Option.map_eq_some_iff.mp hunder
  obtain ⟨j, hj, hkj⟩ := Option.map_eq_some_iff.mp hout
  simp only [Prod.mk.injEq] at hki hkj
  exact ⟨s, i, j, reachable_of_script (by decide) hs, ht, hi, hki.1, hki.2, hj, hkj.1, hkj.2⟩

theorem takesClock_of_pinned : ∃ (s : Shot) (i j : Instruction), s.Reachable false ∧ s.KeepsTables ∧
    i.kind = .static ∧ s.IsUnderClock i ∧ s.TakesClock i ∧
    j.kind = .static ∧ ¬ s.IsUnderClock j ∧ s.TakesClock j := by
  obtain ⟨s, i, j, hr, ht, hi, hki, hci, hj, hkj, hcj⟩ := exists_pinned
  have hti := takesClock_of_reachable hr ht 0 i hi
  have htj := takesClock_of_reachable hr ht 1 j hj
  refine ⟨s, i, j, hr, ht, hki, by_contra fun hn => ?_, hti, hkj, ?_, htj⟩
  · rw [hti.clock_eq_none_iff.mpr (.inr ⟨hki, hn⟩)] at hci
    cases hci
  · simpa [hkj] using htj.clock_eq_none_iff.mp hcj

/-- A static value on a clocked card has the clock of the card. -/
theorem not_clockless_of_pinned : ¬ ∀ s : Shot, s.Reachable false → s.KeepsTables →
    ∀ id i, s.instruction? id = some i → (i.clock = none ↔ i.kind = .wait ∨ i.kind = .static) := by
  intro h
  obtain ⟨s, i, -, hr, ht, hi, hk, hc, -⟩ := exists_pinned
  rw [(h s hr ht 0 i hi).mpr (.inr hk)] at hc
  cases hc

end Shot
end ShotTiming
