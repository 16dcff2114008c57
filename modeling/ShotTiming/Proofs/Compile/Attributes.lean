import ShotTiming.Proofs.Compile.Peak
import ShotTiming.Proofs.Compile.Walk
import ShotTiming.Proofs.Session.Frozen
import ShotTiming.Proofs.Shot.Placed

/-! # Delays add up from the shot down

The pass comes to a device after its parent and before its children, so that every device is given what it
has from the final values of its parent.
-/
namespace ShotTiming
open Number

/-- When a device starts that a time is handed down to; a pseudoclock device adds its own trigger time. -/
def Device.startFrom (d : Device) (time : Float) : Float :=
  if d.kind = .pseudoclockDevice then time + d.initialTrigger else time

/-- All of a device but its attributes. -/
def Device.withoutAttributes (d : Device) : Device := { d with start := 0, latency := 0 }

namespace Shot

/-- A device starts, and lags, by the delay of its parent more than the parent does. -/
inductive HandsDown (s : Shot) (d : Device) : Prop
  | root (parent : d.parent = some .shot) (start : d.start = d.startFrom 0) (latency : d.latency = 0)
  | below {p : Nat} {e : Device} (parent : d.parent = some (.device p)) (host : s.device? p = some e)
    (start : d.start = d.startFrom (e.start + e.delayTo d))
    (latency : d.latency = e.latency + e.delayTo d)

/-- The longest time that a pseudoclock needs after a wait, and at least 0. -/
structure IsLongestWait (s : Shot) (x : Float) : Prop where
  nonneg : 0 ≤ x
  bound : ∀ id c, s.source? (some id) = some c → c.minimumWait ≤ x
  attained : x = 0 ∨ ∃ id c, s.source? (some id) = some c ∧ x = c.minimumWait

/-- What the pass makes of a tree. -/
structure AddsDelays (s t : Shot) : Prop where
  devices : ∀ id d, t.device? id = some d → t.HandsDown d
  waitDelay : t.IsLongestWait t.waitDelay
  limits : SameOn (·.limits) s t
  others : SameOn Device.withoutAttributes s t

variable {s t : Shot} {id k : Nat} {d : Device}

/-- The shot with the attributes of one device made anew. -/
def attributed (id : Nat) (s : Shot) : Shot :=
  (s.device? id).elim s fun d => s.setDevice id fun e =>
    { e with start := (s.startAndLatency d).1, latency := (s.startAndLatency d).2 }

theorem sameOn_attributed (id : Nat) (s : Shot) :
    SameOn Device.withoutAttributes s (attributed id s) := by
  rw [attributed]
  cases s.device? id with
  | none => exact .refl s
  | some d => exact .setDevice fun _ _ => rfl

theorem sameTree_attributed (id : Nat) (s : Shot) : SameTree s (attributed id s) := by
  rw [attributed]
  cases hd : s.device? id with
  | none => exact .refl s
  | some d =>
    have hlinks : SameLinks s (s.setDevice id fun e =>
        { e with start := (s.startAndLatency d).1, latency := (s.startAndLatency d).2 }) :=
      .setDevice (fun _ _ => rfl) fun _ _ => .rfl
    exact hlinks.toSameTree

theorem waitDelay_attributed (id : Nat) (s : Shot) : (attributed id s).waitDelay = s.waitDelay := by
  rw [attributed]
  cases s.device? id <;> rfl

theorem makes_attributes : attributesPass.Makes attributed fun _ s => s where
  before_eq _ := rfl
  after_eq _ := rfl
  sameTree_before := sameTree_attributed
  sameTree_after _ := .refl
  uncalled_before id s := by
    have hd : s.uncalled.device? id = s.device? id := rfl
    rw [attributed, attributed, hd]
    cases s.device? id <;> rfl
  uncalled_after _ _ := rfl

theorem startAndLatency_root (h : d.parent = some .shot) :
    s.startAndLatency d = (d.startFrom 0, 0) := by
  unfold startAndLatency Device.startFrom
  rw [h]
  cases he : d.equipment <;> simp [Device.kind, he, Equipment.kind]

theorem startAndLatency_below {p : Nat} {e : Device} (h : d.parent = some (.device p))
    (hp : s.device? p = some e) :
    s.startAndLatency d = (d.startFrom (e.start + e.delayTo d), e.latency + e.delayTo d) := by
  unfold startAndLatency Device.startFrom
  rw [h, Option.bind_some]
  simp only [hp]
  cases he : d.equipment <;> simp [Device.kind, he, Equipment.kind]

theorem device?_attributed (k : Nat) : (attributed k s).device? id =
    if id = k then (s.device? id).map fun d =>
      { d with start := (s.startAndLatency d).1, latency := (s.startAndLatency d).2 }
    else s.device? id := by
  rw [attributed]
  cases hk : s.device? k with
  | none =>
    split
    · rename_i h
      rw [Option.elim_none, h, hk, Option.map_none]
    · rfl
  | some e =>
    rw [Option.elim_some, device?_setDevice]
    split
    · rename_i h
      rw [h, hk, Option.map_some, Option.map_some]
    · rfl

/-- Its own turn hands down to a device what it is to have. -/
theorem handsDown_attributed (hs : s.DevicesLinked) (hd : (attributed id s).device? id = some d) :
    (attributed id s).HandsDown d := by
  rw [device?_attributed, if_pos rfl] at hd
  obtain ⟨d, hold, rfl⟩ := Option.map_eq_some_iff.mp hd
  obtain ⟨host, hp, hb⟩ := hs.parent id (device?_eq_some hold)
  have hparent : d.parent = some host := by simpa [parent?, hold] using hp
  cases host with
  | shot =>
    have hgiven := startAndLatency_root (s := s) hparent
    exact .root hparent (congrArg Prod.fst hgiven) (congrArg Prod.snd hgiven)
  | device p =>
    have hlt : p < id := hb
    obtain ⟨e, he⟩ := exists_device (Nat.lt_trans hlt (device?_eq_some hold))
    have hgiven := startAndLatency_below hparent he
    refine .below hparent ?_ (congrArg Prod.fst hgiven) (congrArg Prod.snd hgiven)
    rw [device?_attributed, if_neg (Nat.ne_of_lt hlt), he]

/-- The turn of another device that is not its parent takes nothing back. -/
theorem HandsDown.attributed (h : s.HandsDown d) (hk : d.parent ≠ some (.device k)) :
    (attributed k s).HandsDown d := by
  cases h with
  | root parent start latency => exact .root parent start latency
  | @below p e parent host start latency =>
    have hne : p ≠ k := fun he => hk (he ▸ parent)
    exact .below parent (by rw [device?_attributed, if_neg hne, host]) start latency

/-- After a walk that comes to parents first, every device has what is handed down to it. -/
theorem handsDown_foldl (hs : s.DevicesLinked) {t : Shot}
    (ht : t = (s.descendants .shot true).foldl (fun s id => Shot.attributed id s) s)
    (hd : t.device? id = some d) : t.HandsDown d := by
  have hlater : (s.descendants .shot true).Pairwise fun id k => ∀ t, SameTree s t →
      (∀ d, t.device? id = some d → t.HandsDown d) →
        ∀ d, (Shot.attributed k t).device? id = some d → (Shot.attributed k t).HandsDown d := by
    refine (hs.parents_first.and (hs.nodup_descendants .shot true)).imp ?_
    rintro id k ⟨hparent, hne⟩ t htree hold d hd
    rw [device?_attributed, if_neg hne] at hd
    refine (hold d hd).attributed fun he => hparent ?_
    rw [← htree.parent?, parent?, hd]
    exact he
  obtain ⟨htree, hall⟩ := settled_foldl (SameTree s)
    (fun id t => ∀ d, t.device? id = some d → t.HandsDown d)
    (fun id h => h.trans (sameTree_attributed id _))
    (fun id h _ hd => handsDown_attributed (h.devicesLinked hs) hd) hlater (SameTree.refl s)
  rw [← ht] at htree hall
  refine hall id (hs.mem_below_shot.mpr ?_) d hd
  exact htree.devices_size ▸ device?_eq_some hd

/-! ## The delay of a wait -/

/-- How long the clock of a pseudoclock needs after a wait. -/
def wait? (s : Shot) (id : Nat) : Option Float := (s.source? (some id)).map (·.minimumWait)

theorem longestWait_eq : s.longestWait = (Peak.over ⟨0, none⟩
    ((s.descendants .shot true).filterMap fun id => (s.wait? id).map fun x => (id, x))).value := by
  have hfold : ∀ (ids : List Nat) (p : Peak), ids.foldl (fun x id =>
      ((s.device? id).bind (·.equipment.source?)).elim x fun c =>
        if x < c.minimumWait then c.minimumWait else x) p.value =
      (p.over (ids.filterMap fun id => (s.wait? id).map fun x => (id, x))).value := by
    intro ids
    induction ids with
    | nil => exact fun _ => rfl
    | cons id ids ih =>
      intro p
      rw [List.foldl_cons, List.filterMap_cons, wait?, source?, Option.bind_some]
      cases (s.device? id).bind (·.equipment.source?) with
      | none => exact ih p
      | some c =>
        have hstep : (if p.value < c.minimumWait then c.minimumWait else p.value) =
            (if p.value < c.minimumWait then ⟨c.minimumWait, some id⟩ else p : Peak).value := by
          split <;> rfl
        rw [Option.elim_some, hstep, ih]
        rfl
  exact hfold _ ⟨0, none⟩

theorem Clocked.isLongestWait (hs : s.Clocked) (hw : s.DevicesLinked) :
    s.IsLongestWait s.longestWait := by
  have hsource : ∀ {id c}, s.source? (some id) = some c → id < s.devices.size ∧ 0 ≤ c.minimumWait := by
    intro id c hc
    obtain ⟨d, hd, hc⟩ := Option.bind_eq_some_iff.mp (by simpa [source?] using hc)
    exact ⟨device?_eq_some hd, ((hs.usable_equipment hd).source c hc).2⟩
  have hzero : (0 : Float) ≤ 0 := by decide
  have hstart : ¬ (⟨0, none⟩ : Peak).value.isNaN := Double.not_isNaN_of_le hzero
  have hpeak := Peak.tops_over s.wait? (s.descendants .shot true) hstart fun id _ x hx => by
      obtain ⟨c, hc, rfl⟩ := Option.map_eq_some_iff.mp hx
      exact Double.not_isNaN_of_ge (hsource hc).2
  rw [longestWait_eq]
  constructor
  · exact hpeak.nonneg hzero
  · intro id c hc
    have hmem := hw.mem_below_shot.mpr (hsource hc).1
    exact hpeak.bound hmem (by rw [wait?, hc, Option.map_some])
  · rcases hpeak.attained with h | ⟨-, id, -, h⟩
    · exact .inl (congrArg Peak.value h)
    · obtain ⟨c, hc, he⟩ := Option.map_eq_some_iff.mp h
      exact .inr ⟨id, c, hc, he.symm⟩

/-! ## The pass over the whole tree -/

theorem IsLongestWait.of_sameTree (h : SameTree s t) {x : Float} (hx : s.IsLongestWait x) :
    t.IsLongestWait x := by
  obtain ⟨hnonneg, hbound, hattained⟩ := hx
  constructor
  · exact hnonneg
  · simpa only [h.source?] using hbound
  · simpa only [h.source?] using hattained

end Shot

namespace Compile
open Shot

variable {p q : Progress} {raw : Bool}

/-- How the pass over the attributes of a tree ends: it goes through if and only if it is made in its
phase with no call of it made before, and then the delays have been added up. -/
structure Propagates (p : Progress) : Prop where
  returns_iff : (∃ q, establishAttributes.run p = .ok () q) ↔ p.shot.phase = .establishAttributes ∧
    ∀ n ∈ p.shot.nodes, n.ref.type = .shot ∨ n.ref.type = .device →
      p.shot.calls.called n.ref .establishAttributes = false
  adds : ∀ q, establishAttributes.run p = .ok () q → AddsDelays p.shot q.shot

/-- A pass that goes through has entered the call of the shot, set the delay of its waits and then
walked over the tree. -/
theorem run_establishAttributes_eq_ok (hstd : p.shot.Unbroken attributesPass)
    (h : establishAttributes.run p = .ok () q) :
    p.shot.phase = .establishAttributes ∧ SameTree p.shot q.shot ∧
      q.shot.uncalled = (p.shot.descendants .shot true).foldl (fun s id => attributed id s)
        { p.shot.uncalled with waitDelay := p.shot.longestWait } := by
  obtain ⟨⟨⟩, r, hr, h⟩ := run_bind_eq_ok.mp h
  obtain ⟨hphase, htree, hcalls⟩ := run_enter_eq_ok hr
  simp only [EStateM.run_bind, run_modifyShot, Pass.runBelowShot, run_shot] at h
  have hdelay : SameLinks r.shot { r.shot with waitDelay := r.shot.longestWait } :=
    .of_eq rfl rfl rfl rfl rfl rfl
  have htree' := htree.trans hdelay.toSameTree
  obtain ⟨hrest, hwalk⟩ := run_visit_eq_ok makes_attributes
    (fun id _ => htree'.hookAt attributesPass ▸ hstd.hookAt id) h
  refine ⟨hphase, htree'.trans hrest, ?_⟩
  have hstart : ({ r.shot with waitDelay := r.shot.longestWait } : Shot).uncalled =
      { p.shot.uncalled with waitDelay := p.shot.longestWait } := by
    rw [show ({ r.shot with waitDelay := r.shot.longestWait } : Shot).uncalled =
      { r.shot.uncalled with waitDelay := r.shot.uncalled.longestWait } from rfl, hcalls]
    rfl
  rw [hwalk, hstart, Forest.walk_before, htree'.below]
  rfl

theorem addsDelays_of_run (hs : p.shot.Clocked) (hw : p.shot.DevicesLinked)
    (hstd : p.shot.Unbroken attributesPass) (h : establishAttributes.run p = .ok () q) :
    AddsDelays p.shot q.shot := by
  obtain ⟨-, htree, hfold⟩ := run_establishAttributes_eq_ok hstd h
  generalize hs₀ : ({ p.shot.uncalled with waitDelay := p.shot.longestWait } : Shot) = s₀ at hfold
  have hlinks : SameLinks p.shot s₀ := hs₀ ▸ .of_eq rfl rfl rfl rfl rfl rfl
  have hall : p.shot.descendants .shot true = s₀.descendants .shot true := hs₀ ▸ rfl
  rw [hall] at hfold
  obtain ⟨hothers, hdelay⟩ : SameOn Device.withoutAttributes s₀ q.shot.uncalled ∧
      q.shot.uncalled.waitDelay = s₀.waitDelay := by
    rw [hfold]
    refine List.foldlRecOn (motive := fun t => SameOn _ s₀ t ∧ t.waitDelay = s₀.waitDelay) _ _
      ⟨.refl s₀, rfl⟩ fun t ht id _ => ?_
    exact ⟨ht.1.trans (sameOn_attributed id t), (waitDelay_attributed id t).trans ht.2⟩
  have hdevices : ∀ id d, q.shot.uncalled.device? id = some d → q.shot.uncalled.HandsDown d :=
    fun _ _ => handsDown_foldl (hlinks.toSameTree.devicesLinked hw) hfold
  subst hs₀
  have hsame : SameOn Device.withoutAttributes p.shot q.shot := hothers
  refine ⟨fun id d hd => ?_, ?_, hsame.comp Device.limits, hsame⟩
  · cases hdevices id d hd with
    | root parent start latency => exact .root parent start latency
    | below parent host start latency => exact .below parent host start latency
  · have hlongest : q.shot.waitDelay = p.shot.longestWait := hdelay
    rw [hlongest]
    exact (hs.isLongestWait hw).of_sameTree htree

/-- Delays add up over the tree of any shot whose attributes are established, whatever its devices have
been configured to and whatever else of them is replaced. -/
theorem propagates_of_grown (h : p.shot.Grown raw) (hstd : p.shot.Unbroken attributesPass) :
    Propagates p where
  returns_iff := by
    have hreturns := returns_iff (enters_establishAttributes p.shot) h.wellFormed (.inr rfl) hstd
      fun q hq => (run_establishAttributes_eq_ok hstd hq).1
    simp only [Operation.IsOfStart.required_iff (.inr rfl)] at hreturns
    exact hreturns
  adds q hq := addsDelays_of_run h.clocked h.wellFormed.devices hstd hq

/-- A trigger with a delay of its own to one of two pseudoclock devices, which starts late. -/
private def staggered : List Command := [
  .openShot "bench" {} {},
  .addDevice 0 (.shot 0) { name := "master", equipment := .pseudoclockDevice 0 } {},
  .addDevice 0 (.device 0 0) { name := "clock", equipment := .pseudoclock ⟨1, 0, 10⟩ } {},
  .addDevice 0 (.device 0 1) { name := "line", equipment := .clockLine } {},
  .addDevice 0 (.device 0 2) { name := "card", equipment := .clockableDevice 0 0 } {},
  .addDevice 0 (.device 0 3)
    { name := "trigger", equipment := .trigger, hooks := { childDelays := [("slow", 2)] } } {},
  .addDevice 0 (.device 0 4) { name := "fast", equipment := .pseudoclockDevice 0 } {},
  .addDevice 0 (.device 0 4) { name := "slow", equipment := .pseudoclockDevice 0 } {},
  .addDevice 0 (.device 0 6) { name := "slow clock", equipment := .pseudoclock ⟨1, 5, 10⟩ } {},
  .setInitialTrigger (.device 0 0) 0.5,
  .setOutputDelay (.device 0 3) 1,
  .setOutputDelay (.device 0 4) 0.5,
  .setInitialTrigger (.device 0 6) 0.25,
  .nextPhase 0,
  .establishLimits (.shot 0),
  .nextPhase 0]

theorem propagates_of_staggered : ∃ p q : Progress, p.shot.Grown false ∧
    p.shot.Unbroken attributesPass ∧ Propagates p ∧ establishAttributes.run p = .ok () q ∧
    q.shot.devices.toList.map (·.start) = [0.5, 0.5, 0.5, 0.5, 1.5, 2, 3.75, 3.75] ∧
    q.shot.devices.toList.map (·.latency) = [0, 0, 0, 0, 1, 1.5, 3, 3] ∧ q.shot.waitDelay = 5 := by
  obtain ⟨p, q, hr, hstd, hq, hattributes⟩ := exists_of_script staggered establishAttributes
    (fun s => s.Unbroken attributesPass)
    (fun s => s.devices.toList.map (·.start) = [0.5, 0.5, 0.5, 0.5, 1.5, 2, 3.75, 3.75] ∧
      s.devices.toList.map (·.latency) = [0, 0, 0, 0, 1, 1.5, 3, 3] ∧ s.waitDelay = 5)
    (by decide) (by decide +kernel)
  exact ⟨p, q, hr.grown, hstd, propagates_of_grown hr.grown hstd, hq, hattributes⟩

end Compile
end ShotTiming
