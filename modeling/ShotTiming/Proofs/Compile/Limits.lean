import ShotTiming.Proofs.Compile.Peak
import ShotTiming.Proofs.Compile.Walk
import ShotTiming.Proofs.Session.Frozen
import ShotTiming.Proofs.Shot.Placed
import ShotTiming.Proofs.Ticks

/-! # Limits are the largest of each clock domain

The pass comes to a device after its children, so that a pseudoclock is given its limits from the final ones of
its clock lines. What a clock line is given depends on the values of the devices it clocks, which no pass
changes.
-/
namespace ShotTiming
open Number

/-- All of a device but its limits. -/
def Device.withoutLimits (d : Device) : Device := { d with limits := {} }

/-- The same limits where the devices have other numbers. -/
def Limits.renamed (rename : Nat → Nat) (l : Limits) : Limits :=
  { l with periodLimiter := l.periodLimiter.map rename, triggerLimiter := l.triggerLimiter.map rename }

/-- The same peak where the devices have other numbers. -/
def Peak.renamed (rename : Nat → Nat) (p : Peak) : Peak := { p with holder := p.holder.map rename }

theorem Peak.over_renamed (rename : Nat → Nat) (start : Peak) (values : List (Nat × Float)) :
    (start.renamed rename).over (values.map fun v => (rename v.1, v.2)) =
      (start.over values).renamed rename := by
  induction values generalizing start with
  | nil => rfl
  | cons v values ih =>
    have hstep : (if (start.renamed rename).value < v.2 then ⟨v.2, some (rename v.1)⟩
        else start.renamed rename : Peak) =
        (if start.value < v.2 then ⟨v.2, some v.1⟩ else start : Peak).renamed rename := by
      change (if start.value < v.2 then _ else _) = _
      split <;> rfl
    exact (congrArg (Peak.over · _) hstep).trans (ih _)

/-- One of some values that none of them exceeds; 0 if there are none. -/
structure IsLargest (values : List Float) (x : Float) : Prop where
  attained : values = [] ∧ x = 0 ∨ x ∈ values
  bound : ∀ y ∈ values, ¬ x < y

variable {x : Float}

private theorem not_isNaN_zero : ¬ (0 : Float).isNaN := by decide

namespace IsLargest

variable {values : List Float}

private theorem not_isNaN (h : IsLargest values x) (hv : ∀ y ∈ values, 0 ≤ y) : ¬ x.isNaN := by
  rcases h.attained with ⟨-, rfl⟩ | hx
  · exact not_isNaN_zero
  · exact Double.not_isNaN_of_ge (hv x hx)

/-- Among numbers that are not below zero, a larger one takes the place of the largest so far. -/
theorem foldl_larger (hv : ∀ y ∈ values, 0 ≤ y) : IsLargest values (values.foldl larger 0) := by
  induction values using List.reverseRecOn with
  | nil => exact ⟨.inl ⟨rfl, rfl⟩, by simp⟩
  | append_singleton values y ih =>
    have hbefore : ∀ z ∈ values, 0 ≤ z := fun z hz => hv z (by simp [hz])
    have hy : 0 ≤ y := hv y (by simp)
    have hold := ih hbefore
    rw [List.foldl_append, List.foldl_cons, List.foldl_nil]
    generalize values.foldl larger 0 = x at hold
    have hx := hold.not_isNaN hbefore
    rw [larger]
    split
    · rename_i hlt
      constructor
      · rcases hold.attained with ⟨-, rfl⟩ | hmem
        · exact absurd hy (Double.not_le_of_lt hlt)
        · exact .inr (by simp [hmem])
      · simp only [List.mem_append, List.mem_singleton]
        rintro z (hz | rfl)
        · exact hold.bound z hz
        · exact Double.lt_asymm hlt
    · rename_i hge
      constructor
      · exact .inr (by simp)
      · simp only [List.mem_append, List.mem_singleton]
        rintro z (hz | rfl)
        · exact Double.not_lt_trans hx (hold.bound z hz) hge
        · exact Double.lt_irrefl z

/-- Where nothing is a number, nothing is larger. -/
theorem foldl_larger_of_isNaN (hv : ∀ y ∈ values, y.isNaN) : IsLargest values (values.foldl larger 0) := by
  have hnever : ∀ y ∈ values, ∀ x, ¬ x < y ∧ ¬ y < x := fun y hy x =>
    ⟨fun hlt => Double.not_isNaN_of_lt hlt (hv y hy),
      fun hlt => Double.not_isNaN_of_le (Double.le_of_lt hlt) (hv y hy)⟩
  refine ⟨?_, fun y hy => (hnever y hy _).1⟩
  cases values using List.reverseRecOn with
  | nil => exact .inl ⟨rfl, rfl⟩
  | append_singleton values y =>
    rw [List.foldl_append, List.foldl_cons, List.foldl_nil, larger, if_neg (hnever y (by simp) _).2]
    exact .inr (by simp)

end IsLargest

theorem Equipment.minimumPeriod?_of_source {e : Equipment} {c : ClockSource} (h : e.source? = some c) :
    e.minimumPeriod? = some c.minimumPeriod := by
  cases e <;> cases h
  rfl

namespace Shot

/-- The limits of a device, if it has been made. -/
def limits? (s : Shot) (id : Nat) : Option Limits := (s.device? id).map (·.limits)

def minimumPeriod? (s : Shot) (id : Nat) : Option Float :=
  (s.device? id).bind (·.equipment.minimumPeriod?)

def minimumTrigger? (s : Shot) (id : Nat) : Option Float :=
  (s.device? id).bind (·.equipment.minimumTrigger?)

/-- The clockable devices below a clock line with no pseudoclock in between, in the order of the tree. -/
structure Clocks (s : Shot) (line : Nat) (ids : List Nat) : Prop where
  mem : ∀ id, id ∈ ids ↔ s.kind? id = some .clockableDevice ∧ s.SharesClock line id
  order : ids.Sublist (s.descendants .shot true)

/-- The limits of a clock line suit its pseudoclock and the devices it clocks. -/
structure Suits (s : Shot) (clock : Nat) (source : ClockSource) (ids : List Nat) (l : Limits) : Prop where
  ticks : ∃ p, Peak.Tops s.minimumPeriod? ids ⟨source.minimumPeriod, some clock⟩ p ∧
    l.periodTicks = ceilCount p.value source.timebase defaultSlack ∧ l.periodLimiter = p.holder
  period : l.period = Float.ofInt l.periodTicks * source.timebase
  trigger : Peak.Tops s.minimumTrigger? ids ⟨0, none⟩ ⟨l.triggerDuration, l.triggerLimiter⟩

/-- What the pass makes of a tree. -/
structure SettlesLimits (s t : Shot) : Prop where
  lines : ∀ line d, t.device? line = some d → d.kind = .clockLine → ∃ clock source ids,
    d.parent = some (.device clock) ∧ t.source? (some clock) = some source ∧ t.Clocks line ids ∧
    t.Suits clock source ids d.limits
  pseudoclocks : ∀ clock d, t.device? clock = some d → d.kind = .pseudoclock →
    IsLargest (((t.childrenOf (.device clock)).filterMap t.limits?).map (·.period)) d.limits.period ∧
    IsLargest (((t.childrenOf (.device clock)).filterMap t.limits?).map (·.triggerDuration))
      d.limits.triggerDuration
  triggers : ∀ trigger d, t.device? trigger = some d → d.kind = .trigger →
    Peak.Tops t.minimumTrigger? (t.childrenOf (.device trigger)) ⟨0, none⟩
      ⟨d.limits.triggerDuration, d.limits.triggerLimiter⟩
  others : SameOn Device.withoutLimits s t

variable {s t : Shot} {id k line clock : Nat} {ids : List Nat} {d : Device} {source : ClockSource} {l : Limits}

/-! ## One turn of the pass -/

/-- The shot with the limits of one device made anew. -/
def limited (id : Nat) (s : Shot) : Shot :=
  (s.limitsOf? id).elim s fun limits => s.setDevice id fun d => { d with limits }

theorem device?_limited (k : Nat) : (limited k s).device? id =
    if id = k then (s.device? id).map fun d => (s.limitsOf? k).elim d fun limits => { d with limits }
    else s.device? id := by
  rw [limited]
  cases s.limitsOf? k with
  | none =>
    simp only [Option.elim_none, Option.map_id', ite_self]
  | some limits =>
    rw [Option.elim_some, device?_setDevice]
    rfl

theorem sameOn_limited (id : Nat) (s : Shot) : SameOn Device.withoutLimits s (limited id s) := by
  rw [limited]
  cases s.limitsOf? id with
  | none => exact .refl s
  | some limits => exact .setDevice fun _ _ => rfl

theorem sameTree_limited (id : Nat) (s : Shot) : SameTree s (limited id s) := by
  rw [limited]
  cases s.limitsOf? id with
  | none => exact .refl s
  | some limits =>
    have hlinks : SameLinks s (s.setDevice id fun d => { d with limits }) :=
      .setDevice (fun _ _ => rfl) fun _ _ => .rfl
    exact hlinks.toSameTree

theorem makes_limits : limitsPass.Makes (fun _ s => s) limited where
  before_eq _ := rfl
  after_eq _ := rfl
  sameTree_before _ := .refl
  sameTree_after := sameTree_limited
  uncalled_before _ _ := rfl
  uncalled_after id s := by
    have hd : s.uncalled.limitsOf? id = s.limitsOf? id := rfl
    rw [limited, limited, hd]
    cases s.limitsOf? id <;> rfl

/-! ## What the limits of a device rest on -/

theorem any_kind (k : DeviceKind) : (s.device? id).any (·.kind == k) = true ↔ s.kind? id = some k := by
  unfold kind?
  cases s.device? id <;> simp

namespace SameTree

variable (h : SameTree s t)
include h

theorem any_kind (id : Nat) (k : DeviceKind) :
    (t.device? id).any (·.kind == k) = (s.device? id).any (·.kind == k) := by
  rw [Bool.eq_iff_iff, Shot.any_kind, Shot.any_kind, h.kind?]

theorem descendants (host : Host) (acrossClocks : Bool) :
    t.descendants host acrossClocks = s.descendants host acrossClocks := by
  unfold Shot.descendants sameClock
  rw [h.below, show t.isPseudoclock = s.isPseudoclock from funext fun id => h.any_kind id _]

theorem clockedBy (line : Nat) : t.clockedBy line = s.clockedBy line := by
  unfold Shot.clockedBy
  simp only [h.descendants, h.any_kind]

theorem valueAt {α : Type} (value? : Equipment → Option α) (id : Nat) :
    (t.device? id).bind (value? ·.equipment) = (s.device? id).bind (value? ·.equipment) :=
  bind_congr_map (h.map_device? _ (fun _ => rfl) id)

theorem valuesOf (value? : Equipment → Option Float) (ids : List Nat) :
    t.valuesOf value? ids = s.valuesOf value? ids := by
  unfold Shot.valuesOf
  simp only [h.valueAt]

theorem clockLineLimits (line clock : Nat) (source : ClockSource) :
    t.clockLineLimits line clock source = s.clockLineLimits line clock source := by
  unfold Shot.clockLineLimits
  simp only [h.clockedBy, h.valuesOf]

theorem triggerLimits (id : Nat) : t.triggerLimits id = s.triggerLimits id := by
  unfold Shot.triggerLimits
  rw [h.childrenOf, h.valuesOf]

end SameTree

theorem pseudoclockLimits_eq : s.pseudoclockLimits clock =
    { period := (((s.childrenOf (.device clock)).filterMap s.limits?).map (·.period)).foldl larger 0
      triggerDuration :=
        (((s.childrenOf (.device clock)).filterMap s.limits?).map (·.triggerDuration)).foldl larger 0 } := by
  have hlines : (s.childrenOf (.device clock)).filterMap s.limits? =
      ((s.childrenOf (.device clock)).filterMap s.device?).map (·.limits) := by
    rw [List.map_filterMap]
    rfl
  rw [hlines, List.map_map, List.map_map, List.foldl_map, List.foldl_map]
  rfl

/-- The limits that a device is to have change with those of its children only. -/
theorem SameTree.limitsOf? (h : SameTree s t)
    (hc : ∀ c ∈ s.childrenOf (.device id), t.limits? c = s.limits? c) : t.limitsOf? id = s.limitsOf? id := by
  have hclock : t.pseudoclockLimits id = s.pseudoclockLimits id := by
    rw [pseudoclockLimits_eq, pseudoclockLimits_eq, h.childrenOf, List.filterMap_congr hc]
  have hline : t.clockLineLimits id = s.clockLineLimits id := by
    funext clock source
    exact h.clockLineLimits id clock source
  have hdevice : (t.device? id).map (fun d => (d.equipment, d.parent)) =
      (s.device? id).map fun d => (d.equipment, d.parent) := h.map_device? _ (fun _ => rfl) id
  unfold Shot.limitsOf?
  cases hs : s.device? id with
  | none =>
    rw [hs, Option.map_none, Option.map_eq_none_iff] at hdevice
    rw [hdevice]
  | some d =>
    rw [hs, Option.map_some, Option.map_eq_some_iff] at hdevice
    obtain ⟨e, he, hsame⟩ := hdevice
    obtain ⟨hequipment, hparent⟩ := Prod.mk.inj hsame
    rw [he]
    simp only [hequipment, hparent, hclock, hline, h.triggerLimits, h.source?]

/-! ## Every device in turn -/

theorem limits?_limited_of_ne (h : id ≠ k) : (limited k s).limits? id = s.limits? id := by
  rw [limits?, device?_limited, if_neg h]
  rfl

theorem limits?_limited (h : s.limitsOf? id = some l) : (limited id s).limits? id = some l := by
  have hd : s.device? id ≠ none := fun hnone => by
    rw [Shot.limitsOf?, hnone] at h
    cases h
  obtain ⟨d, hd⟩ := Option.ne_none_iff_exists'.mp hd
  rw [limits?, device?_limited, if_pos rfl, hd, h]
  rfl

theorem DevicesLinked.not_own_child (hs : s.DevicesLinked) : id ∉ s.childrenOf (.device id) :=
  fun hc => Nat.lt_irrefl id (hs.climbing.gt hc)

/-- The limits of a device are what its children make of them. -/
def HasLimits (s : Shot) (id : Nat) : Prop := ∀ l, s.limitsOf? id = some l → s.limits? id = some l

/-- Its own turn gives a device its limits. -/
theorem hasLimits_limited (hs : s.DevicesLinked) (id : Nat) : (limited id s).HasLimits id := by
  intro l hl
  rw [(sameTree_limited id s).limitsOf? fun c hc => limits?_limited_of_ne ?_] at hl
  · exact limits?_limited hl
  · rintro rfl
    exact hs.not_own_child hc

/-- The turn of another device that is not one of its children takes nothing back. -/
theorem HasLimits.limited (h : s.HasLimits id) (hne : id ≠ k) (hk : k ∉ s.childrenOf (.device id)) :
    (limited k s).HasLimits id := by
  intro l hl
  rw [(sameTree_limited k s).limitsOf? fun c hc => limits?_limited_of_ne ?_] at hl
  · rw [limits?_limited_of_ne hne]
    exact h l hl
  · rintro rfl
    exact hk hc

/-- After a walk that comes to children first, every device has its limits. -/
theorem hasLimits_foldl (hs : s.DevicesLinked)
    (ht : t = (s.below .shot).postorder.foldl (fun s id => Shot.limited id s) s) :
    SameTree s t ∧ SameOn Device.withoutLimits s t ∧ ∀ id, t.HasLimits id := by
  have hnd : (s.below .shot).toList.Nodup := hs.nodup_below .shot
  have horder := (Forest.postorder_pairwise hs.climbing (hs.roots_fit .shot) hnd).and
    ((Forest.postorder_perm _).nodup_iff.mpr hnd)
  have hlater : (s.below .shot).postorder.Pairwise fun id k => ∀ t,
      SameTree s t ∧ SameOn Device.withoutLimits s t → t.HasLimits id → (Shot.limited k t).HasLimits id := by
    refine horder.imp ?_
    rintro id k ⟨hchild, hne⟩ t ⟨htree, -⟩ hold
    exact hold.limited hne (htree.childrenOf _ ▸ hchild)
  obtain ⟨⟨htree, hothers⟩, hall⟩ := settled_foldl
    (fun t => SameTree s t ∧ SameOn Device.withoutLimits s t) (fun id t => t.HasLimits id)
    (fun id h => ⟨h.1.trans (sameTree_limited id _), h.2.trans (sameOn_limited id _)⟩)
    (fun id h => hasLimits_limited (h.1.devicesLinked hs) id) hlater ⟨.refl s, .refl s⟩
  rw [← ht] at htree hothers hall
  refine ⟨htree, hothers, fun id l hl => ?_⟩
  by_cases hid : id < s.devices.size
  · exact hall id ((Forest.postorder_perm _).mem_iff.mpr (hs.mem_below_shot.mpr hid)) l hl
  · have hnone : t.device? id = none := by
      rw [device?, Array.getElem?_eq_none_iff, htree.devices_size]
      exact not_lt.mp hid
    rw [Shot.limitsOf?, hnone] at hl
    cases hl

/-! ## The limits of each kind -/

theorem DevicesLinked.clocks_clockedBy (hs : s.DevicesLinked) (hk : s.kind? line = some .clockLine) :
    s.Clocks line (s.clockedBy line) where
  mem id := by
    unfold clockedBy
    rw [List.mem_filter, any_kind, ← hs.mem_host_or_descendants]
    constructor
    · exact fun h => ⟨h.2, .inr h.1⟩
    · rintro ⟨hid, rfl | hmem⟩
      · cases hk.symm.trans hid
      · exact ⟨hmem, hid⟩
  order := by
    obtain ⟨d, hd, -⟩ := Option.map_eq_some_iff.mp hk
    have hbelow := (List.sublist_cons_self line _).trans (hs.tree_sublist (device?_eq_some hd))
    exact List.filter_sublist.trans ((descendants_sublist s _ false).trans hbelow)

theorem Clocked.isNumber (hs : s.Clocked) {x : Float} :
    (s.minimumPeriod? id = some x → ¬ x.isNaN) ∧ (s.minimumTrigger? id = some x → ¬ x.isNaN) := by
  constructor
  · intro hx
    obtain ⟨d, hd, hx⟩ := Option.bind_eq_some_iff.mp hx
    exact Double.not_isNaN_of_ge ((hs.usable_equipment hd).minimumPeriod x hx)
  · intro hx
    obtain ⟨d, hd, hx⟩ := Option.bind_eq_some_iff.mp hx
    exact Double.not_isNaN_of_ge ((hs.usable_equipment hd).minimumTrigger x hx)

theorem Clocked.tops_trigger (hs : s.Clocked) (ids : List Nat) :
    Peak.Tops s.minimumTrigger? ids ⟨0, none⟩
      (Peak.over ⟨0, none⟩ (s.valuesOf (·.minimumTrigger?) ids)) :=
  Peak.tops_over _ _ not_isNaN_zero fun _ _ _ hx => hs.isNumber.2 hx

/-- The ticks of a pseudoclock take time, and its own minimum period is a number. -/
theorem Clocked.usable_source (hs : s.Clocked) (hsource : s.source? (some clock) = some source) :
    0 < source.timebase ∧ 0 ≤ source.minimumPeriod := by
  obtain ⟨d, hd, hc⟩ := Option.bind_eq_some_iff.mp (by simpa [source?] using hsource)
  have husable := hs.usable_equipment hd
  exact ⟨(husable.source source hc).1, husable.minimumPeriod _ (Equipment.minimumPeriod?_of_source hc)⟩

theorem Clocked.suits (hs : s.Clocked) (hsource : s.source? (some clock) = some source) (line : Nat) :
    s.Suits clock source (s.clockedBy line) (s.clockLineLimits line clock source) where
  ticks := by
    have hown : ¬ source.minimumPeriod.isNaN := Double.not_isNaN_of_ge (hs.usable_source hsource).2
    exact ⟨_, Peak.tops_over _ _ hown fun _ _ _ hx => hs.isNumber.1 hx, rfl, rfl⟩
  period := rfl
  trigger := hs.tops_trigger _

/-- The periods of the clock lines of one pseudoclock are numbers that are not below zero, but if its ticks
never come, then none of them is a number. -/
theorem Clocked.period_cases (hs : s.Clocked) (hsource : s.source? (some clock) = some source)
    (hl : s.Suits clock source ids l) :
    (point? source.timebase ≠ some ⊤ → 0 ≤ l.period) ∧ (point? source.timebase = some ⊤ → l.period.isNaN) := by
  obtain ⟨htimebase, hperiod⟩ := hs.usable_source hsource
  obtain ⟨p, hp, hticks, -⟩ := hl.ticks
  have hpeak := hp.nonneg hperiod
  rw [hl.period, hticks]
  constructor
  · exact ofInt_mul_nonneg (ceilWithin_nonneg (rational_div_nonneg hpeak htimebase)) htimebase
  · intro htop
    rw [ceilCount, ceilWithin_of_eq_zero (rational_div_top _ htop)]
    exact isNaN_zero_mul_top htop

/-- A clock line stands on a pseudoclock. -/
theorem WellFormed.source_of_clockLine (hw : s.WellFormed) (ht : s.KeepsTables)
    (hd : s.device? line = some d) (hk : d.kind = .clockLine) : ∃ clock source,
      d.parent = some (.device clock) ∧ s.source? (some clock) = some source := by
  have hkind : s.kind? line = some .clockLine := by rw [kind?, hd, Option.map_some, hk]
  obtain ⟨clock, hparent, hclock⟩ := hw.parent_of_clockLine ht hkind
  obtain ⟨e, he, hek⟩ := Option.map_eq_some_iff.mp hclock
  refine ⟨clock, ?_⟩
  rw [parent?, hd, Option.bind_some] at hparent
  rw [source?, Option.bind_some, he, Option.bind_some]
  cases hq : e.equipment <;> simp [Device.kind, hq, Equipment.kind] at hek
  exact ⟨_, hparent, rfl⟩

theorem limitsOf?_clockLine (hd : s.device? line = some d) (hk : d.kind = .clockLine)
    (hp : d.parent = some (.device clock)) (hc : s.source? (some clock) = some source) :
    s.limitsOf? line = some (s.clockLineLimits line clock source) := by
  rw [Shot.limitsOf?, hd]
  cases he : d.equipment <;> simp [Device.kind, he, Equipment.kind] at hk
  simp only [he, hp, Option.bind_some, hc, Option.map_some]

theorem limitsOf?_pseudoclock (hd : s.device? clock = some d) (hk : d.kind = .pseudoclock) :
    s.limitsOf? clock = some (s.pseudoclockLimits clock) := by
  rw [Shot.limitsOf?, hd]
  cases he : d.equipment <;> simp [Device.kind, he, Equipment.kind] at hk
  simp only [he]

theorem limitsOf?_trigger (hd : s.device? id = some d) (hk : d.kind = .trigger) :
    s.limitsOf? id = some (s.triggerLimits id) := by
  rw [Shot.limitsOf?, hd]
  cases he : d.equipment <;> simp [Device.kind, he, Equipment.kind] at hk
  simp only [he]

theorem HasLimits.limits_eq (h : s.HasLimits id) (hd : s.device? id = some d)
    (hl : s.limitsOf? id = some l) : d.limits = l := by
  have hat := h l hl
  rw [limits?, hd, Option.map_some, Option.some_inj] at hat
  exact hat

theorem HasLimits.suits (h : s.HasLimits line) (hw : s.WellFormed) (ht : s.KeepsTables) (hs : s.Clocked)
    (hd : s.device? line = some d) (hk : d.kind = .clockLine) : ∃ clock source,
      d.parent = some (.device clock) ∧ s.source? (some clock) = some source ∧
      s.Suits clock source (s.clockedBy line) d.limits := by
  obtain ⟨clock, source, hparent, hsource⟩ := hw.source_of_clockLine ht hd hk
  refine ⟨clock, source, hparent, hsource, ?_⟩
  rw [h.limits_eq hd (limitsOf?_clockLine hd hk hparent hsource)]
  exact hs.suits hsource line

/-- The clock lines of one pseudoclock have limits that are all numbers, or periods that all are none. -/
theorem HasLimits.line_cases (h : ∀ id, s.HasLimits id) (hw : s.WellFormed) (ht : s.KeepsTables)
    (hs : s.Clocked) (hk : s.kind? clock = some .pseudoclock) {lines : List Limits}
    (hlines : lines = (s.childrenOf (.device clock)).filterMap s.limits?) :
    (∀ l ∈ lines, 0 ≤ l.triggerDuration) ∧ ((∀ l ∈ lines, 0 ≤ l.period) ∨ ∀ l ∈ lines, l.period.isNaN) := by
  have hline : ∀ l ∈ lines, ∃ source ids, s.source? (some clock) = some source ∧
      s.Suits clock source ids l := by
    intro l hl
    rw [hlines, List.mem_filterMap] at hl
    obtain ⟨line, hchild, hl⟩ := hl
    obtain ⟨d, hd, rfl⟩ := Option.map_eq_some_iff.mp hl
    have hparent := hw.devices.mem_childrenOf.mp hchild
    have hkind : d.kind = .clockLine :=
      hw.clockLine_of_parent ht (by rw [kind?, hd, Option.map_some]) hparent hk
    obtain ⟨c, source, hc, hsource, hsuits⟩ := (h line).suits hw ht hs hd hkind
    rw [parent?, hd, Option.bind_some, hc, Option.some_inj, Host.device.injEq] at hparent
    subst hparent
    exact ⟨source, _, hsource, hsuits⟩
  have hzero : (0 : Float) ≤ 0 := by decide
  constructor
  · intro l hl
    obtain ⟨source, ids, -, hsuits⟩ := hline l hl
    exact hsuits.trigger.nonneg hzero
  · by_cases htop : point? (s.timebaseOf (some clock)) = some ⊤
    · refine .inr fun l hl => ?_
      obtain ⟨source, ids, hsource, hsuits⟩ := hline l hl
      rw [timebaseOf, hsource] at htop
      exact (hs.period_cases hsource hsuits).2 htop
    · refine .inl fun l hl => ?_
      obtain ⟨source, ids, hsource, hsuits⟩ := hline l hl
      rw [timebaseOf, hsource] at htop
      exact (hs.period_cases hsource hsuits).1 htop

theorem HasLimits.isLargest (h : ∀ id, s.HasLimits id) (hw : s.WellFormed) (ht : s.KeepsTables)
    (hs : s.Clocked) (hd : s.device? clock = some d) (hk : d.kind = .pseudoclock) :
    IsLargest (((s.childrenOf (.device clock)).filterMap s.limits?).map (·.period)) d.limits.period ∧
    IsLargest (((s.childrenOf (.device clock)).filterMap s.limits?).map (·.triggerDuration))
      d.limits.triggerDuration := by
  have hkind : s.kind? clock = some .pseudoclock := by rw [kind?, hd, Option.map_some, hk]
  obtain ⟨htrigger, hperiod⟩ := HasLimits.line_cases h hw ht hs hkind rfl
  rw [(h clock).limits_eq hd (limitsOf?_pseudoclock hd hk), pseudoclockLimits_eq]
  generalize (s.childrenOf (.device clock)).filterMap s.limits? = lines at htrigger hperiod
  constructor
  · rcases hperiod with hperiod | hperiod
    · exact .foldl_larger (List.forall_mem_map.mpr hperiod)
    · exact .foldl_larger_of_isNaN (List.forall_mem_map.mpr hperiod)
  · exact .foldl_larger (List.forall_mem_map.mpr htrigger)

/-! ## What does not matter -/

/-- The same devices and values in the domains of two clock lines, whose numbers may differ. -/
structure SameDomain (rename : Nat → Nat) (s t : Shot) (line line' : Nat) : Prop where
  kind : s.kind? line = some .clockLine ∧ t.kind? line' = some .clockLine
  source : ∃ clock, s.parent? line = some (.device clock) ∧ t.parent? line' = some (.device (rename clock)) ∧
    t.source? (some (rename clock)) = s.source? (some clock)
  clocks : ∃ ids, s.Clocks line ids ∧ t.Clocks line' (ids.map rename) ∧ ∀ id ∈ ids,
    (t.device? (rename id)).map (·.equipment) = (s.device? id).map (·.equipment)

theorem Clocks.eq_clockedBy (h : s.Clocks line ids) (hs : s.DevicesLinked)
    (hk : s.kind? line = some .clockLine) : ids = s.clockedBy line := by
  have hwalk := hs.clocks_clockedBy hk
  have hnd : (s.descendants .shot true).Nodup := hs.nodup_descendants .shot true
  refine (hnd.perm_iff_eq_of_sublist h.order hwalk.order).mp ?_
  refine (List.perm_ext_iff_of_nodup (h.order.nodup hnd) (hwalk.order.nodup hnd)).mpr fun id => ?_
  rw [h.mem, hwalk.mem]

theorem valuesOf_rename {rename : Nat → Nat} (value? : Equipment → Option Float)
    (h : ∀ id ∈ ids, (t.device? (rename id)).map (·.equipment) = (s.device? id).map (·.equipment)) :
    t.valuesOf value? (ids.map rename) =
      (s.valuesOf value? ids).map fun v => (rename v.1, v.2) := by
  unfold valuesOf
  rw [List.filterMap_map, List.map_filterMap]
  refine List.filterMap_congr fun id hid => ?_
  have hequipment := congrArg (Option.map value?) (h id hid)
  rw [Option.map_map, Option.map_map] at hequipment
  have hvalue : (t.device? (rename id)).bind (value? ·.equipment) =
      (s.device? id).bind (value? ·.equipment) := bind_congr_map hequipment
  rw [Function.comp_apply, hvalue, Option.map_map]
  rfl

theorem SameDomain.clockLineLimits {rename : Nat → Nat} {line' : Nat} (h : SameDomain rename s t line line')
    (hs : s.DevicesLinked) (ht : t.DevicesLinked) (clock : Nat) (source : ClockSource) :
    t.clockLineLimits line' (rename clock) source =
      (s.clockLineLimits line clock source).renamed rename := by
  obtain ⟨ids, hids, hids', hvalues⟩ := h.clocks
  have hline := hids.eq_clockedBy hs h.kind.1
  have hline' := hids'.eq_clockedBy ht h.kind.2
  unfold Shot.clockLineLimits
  have hperiod := Peak.over_renamed rename ⟨source.minimumPeriod, some clock⟩
    (s.valuesOf (·.minimumPeriod?) ids)
  have htrigger := Peak.over_renamed rename ⟨0, none⟩ (s.valuesOf (·.minimumTrigger?) ids)
  simp only [Peak.renamed, Option.map_some, Option.map_none] at hperiod htrigger
  rw [← hline, ← hline']
  simp only [valuesOf_rename _ hvalues, hperiod, htrigger]
  rfl

theorem settlesLimits (hothers : SameOn Device.withoutLimits s t)
    (h : ∀ id, t.HasLimits id) (hw : t.WellFormed) (ht : t.KeepsTables) (hs : t.Clocked) :
    SettlesLimits s t where
  lines line d hd hk := by
    have hkind : t.kind? line = some .clockLine := by rw [kind?, hd, Option.map_some, hk]
    obtain ⟨clock, source, hparent, hsource, hsuits⟩ := (h line).suits hw ht hs hd hk
    exact ⟨clock, source, _, hparent, hsource, hw.devices.clocks_clockedBy hkind, hsuits⟩
  pseudoclocks clock d hd hk := HasLimits.isLargest h hw ht hs hd hk
  triggers trigger d hd hk := by
    rw [(h trigger).limits_eq hd (limitsOf?_trigger hd hk)]
    exact hs.tops_trigger _
  others := hothers

end Shot

namespace Compile
open Shot

variable {p q : Progress} {raw : Bool}

/-- A pass that goes through has entered the call of the shot and then walked over the tree. -/
theorem run_establishLimits_eq_ok (hstd : p.shot.Unbroken limitsPass)
    (h : establishLimits.run p = .ok () q) :
    p.shot.phase = .establishLimits ∧ SameTree p.shot q.shot ∧
      q.shot.uncalled = (p.shot.below .shot).postorder.foldl (fun s id => limited id s) p.shot.uncalled := by
  obtain ⟨⟨⟩, r, hr, h⟩ := run_bind_eq_ok.mp h
  obtain ⟨hphase, htree, hcalls⟩ := run_enter_eq_ok hr
  simp only [EStateM.run_bind, Pass.runBelowShot, run_shot] at h
  obtain ⟨hrest, hwalk⟩ := run_visit_eq_ok makes_limits
    (fun id _ => htree.hookAt limitsPass ▸ hstd.hookAt id) h
  refine ⟨hphase, htree.trans hrest, ?_⟩
  rw [hwalk, hcalls, Forest.walk_after, htree.below]

theorem hasLimits_of_run (hw : p.shot.DevicesLinked) (hstd : p.shot.Unbroken limitsPass)
    (h : establishLimits.run p = .ok () q) :
    SameTree p.shot q.shot ∧ SameOn Device.withoutLimits p.shot q.shot ∧ ∀ id, q.shot.HasLimits id := by
  obtain ⟨-, htree, hfold⟩ := run_establishLimits_eq_ok hstd h
  have hlinks : SameLinks p.shot p.shot.uncalled := .of_eq rfl rfl rfl rfl rfl rfl
  have hlinked := hlinks.toSameTree.devicesLinked hw
  obtain ⟨-, hothers, hlimits⟩ := hasLimits_foldl hlinked hfold
  exact ⟨htree, hothers, hlimits⟩

/-- How the pass over the limits of a tree ends: it goes through if and only if it is made in its phase with
no call of it made before, and then the limits are those of the clock domains. What a clock line is given
stays the same when anything else in the tree is changed, added or taken away. -/
structure EstablishesLimits (p : Progress) : Prop where
  returns_iff : (∃ q, establishLimits.run p = .ok () q) ↔ p.shot.phase = .establishLimits ∧
    ∀ n ∈ p.shot.nodes, n.ref.type = .shot ∨ n.ref.type = .device →
      p.shot.calls.called n.ref .establishLimits = false
  settles : ∀ q, establishLimits.run p = .ok () q → SettlesLimits p.shot q.shot
  uninfluenced : ∀ q, establishLimits.run p = .ok () q → ∀ (raw : Bool) (p' q' : Progress),
    p'.shot.Grown raw → p'.shot.Unbroken limitsPass → establishLimits.run p' = .ok () q' →
      ∀ rename line line', SameDomain rename p.shot p'.shot line line' →
        q'.shot.limits? line' = (q.shot.limits? line).map (Limits.renamed rename)

theorem limits?_of_run (hw : p.shot.DevicesLinked) (hstd : p.shot.Unbroken limitsPass)
    (h : establishLimits.run p = .ok () q) {line clock : Nat} {source : ClockSource}
    (hk : p.shot.kind? line = some .clockLine) (hp : p.shot.parent? line = some (.device clock))
    (hc : p.shot.source? (some clock) = some source) :
    q.shot.limits? line = some (p.shot.clockLineLimits line clock source) := by
  obtain ⟨htree, -, hlimits⟩ := hasLimits_of_run hw hstd h
  rw [← htree.kind?] at hk
  rw [← htree.parent?] at hp
  obtain ⟨d, hd, hkind⟩ := Option.map_eq_some_iff.mp hk
  rw [parent?, hd, Option.bind_some] at hp
  rw [← htree.clockLineLimits]
  exact hlimits line _ (limitsOf?_clockLine hd hkind hp (htree.source? _ ▸ hc))

/-- The limits of a tree are those of its clock domains, whatever has been configured and whatever else of
the devices is replaced. -/
theorem establishesLimits_of_grown (h : p.shot.Grown raw) (ht : p.shot.KeepsTables)
    (hstd : p.shot.Unbroken limitsPass) : EstablishesLimits p where
  returns_iff := by
    have hreturns := returns_iff (enters_establishLimits p.shot) h.wellFormed (.inl rfl) hstd
      fun q hq => (run_establishLimits_eq_ok hstd hq).1
    simp only [Operation.IsOfStart.required_iff (.inl rfl)] at hreturns
    exact hreturns
  settles q hq := by
    obtain ⟨htree, hothers, hlimits⟩ := hasLimits_of_run h.wellFormed.devices hstd hq
    have hgrown : q.shot.Grown raw :=
      (StaysIn.moves fun _ => staysIn_establishLimits).grown h hq
    exact settlesLimits hothers hlimits hgrown.wellFormed (htree.keepsTables ht) hgrown.clocked
  uninfluenced q hq raw' p' q' h' hstd' hq' rename line line' hdomain := by
    have hw := h.wellFormed
    obtain ⟨clock, hparent, hparent', hsource'⟩ := hdomain.source
    obtain ⟨d, hd, hkind⟩ := Option.map_eq_some_iff.mp hdomain.kind.1
    obtain ⟨c, source, hc, hsource⟩ := hw.source_of_clockLine ht hd hkind
    rw [parent?, hd, Option.bind_some, hc, Option.some_inj, Host.device.injEq] at hparent
    subst hparent
    have hline : p.shot.parent? line = some (.device c) := by rw [parent?, hd, Option.bind_some, hc]
    rw [limits?_of_run hw.devices hstd hq hdomain.kind.1 hline hsource,
      limits?_of_run h'.wellFormed.devices hstd' hq' hdomain.kind.2 hparent' (hsource'.trans hsource),
      hdomain.clockLineLimits hw.devices h'.wellFormed.devices]
    rfl

/-- A slow card on the clock line of a second pseudoclock, which a trigger on the line of the first one
starts. -/
private def nested : List Command := [
  .openShot "bench" {} {},
  .addDevice 0 (.shot 0) { name := "master", equipment := .pseudoclockDevice 0 } {},
  .addDevice 0 (.device 0 0) { name := "clock", equipment := .pseudoclock ⟨1, 0, 10⟩ } {},
  .addDevice 0 (.device 0 1) { name := "line", equipment := .clockLine } {},
  .addDevice 0 (.device 0 2) { name := "card", equipment := .clockableDevice 0 12.5 } {},
  .addDevice 0 (.device 0 3) { name := "trigger", equipment := .trigger } {},
  .addDevice 0 (.device 0 4) { name := "slave", equipment := .pseudoclockDevice 3 } {},
  .addDevice 0 (.device 0 5) { name := "slave clock", equipment := .pseudoclock ⟨2, 0, 10⟩ } {},
  .addDevice 0 (.device 0 6) { name := "slave line", equipment := .clockLine } {},
  .addDevice 0 (.device 0 7) { name := "slave card", equipment := .clockableDevice 7 100 } {},
  .nextPhase 0]

theorem establishesLimits_of_nested : ∃ p q : Progress, p.shot.Grown false ∧ p.shot.KeepsTables ∧
    p.shot.Unbroken limitsPass ∧ EstablishesLimits p ∧ establishLimits.run p = .ok () q ∧
    q.shot.limits? 2 = some ⟨13, 13, some 3, 0, none⟩ ∧
    q.shot.limits? 4 = some ⟨0, 0, none, 3, some 5⟩ ∧
    q.shot.limits? 6 = some ⟨100, 0, none, 7, none⟩ ∧
    q.shot.limits? 7 = some ⟨100, 50, some 8, 7, some 8⟩ := by
  obtain ⟨p, q, hr, ⟨ht, hstd⟩, hq, hlimits⟩ := exists_of_script nested establishLimits
    (fun s => s.KeepsTables ∧ s.Unbroken limitsPass)
    (fun s => s.limits? 2 = some ⟨13, 13, some 3, 0, none⟩ ∧ s.limits? 4 = some ⟨0, 0, none, 3, some 5⟩ ∧
      s.limits? 6 = some ⟨100, 0, none, 7, none⟩ ∧ s.limits? 7 = some ⟨100, 50, some 8, 7, some 8⟩)
    (by decide) (by decide +kernel)
  exact ⟨p, q, hr.grown, ht, hstd, establishesLimits_of_grown hr.grown ht hstd, hq, hlimits⟩

end Compile
end ShotTiming
