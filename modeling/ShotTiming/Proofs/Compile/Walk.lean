import ShotTiming.Proofs.Compile.Start

/-! # What an unbroken pass leaves

Where no hook replaces its part of a pass, the pass works on every device once, in front of its children
or behind them. What a device is given lasts if no later turn takes anything back that it rests on.
-/
namespace ShotTiming
open Shot

namespace Forest

variable {σ : Type} {children : Nat → List Nat} {size : Nat}

/-- Works on every device in front of what is below it, and behind it. -/
def walk (before after : Nat → σ → σ) : Forest → σ → σ
  | empty, s => s
  | grow id below later, s =>
    later.walk before after (after id (below.walk before after (before id s)))

theorem walk_before (work : Nat → σ → σ) (f : Forest) (s : σ) :
    f.walk work (fun _ s => s) s = f.toList.foldl (fun s id => work id s) s := by
  induction f generalizing s with
  | empty => rfl
  | grow id below later ihb ihl => rw [walk, ihb, ihl, toList, List.foldl_cons, List.foldl_append]

theorem walk_after (work : Nat → σ → σ) (f : Forest) (s : σ) :
    f.walk (fun _ s => s) work s = f.postorder.foldl (fun s id => work id s) s := by
  induction f generalizing s with
  | empty => rfl
  | grow id below later ihb ihl => rw [walk, ihb, ihl, postorder, List.foldl_append, List.foldl_cons]

/-- Children first: nothing is listed in front of a child of its own. -/
theorem postorder_pairwise (h : Climbing children size) {depth : Nat} {roots : List Nat}
    (hr : ∀ r ∈ roots, r < size ∧ size ≤ r + depth)
    (hnd : (plant children depth roots).toList.Nodup) :
    (plant children depth roots).postorder.Pairwise fun a b => b ∉ children a := by
  induction depth generalizing roots with
  | zero => simp [plant, postorder]
  | succ depth ih =>
    induction roots with
    | nil => simp [postorder]
    | cons r rs ihr =>
      have hch := h.fits (hr r (by simp))
      rw [plant_cons, toList, List.nodup_cons, List.nodup_append, List.mem_append, not_or] at hnd
      obtain ⟨⟨-, hrl⟩, hndb, hndl, hdis⟩ := hnd
      have hbelow : ∀ {a c}, a ∈ (plant children depth (children r)).postorder → c ∈ children a →
          c ∈ (plant children depth (children r)).toList := fun ha hc =>
        (mem_plant_iff h hch).mpr (.inr ⟨_, (postorder_perm _).mem_iff.mp ha, hc⟩)
      rw [plant_cons, postorder, List.pairwise_append, List.pairwise_cons]
      refine ⟨ih hch hndb, ⟨fun b hb hc => ?_, ihr (fun q hq => hr q (by simp [hq])) hndl⟩, ?_⟩
      · have hin := (mem_plant_iff h hch).mpr (.inl hc)
        exact hdis b hin b ((postorder_perm _).mem_iff.mp hb) rfl
      · intro a ha b hb hc
        rcases List.mem_cons.mp hb with rfl | hb
        · obtain ⟨c, hcr, hca⟩ := (mem_plant h hch).mp ((postorder_perm _).mem_iff.mp ha)
          have := h.gt hcr
          have := Reaches.le h hca
          have := h.gt hc
          omega
        · exact hdis b (hbelow ha hc) b ((postorder_perm _).mem_iff.mp hb) rfl

end Forest

/-- What every turn settles for its own device and no later one unsettles holds in the end. -/
theorem settled_foldl {σ : Type} {work : Nat → σ → σ} (keeps : σ → Prop) (settled : Nat → σ → Prop)
    {ids : List Nat} (hkeeps : ∀ {s} id, keeps s → keeps (work id s))
    (hown : ∀ {s} id, keeps s → settled id (work id s))
    (hlater : ids.Pairwise fun id k => ∀ s, keeps s → settled id s → settled id (work k s)) {s : σ}
    (hs : keeps s) :
    keeps (ids.foldl (fun s id => work id s) s) ∧
      ∀ id ∈ ids, settled id (ids.foldl (fun s id => work id s) s) := by
  induction ids generalizing s with
  | nil => exact ⟨hs, by simp⟩
  | cons k ids ih =>
    obtain ⟨hk, hlater⟩ := List.pairwise_cons.mp hlater
    obtain ⟨hend, hall⟩ := ih hlater (hkeeps k hs)
    have hlasts : keeps _ ∧ settled k (ids.foldl (fun s id => work id s) (work k s)) :=
      List.foldlRecOn (motive := fun t => keeps t ∧ settled k t) ids _ ⟨hkeeps k hs, hown k hs⟩
        fun t ht j hj => ⟨hkeeps j ht.1, hk j hj t ht.1 ht.2⟩
    exact ⟨hend, List.forall_mem_cons.mpr ⟨hlasts.2, hall⟩⟩

/-- The shot without its record of calls. -/
def Shot.uncalled (s : Shot) : Shot := { s with calls := {} }

/-- What a pass does with a device in front of its children and behind them. It leaves the links alone,
and the calls as well, which it does not look at. -/
structure Pass.Makes (p : Pass) (before after : Nat → Shot → Shot) : Prop where
  before_eq : ∀ id, p.before id = Compile.modifyShot (before id)
  after_eq : ∀ id, p.after id = Compile.modifyShot (after id)
  sameTree_before : ∀ id s, SameTree s (before id s)
  sameTree_after : ∀ id s, SameTree s (after id s)
  uncalled_before : ∀ id s, (before id s).uncalled = before id s.uncalled
  uncalled_after : ∀ id s, (after id s).uncalled = after id s.uncalled

namespace Shot

variable {s : Shot} {p : Pass}

theorem SameTree.devicesLinked {s' : Shot} (h : SameTree s s') (hs : s.DevicesLinked) :
    s'.DevicesLinked where
  parent := by simpa only [h.devices_size, h.parent?] using hs.parent
  mem_childrenOf := by
    intro g id
    rw [h.childrenOf, h.parent?, hs.mem_childrenOf]
  increasing := by simpa only [h.childrenOf] using hs.increasing

/-- Parents first: nothing is listed in front of its own parent. -/
theorem DevicesLinked.parents_first (hs : s.DevicesLinked) :
    (s.descendants .shot true).Pairwise fun a b => s.parent? a ≠ some (.device b) := by
  have hnd := hs.nodup_descendants .shot true
  have hindex : (s.descendants .shot true).Pairwise fun a b =>
      (s.descendants .shot true).idxOf a < (s.descendants .shot true).idxOf b := by
    rw [List.pairwise_iff_getElem]
    intro i j hi hj hij
    rwa [hnd.idxOf_getElem, hnd.idxOf_getElem]
  refine hindex.imp fun {a b} hab hp => ?_
  have hb : b < s.devices.size := Nat.lt_trans (hs.isBefore hp) (lt_of_parent? hp)
  have hfamily := hindex.sublist (hs.family_sublist hb)
  have hba := (List.pairwise_cons.mp hfamily).1 a (hs.mem_childrenOf.mpr hp)
  omega

/-- No user has replaced what a pass does with a device. -/
def Unbroken (s : Shot) (p : Pass) : Prop := ∀ d ∈ s.devices.toList, p.hook d.hooks = .standard

instance (s : Shot) (p : Pass) : Decidable (s.Unbroken p) :=
  inferInstanceAs (Decidable (∀ d ∈ s.devices.toList, _))

theorem Unbroken.device (h : s.Unbroken p) {id : Nat} {d : Device} (hd : s.device? id = some d) :
    p.hook d.hooks = .standard :=
  h d (Array.mem_of_getElem? hd).val

theorem Unbroken.hookAt (h : s.Unbroken p) (id : Nat) : s.hookAt p id = .standard := by
  rw [Shot.hookAt]
  cases hd : s.device? id with
  | none => rfl
  | some d => exact h.device hd

theorem Unbroken.not_breaks (h : s.Unbroken p) : ¬ s.Breaks p.hook := by
  rintro ⟨id, d, hd, -, hne⟩
  exact hne (h.device hd)

theorem exists_node_of_callsOf (hs : s.DevicesLinked) {r : NodeRef} (hr : r ∈ s.callsOf p) :
    ∃ n ∈ s.nodes, n.ref = r ∧ (r.type = .shot ∨ r.type = .device) := by
  rcases List.mem_cons.mp hr with rfl | hr
  · exact ⟨.shot, mem_nodes.mpr trivial, rfl, .inl rfl⟩
  · obtain ⟨id, hid, rfl⟩ := List.mem_map.mp hr
    have hlt := hs.mem_below_shot.mp (Forest.attempts_subset _ hid)
    exact ⟨.device id, mem_nodes.mpr hlt, rfl, .inr rfl⟩

end Shot

namespace Compile

variable {p q : Progress} {pass : Pass} {before after : Nat → Shot → Shot} {o : Operation}

theorem run_enter_eq_ok {n : Node} (h : (enter n o).run p = .ok () q) :
    p.shot.phase = o.phase ∧ SameTree p.shot q.shot ∧ q.shot.uncalled = p.shot.uncalled := by
  rw [enter, run_enterAs, Shot.enterAs] at h
  cases hc : p.shot.calls.enter n.ref o with
  | ok calls =>
    rw [hc] at h
    cases h
    have hlinks : SameLinks p.shot { p.shot with calls } := .of_eq rfl rfl rfl rfl rfl rfl
    exact ⟨(Calls.enter_eq_ok.mp hc).1.symm, hlinks.toSameTree, rfl⟩
  | error e =>
    rw [hc] at h
    cases e <;> cases h

theorem run_onDevice_eq_ok {id : Nat} {children : Compile Unit} (hm : pass.Makes before after)
    (hstd : p.shot.hookAt pass id = .standard) (h : (pass.onDevice id children).run p = .ok () q) :
    ∃ p₁ q₁ : Progress, children.run p₁ = .ok () q₁ ∧ SameTree p.shot p₁.shot ∧
      p₁.shot.uncalled = before id p.shot.uncalled ∧
      q.shot = after id q₁.shot := by
  rw [Pass.onDevice, run_bind_eq_ok] at h
  obtain ⟨⟨⟩, r, hr, h⟩ := h
  obtain ⟨-, htree, hcalls⟩ := run_enter_eq_ok hr
  have hhook : (pass.hookOf id).run r = .ok .standard r := by
    rw [← hstd, ← htree.hookAt]
    rfl
  rw [EStateM.run_bind, hhook] at h
  simp only [hm.before_eq, hm.after_eq, EStateM.run_bind, run_modifyShot] at h
  obtain ⟨⟨⟩, q₁, hq₁, h⟩ := run_bind_eq_ok.mp h
  cases h
  refine ⟨_, q₁, hq₁, htree.trans (hm.sameTree_before id _), ?_, rfl⟩
  rw [← hcalls]
  exact hm.uncalled_before id r.shot

/-- A pass that ends well has walked over the forest, and its calls aside has done nothing else. -/
theorem run_visit_eq_ok (hm : pass.Makes before after) {f : Forest}
    (hstd : ∀ id ∈ f.toList, p.shot.hookAt pass id = .standard)
    (h : (pass.visit f).run p = .ok () q) :
    SameTree p.shot q.shot ∧ q.shot.uncalled = f.walk before after p.shot.uncalled := by
  induction f generalizing p q with
  | empty =>
    cases h
    exact ⟨.refl _, rfl⟩
  | grow id below later ihb ihl =>
    simp only [Forest.toList, List.forall_mem_cons, List.forall_mem_append] at hstd
    obtain ⟨hid, hbelow, hlater⟩ := hstd
    rw [Pass.visit, run_bind_eq_ok] at h
    obtain ⟨⟨⟩, r, hr, h⟩ := h
    obtain ⟨p₁, q₁, hq₁, htree₁, hbefore, hafter⟩ := run_onDevice_eq_ok hm hid hr
    obtain ⟨htree₂, hwalk₁⟩ := ihb (fun k hk => htree₁.hookAt pass ▸ hbelow k hk) hq₁
    have htree : SameTree p.shot r.shot :=
      (htree₁.trans htree₂).trans (hafter ▸ hm.sameTree_after id _)
    obtain ⟨htree₃, hwalk⟩ := ihl (fun k hk => htree.hookAt pass ▸ hlater k hk) h
    refine ⟨htree.trans htree₃, ?_⟩
    rw [hwalk, hafter, hm.uncalled_after, hwalk₁, hbefore]
    rfl

/-- An unbroken pass goes through in its phase, unless a call of it was entered before. -/
theorem returns_iff {x : Compile Unit} (hx : Enters p.shot o x (p.shot.callsOf pass))
    (hw : p.shot.WellFormed) (ho : o.IsOfStart) (hstd : p.shot.Unbroken pass)
    (hphase : ∀ q, x.run p = .ok () q → p.shot.phase = o.phase) :
    (∃ q, x.run p = .ok () q) ↔ p.shot.phase = o.phase ∧
      ∀ n ∈ p.shot.nodes, o.isRequiredOn n.ref.type → p.shot.calls.called n.ref o = false := by
  obtain ⟨hnd, hcover⟩ := hw.callsOf_iff.mpr hstd.not_breaks
  constructor
  · rintro ⟨q, hq⟩
    have hp := hphase q hq
    refine ⟨hp, fun n hn hr => ?_⟩
    cases hall : p.shot.calls.enterAll (p.shot.callsOf pass) o with
    | ok calls =>
      obtain ⟨-, hfresh, -⟩ := (Calls.enterAll_eq_ok hp.symm ho.isOnce).mp hall
      exact hfresh n.ref (mem_callsOf hcover hn (ho.required_iff.mp hr))
    | error e =>
      obtain ⟨subject, r, hr, -⟩ := hx.refused (.refl _) hp hall
      cases hq.symm.trans hr
  · rintro ⟨hp, hfresh⟩
    have hall := (Calls.enterAll_eq_ok (c := p.shot.calls) (o := o) hp.symm ho.isOnce).mpr
      ⟨hnd, fun r hr => ?_, rfl⟩
    · obtain ⟨q, hq, -⟩ := hx.entered (.refl _) hp hall
      exact ⟨q, hq⟩
    · obtain ⟨n, hn, rfl, ht⟩ := exists_node_of_callsOf hw.devices hr
      exact hfresh n hn (ho.required_iff.mpr ht)

end Compile
end ShotTiming
