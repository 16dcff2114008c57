import ShotTiming.Proofs.Compile.Changes
import ShotTiming.Proofs.Shot.Traversal

/-! # The calls that a pass enters

A pass over a forest enters the calls of a list of devices, which the hooks decide, and stops at the
first device that has had it. The list has every device once exactly if no hook of a device with others
below it is replaced.
-/
namespace ShotTiming
open Shot

/-! ## Entering a list of calls -/

namespace Calls

/-- Enters a call for some nodes in turn. -/
def enterAll (c : Calls) (rs : List NodeRef) (o : Operation) : Except Refusal Calls :=
  rs.foldlM (fun c r => c.enter r o) c

variable {c c' : Calls} {o : Operation}

theorem enterAll_cons (r : NodeRef) (rs : List NodeRef) :
    c.enterAll (r :: rs) o = c.enter r o >>= fun c => c.enterAll rs o := by
  simp [enterAll]

theorem enterAll_append (rs rs' : List NodeRef) :
    c.enterAll (rs ++ rs') o = c.enterAll rs o >>= fun c => c.enterAll rs' o := by
  simp [enterAll]

/-- All calls are entered if none of them was before and none is repeated. -/
theorem enterAll_eq_ok (hp : o.phase = c.phase) (ho : o.isOnce) {rs : List NodeRef} :
    c.enterAll rs o = .ok c' ↔
      rs.Nodup ∧ (∀ r ∈ rs, c.called r o = false) ∧ c' = c.markAll rs o := by
  induction rs generalizing c with
  | nil => simp [enterAll, pure, Except.pure, eq_comm (a := c)]
  | cons r rs ih =>
    rw [enterAll_cons, bind_eq_ok]
    simp only [enter_eq_ok, ho, if_true, hp, true_and]
    constructor
    · rintro ⟨_, ⟨hr, rfl⟩, hrs⟩
      obtain ⟨hnd, hfresh, rfl⟩ := (ih (by exact hp)).mp hrs
      refine ⟨List.nodup_cons.mpr ⟨fun hmem => ?_, hnd⟩, fun q hq => ?_, rfl⟩
      · have hnot := hfresh r hmem
        rw [called_mark.mpr (.inr ⟨rfl, rfl⟩)] at hnot
        cases hnot
      · rcases List.mem_cons.mp hq with rfl | hq
        · exact hr
        · have hnot := hfresh q hq
          rw [← Bool.not_eq_true] at hnot ⊢
          exact fun hc => hnot (called_mark.mpr (.inl hc))
    · rintro ⟨hnd, hfresh, rfl⟩
      obtain ⟨hr, hnd⟩ := List.nodup_cons.mp hnd
      refine ⟨_, ⟨hfresh r (by simp), rfl⟩, (ih (by exact hp)).mpr ⟨hnd, fun q hq => ?_, rfl⟩⟩
      have hold := hfresh q (by simp [hq])
      rw [← Bool.not_eq_true] at hold ⊢
      rw [called_mark]
      rintro (hc | ⟨rfl, -⟩)
      · exact hold hc
      · exact hr hq

/-- In its phase, a call is refused only if it was entered before. -/
theorem eq_repeated {r : NodeRef} {e : Refusal} (hp : o.phase = c.phase)
    (h : c.enter r o = .error e) : e = .repeated := by
  unfold enter allows at h
  simp only [hp, beq_self_eq_true, Bool.not_true, Bool.false_eq_true, if_false] at h
  split at h
  · cases h
  · split at h <;> cases h
    rfl

theorem phase_of_enterAll {rs : List NodeRef} (h : c.enterAll rs o = .ok c') : c'.phase = c.phase := by
  induction rs generalizing c with
  | nil => cases h; rfl
  | cons r rs ih =>
    rw [enterAll_cons] at h
    obtain ⟨d, hd, h⟩ := bind_eq_ok.mp h
    exact (ih h).trans (phase_of_enter hd)

end Calls

/-! ## The devices that a pass comes to -/

namespace PassHook

variable {α β : Type}

/-- What a hook makes of a visit to what is below. -/
def apply : PassHook → List α → List α
  | skip, _ => []
  | standard, xs => xs
  | twice, xs => xs ++ xs

theorem apply_subset (h : PassHook) (xs : List α) : h.apply xs ⊆ xs := by
  cases h <;> simp [apply]

theorem map_apply (h : PassHook) (f : α → β) (xs : List α) :
    (h.apply xs).map f = h.apply (xs.map f) := by
  cases h <;> simp [apply]

/-- Only the standard hook lets a visit come to everything and to nothing again. -/
theorem eq_standard {h : PassHook} {xs all : List α} (hall : all ≠ [])
    (hcover : all ⊆ h.apply xs) (hnd : (h.apply xs).Nodup) : h = .standard := by
  obtain ⟨x, hx⟩ := List.exists_mem_of_ne_nil all hall
  cases h with
  | standard => rfl
  | skip => exact absurd (hcover hx) (by simp [apply])
  | twice =>
    have hmem : x ∈ xs := apply_subset .twice xs (hcover hx)
    exact absurd rfl ((List.nodup_append.mp hnd).2.2 x hmem x hmem)

end PassHook

namespace Forest

/-- The devices that a pass comes to, each as often as it does. -/
def attempts (hook : Nat → PassHook) : Forest → List Nat
  | empty => []
  | grow id below later => id :: ((hook id).apply (below.attempts hook) ++ later.attempts hook)

/-- The hook is the standard one wherever something grows below. -/
def StandardAbove (hook : Nat → PassHook) : Forest → Prop
  | empty => True
  | grow id below later =>
    (below ≠ empty → hook id = .standard) ∧ below.StandardAbove hook ∧ later.StandardAbove hook

variable {hook : Nat → PassHook} {children : Nat → List Nat} {size : Nat}

theorem attempts_subset (f : Forest) : f.attempts hook ⊆ f.toList := by
  induction f with
  | empty => simp [attempts]
  | grow id below later ihb ihl =>
    intro x hx
    rw [attempts, List.mem_cons, List.mem_append] at hx
    rw [toList, List.mem_cons, List.mem_append]
    exact hx.imp_right (Or.imp (fun h => ihb ((hook id).apply_subset _ h)) fun h => ihl h)

theorem attempts_eq {f : Forest} (hf : f.StandardAbove hook) : f.attempts hook = f.toList := by
  induction f with
  | empty => rfl
  | grow id below later ihb ihl =>
    obtain ⟨hid, hb, hl⟩ := hf
    rw [attempts, toList, ihb hb, ihl hl]
    cases below with
    | empty => cases hook id <;> rfl
    | grow => rw [hid (by simp), PassHook.apply]

/-- A pass that comes to every device, and to none of them again, meets standard hooks above others. -/
theorem standardAbove_of_attempts {f : Forest} (hnd : f.toList.Nodup)
    (hcover : f.toList ⊆ f.attempts hook) (honce : (f.attempts hook).Nodup) :
    f.StandardAbove hook := by
  induction f with
  | empty => trivial
  | grow id below later ihb ihl =>
    rw [toList, List.nodup_cons, List.nodup_append, List.mem_append, not_or] at hnd
    obtain ⟨⟨hidb, hidl⟩, hndb, hndl, hdis⟩ := hnd
    rw [attempts, List.nodup_cons, List.nodup_append] at honce
    obtain ⟨-, honceb, honcel, -⟩ := honce
    rw [toList, attempts, List.cons_subset, List.append_subset] at hcover
    obtain ⟨-, hb, hl⟩ := hcover
    -- The parts of the forest have no device in common, so that the pass covers each on its own.
    have hcoverb : below.toList ⊆ (hook id).apply (below.attempts hook) := by
      intro x hx
      have hmem := hb hx
      rw [List.mem_cons, List.mem_append] at hmem
      rcases hmem with rfl | hmem | hmem
      · exact absurd hx hidb
      · exact hmem
      · exact absurd rfl (hdis x hx x (attempts_subset later hmem))
    have hcoverl : later.toList ⊆ later.attempts hook := by
      intro x hx
      have hmem := hl hx
      rw [List.mem_cons, List.mem_append] at hmem
      rcases hmem with rfl | hmem | hmem
      · exact absurd hx hidl
      · exact absurd rfl (hdis x (attempts_subset below ((hook id).apply_subset _ hmem)) x hx)
      · exact hmem
    cases hbelow : below with
    | empty => exact ⟨fun h => absurd rfl h, trivial, ihl hndl hcoverl honcel⟩
    | grow id' below' later' =>
      have hne : below.toList ≠ [] := by simp [hbelow, toList]
      have hstd := PassHook.eq_standard hne hcoverb honceb
      rw [hstd] at hcoverb honceb
      exact ⟨fun _ => hstd, hbelow ▸ ihb hndb hcoverb honceb, ihl hndl hcoverl honcel⟩

/-- In a planted forest, what grows below a device are its children. -/
theorem standardAbove_plant (h : Climbing children size) {depth : Nat} {roots : List Nat}
    (hr : ∀ r ∈ roots, r < size ∧ size ≤ r + depth) :
    (plant children depth roots).StandardAbove hook ↔
      ∀ id ∈ (plant children depth roots).toList, children id ≠ [] → hook id = .standard := by
  induction depth generalizing roots with
  | zero => simp [plant, StandardAbove, toList]
  | succ depth ih =>
    induction roots with
    | nil => simp [StandardAbove, toList]
    | cons r rs ihr =>
      have hroot := hr r (by simp)
      have hch : ∀ c ∈ children r, c < size ∧ size ≤ c + depth := by
        intro c hc
        have := h.gt hc
        exact ⟨h.lt hc, by omega⟩
      have hbelow : plant children depth (children r) ≠ empty ↔ children r ≠ [] := by
        cases hc : children r with
        | nil => simp
        | cons c cs =>
          have hfit := hch c (by simp [hc])
          obtain ⟨n, rfl⟩ : ∃ n, depth = n + 1 := ⟨depth - 1, by omega⟩
          simp [plant_cons]
      rw [plant_cons, StandardAbove, hbelow, ih hch, ihr fun q hq => hr q (by simp [hq]), toList]
      simp only [List.forall_mem_cons, List.forall_mem_append]

end Forest

/-! ## Steps that enter calls -/

/-- What the user of a device makes of a pass. -/
def Shot.hookAt (s : Shot) (p : Pass) (id : Nat) : PassHook :=
  (s.device? id).elim .standard fun d => p.hook d.hooks

theorem Shot.SameTree.hookAt {s s' : Shot} (h : SameTree s s') (p : Pass) :
    s'.hookAt p = s.hookAt p :=
  funext fun id => elim_congr_map (h.map_device? _ (fun _ => rfl) id)

theorem Shot.SameTree.below {s s' : Shot} (h : SameTree s s') (host : Host) :
    s'.below host = s.below host := by
  unfold Shot.below
  simp only [h.childrenOf, h.devices_size]

namespace Compile

/-- On the tree of a shot and in the phase of an operation, the step enters the call for some nodes in
turn, as far as that goes, and leaves the links alone. -/
structure Enters (s : Shot) (o : Operation) (x : Compile Unit) (rs : List NodeRef) : Prop where
  entered : ∀ {p : Progress} {calls : Calls}, SameLinks s p.shot → p.shot.phase = o.phase →
    p.shot.calls.enterAll rs o = .ok calls →
      ∃ q, x.run p = .ok () q ∧ SameLinks s q.shot ∧ q.shot.calls = calls
  refused : ∀ {p : Progress} {e : Refusal}, SameLinks s p.shot → p.shot.phase = o.phase →
    p.shot.calls.enterAll rs o = .error e →
      ∃ subject q, x.run p = .error (.call (.repeated subject o o.phase)) q ∧ q.shot.phase = o.phase

namespace Enters

variable {s : Shot} {o : Operation} {x y : Compile Unit} {rs rs' : List NodeRef}

theorem modifyShot {f : Shot → Shot} (hf : ∀ t, SameLinks t (f t)) (hc : ∀ t, (f t).calls = t.calls) :
    Enters s o (Compile.modifyShot f) [] where
  entered {p calls} hs _ h := by
    refine ⟨_, run_modifyShot f p, hs.trans (hf _), ?_⟩
    exact (hc _).trans (Except.ok.inj h)
  refused _ _ h := by cases h

theorem pure : Enters s o (Pure.pure ()) [] := modifyShot (f := id) SameLinks.refl fun _ => rfl

theorem enter (n : Node) : Enters s o (enter n o) [n.ref] where
  entered {p calls} hs _ h := by
    have hc : p.shot.calls.enter n.ref o = .ok calls := by simpa [Calls.enterAll] using h
    refine ⟨{ p with shot := { p.shot with calls } }, ?_, ?_, rfl⟩
    · rw [Compile.enter, run_enterAs, Shot.enterAs, hc]
    · exact hs.trans (.of_eq rfl rfl rfl rfl rfl rfl)
  refused {p e} _ hp h := by
    have hc : p.shot.calls.enter n.ref o = .error e := by simpa [Calls.enterAll] using h
    obtain rfl := Calls.eq_repeated hp.symm hc
    refine ⟨p.shot.subject n, p, ?_, hp⟩
    rw [Compile.enter, run_enterAs, Shot.enterAs, hc, ← hp]

/-- Steps one after the other enter their calls one after the other. -/
theorem bind (hx : Enters s o x rs) (hy : Enters s o y rs') :
    Enters s o (x >>= fun _ => y) (rs ++ rs') where
  entered {p calls} hs hp h := by
    rw [Calls.enterAll_append, bind_eq_ok] at h
    obtain ⟨c, hc, h⟩ := h
    obtain ⟨q, hq, hsq, rfl⟩ := hx.entered hs hp hc
    have hpq : q.shot.phase = o.phase := (Calls.phase_of_enterAll hc).trans hp
    obtain ⟨r, hr, hrest⟩ := hy.entered hsq hpq h
    refine ⟨r, ?_, hrest⟩
    rw [EStateM.run_bind, hq]
    exact hr
  refused {p e} hs hp h := by
    rw [Calls.enterAll_append] at h
    cases hc : p.shot.calls.enterAll rs o with
    | error e' =>
      obtain ⟨subject, q, hq, hpq⟩ := hx.refused hs hp hc
      refine ⟨subject, q, ?_, hpq⟩
      rw [EStateM.run_bind, hq]
    | ok c =>
      rw [hc] at h
      obtain ⟨q, hq, hsq, rfl⟩ := hx.entered hs hp hc
      have hpq : q.shot.phase = o.phase := (Calls.phase_of_enterAll hc).trans hp
      obtain ⟨subject, r, hr, hpr⟩ := hy.refused hsq hpq h
      refine ⟨subject, r, ?_, hpr⟩
      rw [EStateM.run_bind, hq]
      exact hr

/-- Looking at the tree enters nothing. -/
theorem look {α : Type} {r : Compile α} {a : α} {f : α → Compile Unit}
    (hr : ∀ p : Progress, SameLinks s p.shot → r.run p = .ok a p) (hf : Enters s o (f a) rs) :
    Enters s o (r >>= f) rs where
  entered {p calls} hs hp h := by
    rw [EStateM.run_bind, hr p hs]
    exact hf.entered hs hp h
  refused {p e} hs hp h := by
    rw [EStateM.run_bind, hr p hs]
    exact hf.refused hs hp h

end Enters

/-! ## Passes -/

section

variable {s : Shot} {p : Pass} (hbefore : ∀ id, Enters s p.operation (p.before id) [])
  (hafter : ∀ id, Enters s p.operation (p.after id) [])

include hbefore hafter

theorem enters_onDevice {id : Nat} {children : Compile Unit} {rs : List NodeRef}
    (hc : Enters s p.operation children rs) :
    Enters s p.operation (p.onDevice id children)
      ((Node.device id).ref :: (s.hookAt p id).apply rs) := by
  have hhook : ∀ q : Progress, SameLinks s q.shot → (p.hookOf id).run q = .ok (s.hookAt p id) q := by
    intro q hq
    rw [← hq.toSameTree.hookAt p]
    rfl
  have hmade : Enters s p.operation (do p.before id; children; p.after id) rs := by
    simpa using (hbefore id).bind (hc.bind (hafter id))
  show Enters s p.operation _ ([(Node.device id).ref] ++ (s.hookAt p id).apply rs)
  refine (Enters.enter (.device id)).bind (Enters.look hhook ?_)
  cases s.hookAt p id with
  | skip => exact .pure
  | standard => exact hmade
  | twice => simpa [PassHook.apply] using (hbefore id).bind (hc.bind ((hafter id).bind hc))

theorem enters_visit (f : Forest) :
    Enters s p.operation (p.visit f)
      ((f.attempts (s.hookAt p)).map fun id => (Node.device id).ref) := by
  induction f with
  | empty => exact .pure
  | grow id below later ihb ihl =>
    have hdevice : Enters s p.operation (p.onDevice id (p.visit below)) _ :=
      enters_onDevice hbefore hafter ihb
    simpa [Pass.visit, Forest.attempts, PassHook.map_apply] using hdevice.bind ihl

theorem enters_runBelowShot :
    Enters s p.operation p.runBelowShot
      (((s.below .shot).attempts (s.hookAt p)).map fun id => (Node.device id).ref) := by
  refine Enters.look (r := (·.below .shot) <$> shot) (fun q hq => ?_)
    (enters_visit hbefore hafter _)
  rw [← hq.toSameTree.below]
  rfl

end

end Compile
end ShotTiming
