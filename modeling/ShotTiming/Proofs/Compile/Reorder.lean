import ShotTiming.Proofs.Compile.Verdict
import ShotTiming.Proofs.Shot.Renumber

/-! # The order of the instructions does not matter

The same instructions added in another order stand under other numbers. No rule of a valid shot and
nothing that a timing depends on looks at the numbers, so a stop ends alike, and times counterparts alike.
-/
namespace ShotTiming

/-- What is asked of a host. -/
structure Order where
  owner : Host
  time : Float
  action : Action

/-- An order, and where it is placed. -/
structure Request extends Order where
  site : Site := {}

/-- The entry of an instruction under another number. -/
def Entry.under (e : Entry) (σ : Equiv.Perm Nat) (site : Site) : Entry :=
  ⟨σ e.id, { e.instruction with site }⟩

/-- Two faults that a stop may end in, of the same kind. -/
inductive Fault.SameKind : Fault → Fault → Prop
  | structural {f g : StructuralFault} : f.code = g.code → SameKind (.structural f) (.structural g)
  | quantisation (f g : QuantisationFault) : SameKind (.quantisation f) (.quantisation g)
  | invalid (r r' : Report) : SameKind (.invalid r) (.invalid r')

/-- A permutation of a list gives its positions other numbers. -/
theorem exists_renumbering {α : Type} {xs ys : List α} (h : xs.Perm ys) :
    ∃ σ : Equiv.Perm Nat, ∀ n, ys[σ n]? = xs[n]? := by
  induction h with
  | nil => exact ⟨.refl _, fun _ => rfl⟩
  | cons x _ ih =>
    obtain ⟨σ, hσ⟩ := ih
    let shift (τ : Equiv.Perm Nat) : Nat → Nat := fun n => n.casesOn 0 fun k => τ k + 1
    refine ⟨⟨shift σ, shift σ.symm, fun n => ?_, fun n => ?_⟩, fun n => ?_⟩
    · cases n <;> simp [shift]
    · cases n <;> simp [shift]
    · cases n with
      | zero => rfl
      | succ k => simpa [shift] using hσ k
  | swap x y l =>
    refine ⟨.swap 0 1, fun n => ?_⟩
    match n with
    | 0 => simp
    | 1 => simp
    | k + 2 => simp [Equiv.swap_apply_of_ne_of_ne]
  | trans _ _ ih ih' =>
    obtain ⟨σ, hσ⟩ := ih
    obtain ⟨τ, hτ⟩ := ih'
    exact ⟨σ.trans τ, fun n => (hτ (σ n)).trans (hσ n)⟩

/-! ## Adding instructions -/

namespace Build

def add (r : Request) : Build Unit :=
  addInstruction r.owner { time := r.time, action := r.action } r.site 0

/-- Adds instructions one after another, as long as all of them are accepted. -/
def addAll (rs : List Request) : Build Unit := rs.forM add

end Build

namespace Shot

variable {s s' s₁ s₂ : Shot} {σ : Equiv.Perm Nat} {raw : Bool}

/-- The instruction that an order leads to. -/
def ordered (s : Shot) (o : Order) : Instruction :=
  s.placedInstruction o.owner { time := o.time, action := o.action } {}

theorem sameBench_withInstruction {h : Host} {site : Site} (i : Instruction) :
    SameBench s (s.withInstruction h i site) where
  settings := settings_withInstruction i
  master := master_withInstruction i
  children := by cases h <;> rfl
  devices := map_device?_withInstruction _ i fun _ _ => rfl
  waitDelay := by cases h <;> rfl
  stopTime := by cases h <;> rfl
  limitsAt id := elim_congr_map (map_device?_withInstruction _ i (fun _ _ => rfl) id)

/-- Instructions are added behind those that are there, and nothing else changes. -/
theorem addAll_eq_ok {rs : List Request} (h : (Build.addAll rs).run s = .ok () s') : SameBench s s' ∧
    s'.instructions.toList.map Instruction.siteless =
      s.instructions.toList.map Instruction.siteless ++ (rs.map Request.toOrder).map s.ordered := by
  induction rs generalizing s with
  | nil =>
    cases h
    exact ⟨.refl _, by simp⟩
  | cons r rs ih =>
    obtain ⟨⟨⟩, t, ht, hrest⟩ := run_bind_eq_ok.mp h
    obtain ⟨-, -, rfl⟩ := addInstruction_eq_ok ht
    obtain ⟨hbench, hlist⟩ := ih hrest
    have hordered : (s.withInstruction r.owner { time := r.time, action := r.action } r.site).ordered =
        s.ordered := by
      funext o
      simp only [ordered, placedInstruction, clockBelow_withInstruction]
    refine ⟨(sameBench_withInstruction _).trans hbench, ?_⟩
    rw [hlist, hordered, instructions_withInstruction]
    simp [ordered, Instruction.siteless, placedInstruction]

theorem Grown.addAll (h : s.Grown raw) {rs : List Request} (ha : (Build.addAll rs).run s = .ok () s') :
    s'.Grown raw ∧ s'.phase = s.phase := by
  induction rs generalizing s with
  | nil =>
    cases ha
    exact ⟨h, rfl⟩
  | cons r rs ih =>
    obtain ⟨⟨⟩, t, ht, hrest⟩ := run_bind_eq_ok.mp ha
    have hedit : Edit s t := .instruction ⟨rfl, rfl⟩ ht
    obtain ⟨hgrown, hphase⟩ := ih (h.change (.edit hedit)) hrest
    exact ⟨hgrown, hphase.trans hedit.phase_eq⟩

/-- The same orders in another order lead to the same instructions under other numbers. -/
theorem renumbers_of_addAll {rs₁ rs₂ : List Request}
    (hperm : (rs₁.map Request.toOrder).Perm (rs₂.map Request.toOrder))
    (h₁ : (Build.addAll rs₁).run s = .ok () s₁) (h₂ : (Build.addAll rs₂).run s = .ok () s₂) : ∃ σ, Renumbers σ s₁ s₂ := by
  obtain ⟨hbench₁, hlist₁⟩ := addAll_eq_ok h₁
  obtain ⟨hbench₂, hlist₂⟩ := addAll_eq_ok h₂
  have hlists : (s₁.instructions.toList.map Instruction.siteless).Perm
      (s₂.instructions.toList.map Instruction.siteless) := by
    rw [hlist₁, hlist₂]
    exact (hperm.map _).append_left _
  obtain ⟨σ, hσ⟩ := exists_renumbering hlists
  refine ⟨σ, hbench₁.symm.trans hbench₂, fun id => ?_⟩
  simpa [instruction?] using hσ id

/-! ## The rules do not look at the numbers -/

namespace Renumbers

theorem exists_entry (h : Renumbers σ s s') {e : Entry} (he : e.IsIn s) :
    ∃ site, (e.under σ site).IsIn s' :=
  h.exists_instruction he

theorem contains (h : Renumbers σ s s') {e : Entry} {site : Site}
    (hc : s.Contains (e.under σ.symm site)) : s'.Contains e where
  start := hc.start
  duration := hc.duration
  samples := hc.samples
  stop := by
    rw [h.stopTime, h.settings, h.toSameTree.timebase]
    exact hc.stop
  waits := by
    intro hd w hw hk hlt
    obtain ⟨site', hw'⟩ := h.symm.exists_entry hw
    rw [h.settings, h.toSameTree.timebase]
    exact hc.waits hd (w.under σ.symm site') hw' hk hlt

theorem drives (h : Renumbers σ s s') {line : Nat} {e : Entry} (hd : s'.Drives line e) :
    ∃ site, s.Drives line (e.under σ.symm site) := by
  obtain ⟨hin, ht, p, hshare, hon⟩ := hd
  obtain ⟨site, hin'⟩ := h.symm.exists_entry hin
  exact ⟨site, hin', ht, p, h.toSameTree.sharesClock.mp hshare, hon⟩

theorem paces (h : Renumbers σ s s') {line : Nat} (hp : s.Paces line) : s'.Paces line where
  pulses := by
    rw [h.limitsAt]
    exact hp.pulses
  samples := by
    intro e he hpoint hpos
    obtain ⟨site, he'⟩ := h.drives he
    rw [h.limitsAt]
    exact hp.samples (e.under σ.symm site) he' hpoint hpos
  edges := by
    intro a b ha hb hseg m n hm hn hlt
    obtain ⟨site, ha'⟩ := h.drives ha
    obtain ⟨site', hb'⟩ := h.drives hb
    rw [h.limitsAt]
    exact hp.edges (a.under σ.symm site) (b.under σ.symm site') ha' hb' hseg m n hm hn hlt

/-- A pulse is one between the counterparts of its ends. -/
theorem among (h : Renumbers σ s s') {trigger : Nat} {p : HighTime}
    (hp : p.Among fun e => e.IsIn s' ∧ e.IsOn trigger) : ∃ rise fall,
      HighTime.Among ⟨p.rise.under σ.symm rise, p.fall.under σ.symm fall⟩
        fun e => e.IsIn s ∧ e.IsOn trigger := by
  obtain ⟨rise, hrise⟩ := h.symm.exists_entry hp.there.1.1
  obtain ⟨fall, hfall⟩ := h.symm.exists_entry hp.there.2.1
  refine ⟨rise, fall, ⟨⟨hrise, hp.there.1.2⟩, hfall, hp.there.2.2⟩, hp.rise, hp.fall, hp.segment,
    hp.ordered, ?_, ?_⟩
  · rintro e ⟨hin, hon⟩ hafter hbefore
    obtain ⟨site, hin'⟩ := h.exists_entry hin
    exact hp.run (e.under σ site) ⟨hin', hon⟩ hafter hbefore
  · rintro e ⟨hin, hon⟩ hbefore hseg hhigh
    obtain ⟨site, hin'⟩ := h.exists_entry hin
    obtain ⟨l, ⟨hl, hlon⟩, hel, hlr, hlow⟩ := hp.first (e.under σ site) ⟨hin', hon⟩ hbefore hseg hhigh
    obtain ⟨site', hl'⟩ := h.symm.exists_entry hl
    exact ⟨_, ⟨hl', hlon⟩, hel, hlr, hlow⟩

theorem triggers (h : Renumbers σ s s') {trigger : Nat} (ht : s.Triggers trigger) :
    s'.Triggers trigger := by
  unfold Triggers at ht ⊢
  rw [h.limitsAt]
  refine ht.imp_right fun hall p hp => ?_
  obtain ⟨rise, fall, hp'⟩ := h.among hp
  rw [h.toSameTree.timebase]
  exact hall ⟨p.rise.under σ.symm rise, p.fall.under σ.symm fall⟩ hp'

/-- A shot is as legal as the same shot under other numbers. -/
theorem legal (h : Renumbers σ s s') (hl : s.Legal) : s'.Legal where
  waits := by
    intro w hw hk
    obtain ⟨site, hw'⟩ := h.symm.exists_entry hw
    exact hl.waits (w.under σ.symm site) hw' hk
  contains := by
    intro e he ht
    obtain ⟨site, he'⟩ := h.symm.exists_entry he
    exact h.contains (hl.contains (e.under σ.symm site) he' ht)
  apart := by
    intro a b ha hb hta htb hab hne
    obtain ⟨site, ha'⟩ := h.symm.exists_entry ha
    obtain ⟨site', hb'⟩ := h.symm.exists_entry hb
    exact hl.apart (a.under σ.symm site) (b.under σ.symm site') ha' hb' hta htb hab
      fun he => hne (σ.symm.injective he)
  lines := by
    intro line hk
    exact h.paces (hl.lines line (h.kind? line ▸ hk))
  triggers := by
    intro trigger hk
    exact h.triggers (hl.triggers trigger (h.kind? trigger ▸ hk))
  statics := by
    intro a b ha hb hka hkb hab
    obtain ⟨site, ha'⟩ := h.symm.exists_entry ha
    obtain ⟨site', hb'⟩ := h.symm.exists_entry hb
    exact σ.symm.injective
      (hl.statics (a.under σ.symm site) (b.under σ.symm site') ha' hb' hka hkb hab)

end Renumbers

end Shot

namespace Compile
open Shot

variable {p p' q q' : Progress} {σ : Equiv.Perm Nat} {time : Float} {raw : Bool}

/-- Two stops end well, or in faults of the same kind. -/
inductive EndAlike : EStateM.Result Fault Progress Unit → EStateM.Result Fault Progress Unit → Prop
  | ok (q q' : Progress) : EndAlike (.ok () q) (.ok () q')
  | error {e e' : Fault} (q q' : Progress) : e.SameKind e' → EndAlike (.error e q) (.error e' q')

/-- What is timed of a shot and of the same shot under other numbers agrees on counterparts. -/
theorem renumbers_of_resolve (hq : (resolve time).run p = .ok () q)
    (hq' : (resolve time).run p' = .ok () q') (h : Renumbers σ p.shot p'.shot)
    (hs : p.shot.Stoppable) (hs' : p'.shot.Stoppable) : Renumbers σ q.shot q'.shot := by
  obtain ⟨ht, hw, -⟩ := answers_of_run hs hq
  have hsame : p'.shot.sortedTimes = p.shot.sortedTimes := h.sortedTimes hs.wellFormed hs'.wellFormed ht hw
  have hstop : (p.shot.stopped time).WellFormed := (sameLinks_stopped _ _).wellFormed hs.wellFormed
  have hstop' : (p'.shot.stopped time).WellFormed := (sameLinks_stopped _ _).wellFormed hs'.wellFormed
  rw [(resolved_of_run hs hq).1, (resolved_of_run hs' hq').1]
  exact (h.stopped time).timed hstop hstop' hsame

/-- A stop of the same shot under other numbers ends alike. -/
theorem endAlike_of_renumbers (h : Renumbers σ p.shot p'.shot) (hs : p.shot.Stoppable)
    (hs' : p'.shot.Stoppable) (hp : p.shot.IsPlain) :
    EndAlike ((stop time).run p) ((stop time).run p') := by
  have hwf := hs.wellFormed
  have hwf' := hs'.wellFormed
  by_cases ht : p.shot.EndsBy time
  · have ht' := h.endsBy ht
    by_cases hw : p.shot.WaitsApart
    · have hw' := h.waitsApart hwf hwf' hw
      have hsame := h.sortedTimes hwf hwf' ht hw
      by_cases hf : p.shot.AllFit
      · obtain ⟨m, hq⟩ := run_resolve_fit hs ht hw hf
        obtain ⟨m', hq'⟩ := run_resolve_fit hs' ht' hw' (h.allFit hsame hf)
        have hres := renumbers_of_resolve hq hq' h hs hs'
        rcases run_stop_of_resolved hs hp hq with ⟨hl, n, hrun⟩ | ⟨hl, r, e, hrun⟩ <;>
          rcases run_stop_of_resolved hs' (h.toSameTree.isPlain hp) hq' with
            ⟨hl', n', hrun'⟩ | ⟨hl', r', e', hrun'⟩ <;> rw [hrun, hrun']
        · exact .ok _ _
        · exact absurd (hres.legal hl) hl'
        · exact absurd (hres.symm.legal hl') hl
        · exact .error _ _ (.invalid r r')
      · have hf' : ¬ p'.shot.AllFit := mt (h.symm.allFit hsame.symm) hf
        obtain ⟨f, r, hrun⟩ := run_resolve_misfit hs ht hw hf
        obtain ⟨f', r', hrun'⟩ := run_resolve_misfit hs' ht' hw' hf'
        rw [run_stop_of_error hrun, run_stop_of_error hrun']
        exact .error _ _ (.quantisation f f')
    · obtain ⟨a, b, m, -, hrun⟩ := run_resolve_clash hs ht hw
      obtain ⟨a', b', m', -, hrun'⟩ := run_resolve_clash hs' ht' (mt (h.symm.waitsApart hwf' hwf) hw)
      rw [run_stop_of_error hrun, run_stop_of_error hrun']
      exact .error _ _ (.structural rfl)
  · obtain ⟨id, -, hrun⟩ := run_resolve_late hs ht
    obtain ⟨id', -, hrun'⟩ := run_resolve_late hs' (mt h.symm.endsBy ht)
    rw [run_stop_of_error hrun, run_stop_of_error hrun']
    exact .error _ _ (.structural rfl)

/-- Instructions that are added in two orders are counterparts of each other. The stops end alike, and
whatever is timed in both is timed alike. -/
theorem stop_of_reordered {s s₁ s₂ : Shot} {rs₁ rs₂ : List Request} (h : s.Reachable raw)
    (hp : s.IsPlain) (ha : s.phase = .addInstructions)
    (hperm : (rs₁.map Request.toOrder).Perm (rs₂.map Request.toOrder))
    (h₁ : (Build.addAll rs₁).run s = .ok () s₁) (h₂ : (Build.addAll rs₂).run s = .ok () s₂)
    (time : Float) (m₁ m₂ : Array Message) :
    (∃ σ, Renumbers σ s₁ s₂) ∧ EndAlike ((stop time).run ⟨s₁, m₁⟩) ((stop time).run ⟨s₂, m₂⟩) ∧
    ∀ σ q₁ q₂, Renumbers σ s₁ s₂ → (resolve time).run ⟨s₁, m₁⟩ = .ok () q₁ →
      (resolve time).run ⟨s₂, m₂⟩ = .ok () q₂ → ∀ id,
        (q₂.shot.instruction? (σ id)).map (·.timing) = (q₁.shot.instruction? id).map (·.timing) := by
  obtain ⟨hgrown₁, hphase₁⟩ := h.grown.addAll h₁
  obtain ⟨hgrown₂, hphase₂⟩ := h.grown.addAll h₂
  have hs₁ := hgrown₁.stoppable (hphase₁.trans ha)
  have hs₂ := hgrown₂.stoppable (hphase₂.trans ha)
  obtain ⟨σ, hσ⟩ := renumbers_of_addAll hperm h₁ h₂
  refine ⟨⟨σ, hσ⟩, ?_, fun τ q₁ q₂ hτ hq₁ hq₂ => ?_⟩
  · have hp₁ := (addAll_eq_ok h₁).1.toSameTree.isPlain hp
    exact endAlike_of_renumbers hσ hs₁ hs₂ hp₁
  · have hres := renumbers_of_resolve hq₁ hq₂ hτ hs₁ hs₂
    exact hres.map_instruction? _ fun _ => rfl

/-- A wait, a ramp before it and three points on the other output, two of which are the same. -/
private def asked : List Request := [
  { owner := .shot, time := 20, action := .wait "a" },
  { owner := .device 4, time := 5, action := .function 10 (polynomial [0, 1]) 0.1 },
  { owner := .device 5, time := 15, action := .constant 1 },
  { owner := .device 5, time := 30, action := .constant 2 },
  { owner := .device 5, time := 30, action := .constant 2, site := { line := 7 } }]

/-- Whether instructions are accepted one after another, and then timed. -/
private def isTimed (s : Shot) (rs : List Request) : Bool :=
  match (Build.addAll rs).run s with
  | .ok _ s' => isOk ((resolve 50).run ⟨s', #[]⟩)
  | .error .. => false

private theorem exists_of_isTimed {s : Shot} {rs : List Request} (h : isTimed s rs) :
    ∃ s' q, (Build.addAll rs).run s = .ok () s' ∧ (resolve 50).run ⟨s', #[]⟩ = .ok () q := by
  rw [isTimed] at h
  cases ha : (Build.addAll rs).run s with
  | ok _ s' =>
    rw [ha] at h
    obtain ⟨q, hq⟩ := exists_of_isOk h
    exact ⟨s', q, rfl, hq⟩
  | error e _ =>
    rw [ha] at h
    cases h

/-- Asked for in the opposite order, the same instructions end alike and are timed alike. -/
theorem stop_of_reversed : ∃ (s s₁ s₂ : Shot) (q₁ q₂ : Progress), s.Reachable false ∧
    (Build.addAll asked).run s = .ok () s₁ ∧ (Build.addAll asked.reverse).run s = .ok () s₂ ∧
    (resolve 50).run ⟨s₁, #[]⟩ = .ok () q₁ ∧ (resolve 50).run ⟨s₂, #[]⟩ = .ok () q₂ ∧
    EndAlike ((stop 50).run ⟨s₁, #[]⟩) ((stop 50).run ⟨s₂, #[]⟩) ∧
    ∃ σ : Equiv.Perm Nat, ∀ id, (q₂.shot.instruction? (σ id)).map (·.timing) =
      (q₁.shot.instruction? id).map (·.timing) := by
  have hrun : ((Session.script Session.bench).shot? 0).any fun s => s.IsPlain ∧
      s.phase = .addInstructions ∧ isTimed s asked ∧ isTimed s asked.reverse := by decide +kernel
  obtain ⟨s, hs, hp⟩ := (Option.any_eq_true _ _).mp hrun
  obtain ⟨hplain, hphase, htimed₁, htimed₂⟩ := of_decide_eq_true hp
  obtain ⟨s₁, q₁, h₁, hq₁⟩ := exists_of_isTimed htimed₁
  obtain ⟨s₂, q₂, h₂, hq₂⟩ := exists_of_isTimed htimed₂
  have hr : s.Reachable false := reachable_of_script (by decide) hs
  have hperm : (asked.map Request.toOrder).Perm (asked.reverse.map Request.toOrder) :=
    asked.reverse_perm.symm.map _
  obtain ⟨⟨σ, hσ⟩, halike, htiming⟩ := stop_of_reordered hr hplain hphase hperm h₁ h₂ 50 #[] #[]
  exact ⟨s, s₁, s₂, q₁, q₂, hr, h₁, h₂, hq₁, hq₂, halike, σ, htiming σ q₁ q₂ hσ hq₁ hq₂⟩

end Compile
end ShotTiming
