import ShotTiming.Proofs.Shot.Change

/-! # What the history of a shot shows

Properties that hold of a new shot and that every change keeps: calls are marked only up to the
phase, instructions are untimed before their phase and placed by their call, and no phase is left with
required calls missing.
-/
namespace ShotTiming
open Relation

theorem Phase.rank_next {p q : Phase} (h : p.next? = some q) : q.rank = p.rank + 1 := by
  revert h
  cases p <;> cases q <;> decide

theorem Phase.rank_inj {p q : Phase} (h : p.rank = q.rank) : p = q := by
  revert h
  cases p <;> cases q <;> decide

namespace Shot

variable {s s' : Shot} {raw : Bool}

theorem mem_nodes {n : Node} :
    n ∈ s.nodes ↔ match n with
      | .shot => True
      | .device id => id < s.devices.size
      | .instruction id => id < s.instructions.size := by
  cases n <;> simp [nodes]

/-- An edit of the record of calls enters a call. -/
theorem Edit.calls_cases (he : Edit s s') :
    s'.calls = s.calls ∨ ∃ r o, s.calls.enter r o = .ok s'.calls := by
  cases he with
  | device _ ha =>
    obtain ⟨-, rfl⟩ := addDevice_eq_ok ha
    exact .inl (calls_withDevice _)
  | instruction _ ha =>
    obtain ⟨-, -, rfl⟩ := addInstruction_eq_ok ha
    exact .inl (calls_withInstruction _)
  | enter _ hc => exact .inr ⟨_, _, hc⟩
  | convert _ hc _ => exact .inr ⟨_, _, hc⟩
  | _ => exact .inl rfl

/-- Nodes are added in their phases only. -/
theorem Edit.nodes_cases (he : Edit s s') {n : Node} (hn : n ∈ s'.nodes) :
    n ∈ s.nodes ∨ (n.ref.type = .device ∧ s.phase = .addDevices) ∨
      (n.ref.type = .instruction ∧ s.phase = .addInstructions) := by
  rcases he.adds_or_sameLinks with ⟨h, d, site, -, ha, rfl⟩ | ⟨h, i, site, -, ha, -, rfl⟩ | hl
  · rw [mem_nodes] at hn ⊢
    cases n with
    | device id => exact .inr (.inl ⟨rfl, ha.phase⟩)
    | shot => exact .inl trivial
    | instruction id => exact .inl (by simpa using hn)
  · rw [mem_nodes] at hn ⊢
    cases n with
    | instruction id => exact .inr (.inr ⟨rfl, ha.phase⟩)
    | shot => exact .inl trivial
    | device id => exact .inl (by simpa using hn)
  · left
    rw [mem_nodes] at hn ⊢
    cases n with
    | shot => trivial
    | device id => exact hl.devices_size ▸ hn
    | instruction id => exact hl.instructions_size ▸ hn

theorem Grown.change (h : s.Grown raw) (hc : Change raw s s') : s'.Grown raw := by
  obtain ⟨s₀, h₀, h⟩ := h
  exact ⟨s₀, h₀, h.tail hc⟩

/-- A property of new shots that every change keeps holds as long as a shot exists. -/
theorem Grown.induction {motive : Shot → Prop} (hnew : ∀ s : Shot, s.IsNew → motive s)
    (hchange : ∀ s s', s.Grown raw → Change raw s s' → motive s → motive s') (h : s.Grown raw) :
    motive s := by
  obtain ⟨s₀, h₀, h⟩ := h
  induction h with
  | refl => exact hnew _ h₀
  | tail h hc ih => exact hchange _ _ ⟨s₀, h₀, h⟩ hc ih

theorem Grown.wellFormed (h : s.Grown raw) : s.WellFormed :=
  h.induction (fun _ h₀ => h₀.wellFormed) fun _ _ _ hc hs => hc.wellFormed hs

theorem IsNew.eq (hs : s.IsNew) : ∃ name settings site, s = { name, settings, site } := by
  obtain ⟨name, settings, site, h⟩ := hs
  obtain ⟨_, -, h⟩ := bind_eq_ok.mp h
  exact ⟨name, settings, site, (Except.ok.inj h).symm⟩

theorem IsNew.phase (hs : s.IsNew) : s.phase = .addDevices := by
  obtain ⟨name, settings, site, rfl⟩ := hs.eq
  rfl

theorem IsNew.not_called (hs : s.IsNew) (r : NodeRef) (o : Operation) : s.calls.called r o = false := by
  obtain ⟨name, settings, site, rfl⟩ := hs.eq
  simp [Calls.called]

theorem Change.phase_rank (hc : Change raw s s') : s.phase.rank ≤ s'.phase.rank := by
  cases hc with
  | edit he => exact Nat.le_of_eq (congrArg Phase.rank he.phase_eq.symm)
  | mark _ hm => exact Nat.le_of_eq (congrArg Phase.rank (Calls.phase_of_enter hm).symm)
  | @advance calls ha =>
    have hrank : calls.phase.rank = s.phase.rank + 1 :=
      Phase.rank_next (Calls.advance?_eq_some.mp ha).1
    exact hrank ▸ Nat.le_succ _

theorem Edit.called_mono (he : Edit s s') {r : NodeRef} {o : Operation} (hc : s.calls.called r o) :
    s'.calls.called r o := by
  rcases he.calls_cases with hcalls | ⟨q, p, hp⟩
  · rwa [hcalls]
  · exact Calls.called_mono hp hc

theorem called_of_edits (h : ReflTransGen Edit s s') {r : NodeRef} {o : Operation}
    (hc : s.calls.called r o) : s'.calls.called r o := by
  induction h with
  | refl => exact hc
  | tail _ he ih => exact he.called_mono ih

/-- Nothing is added once the timing is converted. -/
theorem Change.sameLinks (hc : Change raw s s') (hp : Phase.convertTiming.rank ≤ s.phase.rank) :
    SameLinks s s' := by
  have hlate : ∀ {ph : Phase}, s.phase = ph → ph.rank < Phase.convertTiming.rank → SameLinks s s' :=
    fun h hlt => absurd (h ▸ hp) (Nat.not_le_of_lt hlt)
  rcases hc.adds_or_sameLinks with ⟨h, d, site, -, ha, rfl⟩ | ⟨h, i, site, -, ha, -, rfl⟩ | hl
  · exact hlate ha.phase (by decide)
  · exact hlate ha.phase (by decide)
  · exact hl

/-! ## Calls are marked up to the phase -/

/-- No call of a later phase is marked. -/
def MarkedUpTo (s : Shot) : Prop :=
  ∀ r o, s.calls.called r o → o.phase.rank ≤ s.phase.rank

private theorem MarkedUpTo.enter {r : NodeRef} {o : Operation} (hs : s.MarkedUpTo)
    (hm : s.calls.enter r o = .ok s'.calls) : s'.MarkedUpTo := by
  intro q p hq
  have hphase : s'.phase = s.phase := Calls.phase_of_enter hm
  rw [hphase]
  rcases (Calls.called_of_enter hm).mp hq with hq | ⟨-, rfl, -⟩
  · exact hs q p hq
  · exact Nat.le_of_eq (congrArg Phase.rank (Calls.enter_eq_ok.mp hm).1)

theorem Change.markedUpTo (hc : Change raw s s') (hs : s.MarkedUpTo) : s'.MarkedUpTo := by
  cases hc with
  | edit he =>
    rcases he.calls_cases with hcalls | ⟨r, o, ho⟩
    · intro q p hq
      rw [he.phase_eq]
      exact hs q p (hcalls ▸ hq)
    · exact hs.enter ho
  | mark _ hm => exact hs.enter hm
  | @advance calls ha =>
    intro q p hq
    obtain ⟨hnext, hmade⟩ := Calls.advance?_eq_some.mp ha
    have hrank : calls.phase.rank = s.phase.rank + 1 := Phase.rank_next hnext
    have hold := hs q p (by rwa [Calls.called, ← hmade])
    exact Nat.le_trans hold (hrank ▸ Nat.le_succ _)

theorem Grown.markedUpTo (h : s.Grown raw) : s.MarkedUpTo :=
  h.induction (fun _ hs r o hc => by simp [hs.not_called] at hc) fun _ _ _ hc hs => hc.markedUpTo hs

/-! ## The shot lists its instructions as they were created -/

theorem Edit.own_increasing (he : Edit s s') (hw : s.WellFormed)
    (hs : (s.instructionsOf .shot).Pairwise (· < ·)) : (s'.instructionsOf .shot).Pairwise (· < ·) := by
  cases he with
  | device hd ha =>
    obtain ⟨-, rfl⟩ := addDevice_eq_ok ha
    rwa [instructionsOf_withDevice _ hd.instructions]
  | @instruction _ h i site _ _ ha =>
    obtain ⟨hadmits, -, rfl⟩ := addInstruction_eq_ok ha
    have hb : ∀ p, h = .device p → p < s.devices.size := by
      rintro p rfl
      exact isBefore_of_takes hadmits.accepted
    rw [instructionsOf_withInstruction i hb]
    split
    · rename_i he
      subst he
      refine List.pairwise_append.mpr ⟨hs, by simp, fun a ha b hb => ?_⟩
      rw [List.mem_singleton.mp hb]
      exact lt_of_owner? (hw.instructions.mem_instructionsOf.mp ha)
    · exact hs
  | _ => exact hs

theorem Grown.own_increasing (h : s.Grown raw) : (s.instructionsOf .shot).Pairwise (· < ·) := by
  refine Grown.induction (motive := fun s => (s.instructionsOf .shot).Pairwise (· < ·))
    (fun t ht => ?_) (fun t t' ht hc hs => ?_) h
  · obtain ⟨name, settings, site, rfl⟩ := ht.eq
    exact .nil
  · cases hc with
    | edit he => exact he.own_increasing ht.wellFormed hs
    | mark | advance => exact hs

/-! ## Instructions are untimed before their phase -/

/-- Instructions have no place on a clock before the timing is converted. -/
def UntimedEarly (s : Shot) : Prop :=
  s.phase.rank < Phase.convertTiming.rank →
    ∀ id i, s.instruction? id = some i → i.converted = false ∧ i.timing = {}

theorem Edit.untimedEarly (he : Edit s s') (hs : s.UntimedEarly) : s'.UntimedEarly := by
  intro hp id j hj
  rw [he.phase_eq] at hp
  cases he with
  | device _ ha =>
    obtain ⟨-, rfl⟩ := addDevice_eq_ok ha
    exact hs hp id j (by simpa [instruction?] using hj)
  | instruction hi ha =>
    obtain ⟨-, -, rfl⟩ := addInstruction_eq_ok ha
    rw [instruction?_withInstruction] at hj
    split at hj
    · cases hj
      exact ⟨hi.converted, hi.timing⟩
    · exact hs hp id j hj
  | convert _ hc _ =>
    have : s.phase = .convertTiming := (Calls.enter_eq_ok.mp hc).1.symm
    rw [this] at hp
    exact absurd hp (Nat.lt_irrefl _)
  | _ => exact hs hp id j hj

theorem Change.untimedEarly (hc : Change raw s s') (hs : s.UntimedEarly) : s'.UntimedEarly := by
  cases hc with
  | edit he => exact he.untimedEarly hs
  | mark hr hm =>
    intro hp
    exact hs (Nat.lt_of_le_of_lt (Change.phase_rank (.mark hr hm)) hp)
  | advance ha h =>
    intro hp
    exact hs (Nat.lt_of_le_of_lt (Change.phase_rank (.advance ha h)) hp)

theorem Grown.untimedEarly (h : s.Grown raw) : s.UntimedEarly := by
  refine h.induction (fun t ht _ id i hi => ?_) fun _ _ _ hc hs => hc.untimedEarly hs
  obtain ⟨name, settings, site, rfl⟩ := ht.eq
  simp [instruction?] at hi

/-! ## Instructions are placed by their call -/

/-- An instruction has no place before its call, and afterwards the one that the call gave it. -/
def PlacedByCall (s : Shot) : Prop :=
  ∀ id i, s.instruction? id = some i →
    if s.calls.called (Node.instruction id).ref .convertTiming then
      ∃ waits, i = s.placed waits i.fixed
    else i = i.fixed

private theorem placedByCall_of_early (hm : s.MarkedUpTo) (hu : s.UntimedEarly)
    (hp : s.phase.rank < Phase.convertTiming.rank) : s.PlacedByCall := by
  intro id i hi
  have hnot : ¬ s.calls.called (Node.instruction id).ref .convertTiming := fun hc =>
    absurd (Nat.lt_of_le_of_lt (hm _ _ hc) hp) (Nat.lt_irrefl _)
  obtain ⟨hconverted, htiming⟩ := hu hp id i hi
  rw [if_neg hnot, Instruction.fixed, ← hconverted, ← htiming]

private theorem PlacedByCall.of_eq (hs : s.PlacedByCall) (hl : SameLinks s s')
    (hw : s'.waitDelay = s.waitDelay) (hi : ∀ id, s'.instruction? id = s.instruction? id)
    (hc : ∀ r, s'.calls.called r .convertTiming ↔ s.calls.called r .convertTiming) :
    s'.PlacedByCall := by
  intro id i h
  rw [hi] at h
  simp only [hc, hl.placed hw]
  exact hs id i h

private theorem PlacedByCall.convert {id : Nat} {i : Instruction} {calls : Calls} (waits : Array Float)
    (hs : s.PlacedByCall) (hw : s.WellFormed)
    (hc : s.calls.enter (Node.instruction id).ref .convertTiming = .ok calls)
    (hi : s.instruction? id = some i) :
    (({ s with calls } : Shot).setInstruction id (s.placed waits)).PlacedByCall := by
  have hcalls : SameLinks s { s with calls } := .of_eq rfl rfl rfl rfl rfl rfl
  have hlinks : SameLinks s (({ s with calls } : Shot).setInstruction id (s.placed waits)) :=
    hcalls.trans (SameLinks.setInstruction fun j _ => fixed_placed waits j)
  intro k j hj
  have hcalled := Calls.called_of_enter (q := (Node.instruction k).ref) (p := .convertTiming) hc
  rw [instruction?_setInstruction] at hj
  simp only [calls_setInstruction, hlinks.placed rfl]
  by_cases hk : k = id
  · subst hk
    have hfresh : s.calls.called (Node.instruction k).ref .convertTiming = false :=
      (Calls.enter_eq_ok.mp hc).2.1
    have hfixed : i = i.fixed := by simpa [hfresh] using hs k i hi
    have hplaced : j = s.placed waits i := by
      rw [if_pos rfl, show ({ s with calls } : Shot).instruction? k = some i from hi] at hj
      exact (Option.some_inj.mp hj).symm
    rw [if_pos (hcalled.mpr (.inr ⟨rfl, rfl, rfl⟩))]
    refine ⟨waits, ?_⟩
    rw [hplaced, fixed_placed, ← hfixed]
  · rw [if_neg hk] at hj
    have hsame : calls.called (Node.instruction k).ref .convertTiming ↔
        s.calls.called (Node.instruction k).ref .convertTiming := by
      rw [hcalled, or_iff_left]
      rintro ⟨hr, -⟩
      have hlt : ∀ {m l}, s.instruction? m = some l → m < arenaCapacity := fun h =>
        Nat.lt_of_lt_of_le (instruction?_eq_some h) hw.instructions_fit
      exact hk (Node.instruction_ref_inj (hlt hj) (hlt hi) hr)
    simp only [hsame]
    exact hs k j hj

private theorem Edit.placedByCall (he : Edit s s') (hw : s.WellFormed) (hs : s.PlacedByCall)
    (hp : ¬ s.phase.rank < Phase.convertTiming.rank) : s'.PlacedByCall := by
  have hearly : ∀ {ph : Phase}, s.phase = ph → ph.rank < Phase.convertTiming.rank → s'.PlacedByCall :=
    fun h hlt => absurd (h ▸ hlt) hp
  cases he with
  | device _ ha => exact hearly (addDevice_eq_ok ha).1.phase (by decide)
  | instruction _ ha => exact hearly (addInstruction_eq_ok ha).1.phase (by decide)
  | configure _ _ h | limits _ _ h | attributes _ _ _ h | waitDelay _ h | stopTime _ h =>
    exact hearly h (by decide)
  | enter ho hc =>
    refine hs.of_eq (.of_eq rfl rfl rfl rfl rfl rfl) rfl (fun _ => rfl) fun r => ?_
    exact (Calls.called_of_enter hc).trans (or_iff_left fun h => ho h.2.1.symm)
  | waits | report => exact hs.of_eq (.of_eq rfl rfl rfl rfl rfl rfl) rfl (fun _ => rfl) fun _ => .rfl
  | convert waits hc hi => exact hs.convert waits hw hc hi
  | sort id _ => exact hs.of_eq (sameLinks_sortOutput id) rfl (fun _ => rfl) fun _ => .rfl

theorem Grown.placedByCall (h : s.Grown false) : s.PlacedByCall := by
  refine h.induction (fun t ht => ?_) fun t t' ht hc hs => ?_
  · have hg : t.Grown false := ⟨t, ht, .refl⟩
    exact placedByCall_of_early hg.markedUpTo hg.untimedEarly (ht.phase ▸ by decide)
  · have hg := ht.change hc
    by_cases hp : t'.phase.rank < Phase.convertTiming.rank
    · exact placedByCall_of_early hg.markedUpTo hg.untimedEarly hp
    · cases hc with
      | edit he => exact he.placedByCall ht.wellFormed hs (he.phase_eq ▸ hp)
      | mark hraw _ => cases hraw
      | @advance calls ha =>
        refine hs.of_eq (.of_eq rfl rfl rfl rfl rfl rfl) rfl (fun _ => rfl) fun r => ?_
        rw [Calls.called, (Calls.advance?_eq_some.mp ha).2, Calls.called]

/-! ## No phase is left with calls missing -/

/-- Every node has had the calls that were required of it in earlier phases. -/
def Gated (s : Shot) : Prop :=
  ∀ n ∈ s.nodes, ∀ o : Operation, o.isOnce → o.isRequiredOn n.ref.type →
    o.phase.rank < s.phase.rank → s.calls.called n.ref o

/-- What is required of a node is required in a phase after the one that it is added in. -/
private theorem not_required_of_new {t : NodeType} {ph : Phase} {o : Operation}
    (h : (t = .device ∧ ph = .addDevices) ∨ (t = .instruction ∧ ph = .addInstructions))
    (hr : o.isRequiredOn t) : ¬ o.phase.rank < ph.rank := by
  rcases h with ⟨rfl, rfl⟩ | ⟨rfl, rfl⟩ <;> revert hr <;> cases o <;> decide

theorem firstMissing?_eq_none :
    s.firstMissing? = none ↔ ∀ n ∈ s.nodes, s.calls.missing? n.ref = none := by
  simp [firstMissing?, List.findSome?_eq_none_iff]

theorem Change.gated (hc : Change false s s') (hs : s.Gated) : s'.Gated := by
  intro n hn o ho hr hlt
  cases hc with
  | edit he =>
    rw [he.phase_eq] at hlt
    have hcalled : s.calls.called n.ref o := by
      rcases he.nodes_cases hn with hn | hn
      · exact hs n hn o ho hr hlt
      · exact absurd hlt (not_required_of_new hn hr)
    exact he.called_mono hcalled
  | mark hraw _ => cases hraw
  | @advance calls ha h =>
    obtain ⟨hnext, hmade⟩ := Calls.advance?_eq_some.mp ha
    have hrank : calls.phase.rank = s.phase.rank + 1 := Phase.rank_next hnext
    have hn' : n ∈ s.nodes := hn
    have hcalled : s.calls.called n.ref o := by
      by_cases hearlier : o.phase.rank < s.phase.rank
      · exact hs n hn' o ho hr hearlier
      · have hphase : o.phase = s.phase := Phase.rank_inj (by
          have : o.phase.rank < calls.phase.rank := hlt
          omega)
        have hnone := firstMissing?_eq_none.mp (by simpa using h) n hn'
        exact Calls.missing?_eq_none.mp hnone o hphase ho hr
    rwa [Calls.called, hmade]

theorem Grown.gated (h : s.Grown false) : s.Gated := by
  refine h.induction (fun t ht n _ o _ _ hlt => ?_) fun _ _ _ hc hs => hc.gated hs
  obtain ⟨name, settings, site, rfl⟩ := ht.eq
  exact absurd hlt (Nat.not_lt_zero _)

end Shot

end ShotTiming
