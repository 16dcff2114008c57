import ShotTiming.Proofs.Session.Gate

/-! # The results of a phase last

Once a shot has left a phase, no command changes what the phase was for: the tree of devices, their
limits, their places in time, the instructions, and at last the timing of the instructions. Raw calls do
not get around it, since the write itself asks for the phase and the phase never moves back.
-/
namespace ShotTiming
open Relation

namespace Shot

def HasLeft (s : Shot) (p : Phase) : Prop := p.rank < s.phase.rank

/-- A part of every device is as it was, and there are no others. -/
def SameOn {α : Type} (part : Device → α) (s s' : Shot) : Prop :=
  ∀ id, (s'.device? id).map part = (s.device? id).map part

/-- What the phases that a shot has left were for is as it was. -/
structure KeepsResults (s s' : Shot) : Prop where
  tree : s.HasLeft .addDevices →
    SameTree s s' ∧ SameOn (fun d => (d.outputDelay, d.initialTrigger)) s s'
  limits : s.HasLeft .establishLimits → SameOn (·.limits) s s'
  attributes : s.HasLeft .establishAttributes →
    s'.waitDelay = s.waitDelay ∧ SameOn (fun d => (d.start, d.latency)) s s'
  instructions : s.HasLeft .addInstructions → s'.stopTime = s.stopTime ∧ SameLinks s s'
  timing : s.HasLeft .convertTiming →
    s'.waits = s.waits ∧ s'.instructions = s.instructions ∧
      ∀ h, s'.instructionsOf h = s.instructionsOf h

variable {s s' s'' : Shot} {p q : Phase} {raw : Bool} {α : Type} {part : Device → α}

theorem HasLeft.mono (h : s.HasLeft p) (hr : s.phase.rank ≤ s'.phase.rank) : s'.HasLeft p :=
  Nat.lt_of_lt_of_le h hr

theorem HasLeft.not_in (h : s.HasLeft p) (hq : s.phase = q) (hle : q.rank ≤ p.rank) : False := by
  unfold HasLeft at h
  rw [hq] at h
  omega

namespace SameOn

theorem refl (s : Shot) : SameOn part s s := fun _ => rfl

theorem trans (h : SameOn part s s') (h' : SameOn part s' s'') : SameOn part s s'' :=
  fun id => (h' id).trans (h id)

theorem comp {β : Type} (f : α → β) (h : SameOn part s s') : SameOn (f ∘ part) s s' := by
  intro id
  rw [← Option.map_map, h id, Option.map_map]

theorem setDevice {id : Nat} {f : Device → Device}
    (hf : ∀ d, s.device? id = some d → part (f d) = part d) : SameOn part s (s.setDevice id f) :=
  map_device?_setDevice part hf

end SameOn

/-- After the devices are added, an edit leaves a part of the devices alone that is neither their
list of instructions nor what the phase is for. -/
theorem Edit.sameOn (he : Edit s s') (hleft : s.HasLeft .addDevices)
    (hlists : ∀ (d : Device) is, part { d with instructions := is } = part d)
    (hlimits : s.phase = .establishLimits → ∀ (d : Device) limits, part { d with limits } = part d)
    (hattributes : s.phase = .establishAttributes →
      ∀ (d : Device) start latency, part { d with start, latency } = part d) : SameOn part s s' := by
  cases he with
  | device _ ha => exact (hleft.not_in (addDevice_eq_ok ha).1.phase (Nat.le_refl _)).elim
  | configure _ _ hp => exact (hleft.not_in hp (Nat.le_refl _)).elim
  | @instruction _ h i site _ _ ha =>
    obtain ⟨-, -, rfl⟩ := addInstruction_eq_ok ha
    exact map_device?_withInstruction part i hlists
  | limits id limits hp => exact .setDevice fun d _ => hlimits hp d limits
  | attributes id start latency hp => exact .setDevice fun d _ => hattributes hp d start latency
  | sort id _ => exact .setDevice fun d _ => hlists d _
  | enter | waitDelay | stopTime | waits | convert | report => exact .refl _

private theorem Edit.sameTree (he : Edit s s') (hleft : s.HasLeft .addDevices) : SameTree s s' := by
  rcases he.adds_or_sameLinks with ⟨h, d, site, -, ha, rfl⟩ | ⟨h, i, site, -, ha, -, rfl⟩ | hl
  · exact (hleft.not_in ha.phase (Nat.le_refl _)).elim
  · have hdevices : SameOn Device.fixed s (s.withInstruction h i site) :=
      he.sameOn hleft (fun _ _ => rfl) (fun _ _ _ => rfl) fun _ _ _ _ => rfl
    exact ⟨settings_withInstruction i, master_withInstruction i, by cases h <;> rfl, hdevices⟩
  · exact hl.toSameTree

private theorem Edit.sameLinks (he : Edit s s') (hleft : s.HasLeft .addInstructions) :
    SameLinks s s' := by
  rcases he.adds_or_sameLinks with ⟨h, d, site, -, ha, rfl⟩ | ⟨h, i, site, -, ha, -, rfl⟩ | hl
  · exact (hleft.not_in ha.phase (by decide)).elim
  · exact (hleft.not_in ha.phase (Nat.le_refl _)).elim
  · exact hl

theorem Edit.keepsResults (he : Edit s s') : KeepsResults s s' where
  tree hleft := by
    refine ⟨he.sameTree hleft, ?_⟩
    exact he.sameOn hleft (fun _ _ => rfl) (fun _ _ _ => rfl) fun _ _ _ _ => rfl
  limits hleft := by
    have hearlier : s.HasLeft .addDevices := Nat.lt_trans (by decide) hleft
    exact he.sameOn hearlier (fun _ _ => rfl) (fun hp => (hleft.not_in hp (Nat.le_refl _)).elim)
      fun _ _ _ _ => rfl
  attributes hleft := by
    have hearlier : s.HasLeft .addDevices := Nat.lt_trans (by decide) hleft
    refine ⟨?_, he.sameOn hearlier (fun _ _ => rfl) (fun _ _ _ => rfl)
      fun hp => (hleft.not_in hp (Nat.le_refl _)).elim⟩
    cases he with
    | device _ ha => exact (hearlier.not_in (addDevice_eq_ok ha).1.phase (Nat.le_refl _)).elim
    | @instruction _ h _ _ _ _ ha =>
      obtain ⟨-, -, rfl⟩ := addInstruction_eq_ok ha
      cases h <;> rfl
    | waitDelay _ hp => exact (hleft.not_in hp (Nat.le_refl _)).elim
    | _ => rfl
  instructions hleft := by
    refine ⟨?_, he.sameLinks hleft⟩
    cases he with
    | device _ ha => exact (hleft.not_in (addDevice_eq_ok ha).1.phase (by decide)).elim
    | instruction _ ha => exact (hleft.not_in (addInstruction_eq_ok ha).1.phase (Nat.le_refl _)).elim
    | stopTime _ hp => exact (hleft.not_in hp (Nat.le_refl _)).elim
    | _ => rfl
  timing hleft := by
    cases he with
    | device _ ha => exact (hleft.not_in (addDevice_eq_ok ha).1.phase (by decide)).elim
    | instruction _ ha => exact (hleft.not_in (addInstruction_eq_ok ha).1.phase (by decide)).elim
    | configure _ _ hp | limits _ _ hp | attributes _ _ _ hp =>
      exact (hleft.not_in hp (by decide)).elim
    | waits hp | sort _ hp => exact (hleft.not_in hp (Nat.le_refl _)).elim
    | convert _ hc _ => exact (hleft.not_in (Calls.enter_eq_ok.mp hc).1.symm (Nat.le_refl _)).elim
    | enter | waitDelay | stopTime | report => exact ⟨rfl, rfl, fun h => by cases h <;> rfl⟩

namespace KeepsResults

theorem of_calls (calls : Calls) : KeepsResults s { s with calls } where
  tree _ := ⟨⟨rfl, rfl, rfl, fun _ => rfl⟩, fun _ => rfl⟩
  limits _ := fun _ => rfl
  attributes _ := ⟨rfl, fun _ => rfl⟩
  instructions _ := ⟨rfl, .of_eq rfl rfl rfl rfl rfl rfl⟩
  timing _ := ⟨rfl, rfl, fun h => by cases h <;> rfl⟩

theorem refl (s : Shot) : KeepsResults s s := of_calls s.calls

theorem trans (hr : s.phase.rank ≤ s'.phase.rank) (h : KeepsResults s s')
    (h' : KeepsResults s' s'') : KeepsResults s s'' where
  tree hl :=
    ⟨(h.tree hl).1.trans (h'.tree (hl.mono hr)).1, (h.tree hl).2.trans (h'.tree (hl.mono hr)).2⟩
  limits hl := (h.limits hl).trans (h'.limits (hl.mono hr))
  attributes hl := by
    obtain ⟨hwait, hplaces⟩ := h.attributes hl
    obtain ⟨hwait', hplaces'⟩ := h'.attributes (hl.mono hr)
    exact ⟨hwait'.trans hwait, hplaces.trans hplaces'⟩
  instructions hl := by
    obtain ⟨hstop, hlinks⟩ := h.instructions hl
    obtain ⟨hstop', hlinks'⟩ := h'.instructions (hl.mono hr)
    exact ⟨hstop'.trans hstop, hlinks.trans hlinks'⟩
  timing hl := by
    obtain ⟨hwaits, harena, hlists⟩ := h.timing hl
    obtain ⟨hwaits', harena', hlists'⟩ := h'.timing (hl.mono hr)
    exact ⟨hwaits'.trans hwaits, harena'.trans harena, fun k => (hlists' k).trans (hlists k)⟩

end KeepsResults

theorem Change.keepsResults (hc : Change raw s s') : KeepsResults s s' := by
  cases hc with
  | edit he => exact he.keepsResults
  | mark | advance => exact .of_calls _

theorem keepsResults_of_run (h : ReflTransGen (Change raw) s s') : KeepsResults s s' := by
  induction h with
  | refl => exact .refl s
  | tail hr hc ih => exact ih.trans (phase_rank_of_run hr) hc.keepsResults

end Shot

namespace Session

variable {s s' : Session} {k : Nat} {a : Shot}

/-- Whatever commands follow, raw ones and failing ones included, a shot keeps the results of the phases
that it has left. -/
theorem keepsResults_of_reachable (hr : Reachable true s) (hk : s.shot? k = some a)
    (hn : ReflTransGen (Next true) s s') : ∃ b, s'.shot? k = some b ∧ a.KeepsResults b := by
  obtain ⟨b, hb, hchanges⟩ := Shot.changes_of_run hr hn hk
  exact ⟨b, hb, Shot.keepsResults_of_run hchanges⟩

/-- Two constants that are given to an output in the wrong order. -/
private def crossed : List Command := bench ++ [
  .issue (.device 0 4) (.constant 20 1) {},
  .issue (.device 0 4) (.constant 0 1) {}]

/-- Afterwards two commands that come too late, and a stop. -/
private def uncrossed : Session :=
  (((script crossed).carryOut (.setOutputDelay (.device 0 4) 1)).carryOut
    (.establishAttributes (.shot 0))).carryOut (.stop 0 100)

theorem keepsResults_of_crossed : ∃ (s s' : Session) (a b : Shot), Reachable true s ∧
    ReflTransGen (Next true) s s' ∧ s.shot? 0 = some a ∧ s'.shot? 0 = some b ∧
    a.HasLeft .establishAttributes ∧ a.KeepsResults b ∧
    a.instructionsOf (.device 4) = [0, 1] ∧ b.instructionsOf (.device 4) = [1, 0] := by
  have hrun : ((script crossed).shot? 0).any fun a => a.phase = .addInstructions ∧
      a.instructionsOf (.device 4) = [0, 1] := by decide +kernel
  have hlater : (uncrossed.shot? 0).any fun b => b.instructionsOf (.device 4) = [1, 0] := by
    decide +kernel
  obtain ⟨a, ha, hp⟩ := (Option.any_eq_true _ _).mp hrun
  obtain ⟨b, hb, hlist⟩ := (Option.any_eq_true _ _).mp hlater
  obtain ⟨hphase, hlists⟩ := of_decide_eq_true hp
  have hr : Reachable true (script crossed) := reachable_script fun _ _ => .inl rfl
  have hn : ReflTransGen (Next true) (script crossed) uncrossed :=
    ((ReflTransGen.single ⟨_, .inl rfl, rfl⟩).tail ⟨_, .inl rfl, rfl⟩).tail ⟨_, .inl rfl, rfl⟩
  obtain ⟨b', hb', hkeeps⟩ := keepsResults_of_reachable hr ha hn
  cases hb.symm.trans hb'
  refine ⟨_, _, a, b, hr, hn, ha, hb, ?_, hkeeps, hlists, of_decide_eq_true hlist⟩
  unfold Shot.HasLeft
  rw [hphase]
  decide

end Session
end ShotTiming
