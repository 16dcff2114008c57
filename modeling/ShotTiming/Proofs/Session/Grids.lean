import ShotTiming.Proofs.Compile.Placing
import ShotTiming.Proofs.Session
import ShotTiming.Proofs.Shot.History
import ShotTiming.Proofs.Ticks.Bounds

/-! # Converted instructions are on their grids

The conversion of an instruction puts it on the grid of its clock. It is made once, and nothing that the grid
rests on changes afterwards, so every converted instruction has the tick of its time.
-/
namespace ShotTiming
open Number

namespace Shot

variable {s s' : Shot} {raw : Bool}

/-- A converted instruction has had its call, and the tick that its grid accepts for its time. -/
structure OnGrid (s : Shot) (id : Nat) (i : Instruction) : Prop where
  called : s.calls.called (Node.instruction id).ref .convertTiming
  accepts : i.kind ≠ .static → (s.grid i).Accepts i.timing.relative i.timing.ticks

/-- All that have been converted are on their grids. -/
def KeepsGrids (s : Shot) : Prop :=
  ∀ id i, s.instruction? id = some i → i.converted → s.OnGrid id i

theorem SameTree.grid (h : SameTree s s') (i : Instruction) : s'.grid i = s.grid i := by
  unfold Shot.grid
  rw [h.timebase, h.settings]

private theorem keepsGrids_of_early (hu : s.UntimedEarly) (hp : s.phase.rank < Phase.convertTiming.rank) :
    s.KeepsGrids := by
  intro id i hi hconverted
  rw [(hu hp id i hi).1] at hconverted
  cases hconverted

namespace KeepsGrids

private theorem of_eq (hs : s.KeepsGrids) (ht : SameTree s s')
    (hi : ∀ id, s'.instruction? id = s.instruction? id)
    (hc : ∀ {r}, s.calls.called r .convertTiming → s'.calls.called r .convertTiming) : s'.KeepsGrids := by
  intro id i h hconverted
  obtain ⟨hcalled, haccepts⟩ := hs id i (hi id ▸ h) hconverted
  exact ⟨hc hcalled, ht.grid i ▸ haccepts⟩

/-- What the conversion of an instruction leaves is on the grid, if it is converted. -/
private theorem accepts_placed (waits : Array Float) {i : Instruction} (hi : i.converted = false)
    (hconverted : (s.placed waits i).converted) (hk : (s.placed waits i).kind ≠ .static) :
    (s.grid (s.placed waits i)).Accepts (s.placed waits i).timing.relative
      (s.placed waits i).timing.ticks := by
  obtain ⟨t, ht⟩ := (converted_placed waits hi).mp hconverted
  have hplaced : s.placed waits i = { i with timing := t, converted := true } := by
    unfold Shot.placed
    rw [ht]
  rw [hplaced] at hk ⊢
  exact Grid.place_eq_ok.mp (Placing.start_eq_ok hk ht).2.2

private theorem convert {id : Nat} {i : Instruction} {calls : Calls} (waits : Array Float)
    (hs : s.KeepsGrids) (hc : s.calls.enter (Node.instruction id).ref .convertTiming = .ok calls)
    (hi : s.instruction? id = some i) :
    (({ s with calls } : Shot).setInstruction id (s.placed waits)).KeepsGrids := by
  have hcalls : SameLinks s { s with calls } := .of_eq rfl rfl rfl rfl rfl rfl
  have htree : SameTree s (({ s with calls } : Shot).setInstruction id (s.placed waits)) :=
    (hcalls.trans (SameLinks.setInstruction fun j _ => fixed_placed waits j)).toSameTree
  -- an instruction that has not had its call is not converted yet
  have hfresh : i.converted = false := by
    by_contra hconverted
    have hcalled := (hs id i hi (by simpa using hconverted)).called
    rw [(Calls.enter_eq_ok.mp hc).2.1] at hcalled
    cases hcalled
  intro k j hj hconverted
  rw [instruction?_setInstruction] at hj
  have hkept : ∀ {r}, s.calls.called r .convertTiming → calls.called r .convertTiming :=
    fun h => Calls.called_mono hc h
  by_cases hk : k = id
  · subst hk
    rw [if_pos rfl, show ({ s with calls } : Shot).instruction? k = some i from hi] at hj
    obtain rfl : s.placed waits i = j := Option.some_inj.mp hj
    refine ⟨(Calls.called_of_enter hc).mpr (.inr ⟨rfl, rfl, rfl⟩), fun hk => ?_⟩
    rw [htree.grid]
    exact accepts_placed waits hfresh hconverted hk
  · rw [if_neg hk] at hj
    obtain ⟨hcalled, haccepts⟩ := hs k j hj hconverted
    exact ⟨hkept hcalled, htree.grid j ▸ haccepts⟩

private theorem edit (he : Edit s s') (hs : s.KeepsGrids)
    (hp : ¬ s.phase.rank < Phase.convertTiming.rank) : s'.KeepsGrids := by
  have hearly : ∀ {ph : Phase}, s.phase = ph → ph.rank < Phase.convertTiming.rank → s'.KeepsGrids :=
    fun h hlt => absurd (h ▸ hlt) hp
  have hmono : ∀ {r}, s.calls.called r .convertTiming → s'.calls.called r .convertTiming :=
    fun h => he.called_mono h
  cases he with
  | device _ ha => exact hearly (addDevice_eq_ok ha).1.phase (by decide)
  | instruction _ ha => exact hearly (addInstruction_eq_ok ha).1.phase (by decide)
  | configure _ _ h | limits _ _ h | attributes _ _ _ h | waitDelay _ h | stopTime _ h =>
    exact hearly h (by decide)
  | enter | waits | report => exact hs.of_eq ⟨rfl, rfl, rfl, fun _ => rfl⟩ (fun _ => rfl) hmono
  | convert waits hc hi => exact hs.convert waits hc hi
  | sort id _ => exact hs.of_eq (sameLinks_sortOutput id).toSameTree (fun _ => rfl) hmono

end KeepsGrids

/-- Whatever happens to a shot, its converted instructions are on their grids. -/
theorem Grown.keepsGrids (h : s.Grown raw) : s.KeepsGrids := by
  refine h.induction (fun t ht => ?_) fun t t' ht hc hs => ?_
  · have hg : t.Grown raw := ⟨t, ht, .refl⟩
    exact keepsGrids_of_early hg.untimedEarly (ht.phase ▸ by decide)
  · have hg := ht.change hc
    by_cases hp : t'.phase.rank < Phase.convertTiming.rank
    · exact keepsGrids_of_early hg.untimedEarly hp
    · cases hc with
      | edit he => exact hs.edit he (he.phase_eq ▸ hp)
      | mark _ hm => exact hs.of_eq ⟨rfl, rfl, rfl, fun _ => rfl⟩ (fun _ => rfl) fun h => Calls.called_mono hm h
      | @advance calls ha =>
        refine hs.of_eq ⟨rfl, rfl, rfl, fun _ => rfl⟩ (fun _ => rfl) fun h => ?_
        rw [Calls.called, (Calls.advance?_eq_some.mp ha).2]
        exact h

/-- A clock that rounds up gives no time a tick of more than one above it, and none that is below it but by a
share of the tick: that is at most half a tick, and at most a hundredth of one up to ten million ticks. So it
is for a time that has a count, and for the instructions of a shot that rounds up, which have counts. -/
theorem roundsUp_of_grown (value timebase : Float) (hpos : 0 < timebase) :
    (fitsInt64 (value / timebase) → RoundsUp (value / timebase) (toTicks value timebase .up).ticks) ∧
    ∀ (raw : Bool) (s : Shot), s.Grown raw → s.settings.rounding = .up → ∀ id i,
      s.instruction? id = some i → i.converted → i.timing.relative = value → s.timebase i = timebase →
        RoundsUp (value / timebase) i.timing.ticks := by
  refine ⟨roundsUp_toTicks hpos, ?_⟩
  rintro raw s h hup id i hi hconverted rfl rfl
  have hstatic : i.kind ≠ .static := by
    intro hk
    have hzero : s.timebase i = 0 := by
      unfold Instruction.kind at hk
      unfold timebase
      cases ha : i.action <;> rw [ha] at hk <;> first | rfl | cases hk
    rw [hzero] at hpos
    exact absurd hpos (Double.lt_irrefl 0)
  exact ((h.keepsGrids id i hi hconverted).accepts hstatic).roundsUp hpos hup

/-- A value between two ticks, on a bench that rounds up. -/
private def between : List Command := [
  .openShot "bench" { rounding := .up } {},
  .addDevice 0 (.shot 0) { name := "master", equipment := .pseudoclockDevice 0 } {},
  .addDevice 0 (.device 0 0) { name := "clock", equipment := .pseudoclock ⟨1, 0, 10⟩ } {},
  .addDevice 0 (.device 0 1) { name := "line", equipment := .clockLine } {},
  .addDevice 0 (.device 0 2) { name := "card", equipment := .clockableDevice 0 0 } {},
  .addDevice 0 (.device 0 3) { name := "a", equipment := .output } {},
  .start 0,
  .issue (.device 0 4) (.constant 12.25 1) {},
  .stop 0 100]

theorem roundsUp_of_between : (0 : Float) < 1 ∧ RoundsUp (12.25 / 1) (toTicks 12.25 1 .up).ticks ∧
    ∃ (s : Shot) (i : Instruction), s.Grown false ∧ s.settings.rounding = .up ∧
      s.instruction? 0 = some i ∧ i.converted ∧ i.timing.ticks = 13 ∧
      RoundsUp (12.25 / 1) i.timing.ticks := by
  obtain ⟨hcount, hinstructions⟩ := roundsUp_of_grown 12.25 1 (by decide)
  refine ⟨by decide, hcount (by decide +kernel), ?_⟩
  have hrun : ((Session.script between).shot? 0).any fun s => s.settings.rounding = .up ∧
      (s.instruction? 0).any fun i => i.converted ∧ i.timing.relative = 12.25 ∧ s.timebase i = 1 ∧
        i.timing.ticks = 13 := by
    decide +kernel
  obtain ⟨s, hs, hp⟩ := (Option.any_eq_true _ _).mp hrun
  obtain ⟨hup, hi⟩ := of_decide_eq_true hp
  obtain ⟨i, hi, hd⟩ := (Option.any_eq_true _ _).mp hi
  obtain ⟨hconverted, htime, hbase, hticks⟩ := of_decide_eq_true hd
  have hgrown : s.Grown false := (reachable_of_script (by decide) hs).grown
  exact ⟨s, i, hgrown, hup, hi, hconverted, hticks,
    hinstructions false s hgrown hup 0 i hi hconverted htime hbase⟩

/-- A long time that gets a tick of more than a hundredth before it. -/
theorem not_short_of_long : ¬ ∀ value timebase : Float, 0 < timebase → fitsInt64 (value / timebase) →
    rational (value / timebase) - (toTicks value timebase .up).ticks ≤ 1 / 100 ∧
      (toTicks value timebase .up).ticks - rational (value / timebase) < 1 := by
  intro hall
  have hlong := (hall 100000000.05 1 (by decide) (by decide +kernel)).1
  exact absurd hlong (by decide +kernel)

end Shot

end ShotTiming
