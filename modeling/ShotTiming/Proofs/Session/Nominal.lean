import ShotTiming.Proofs.Session.Lists
import ShotTiming.Proofs.Session.Resolution
import ShotTiming.Proofs.Ticks.Order

/-! # Compiled order refines nominal order

The search among the waits, the change of the origin at each of them and the rounding to ticks all keep the
order of the times, whatever the rounding and the tolerance.
-/
namespace ShotTiming
open Number

/-- An instruction is not placed behind another one. -/
def Entry.IsUpTo (a b : Entry) : Prop :=
  a.timing.segment < b.timing.segment ∨
    (a.timing.segment = b.timing.segment ∧ a.timing.ticks ≤ b.timing.ticks)

/-- Two instructions share the segment and the tick. -/
def Entry.Shares (a b : Entry) : Prop :=
  a.timing.segment = b.timing.segment ∧ a.timing.ticks = b.timing.ticks

theorem Entry.IsUpTo.shares {a b : Entry} (h : a.IsUpTo b) (h' : b.IsUpTo a) : a.Shares b := by
  unfold IsUpTo at h h'
  unfold Shares
  omega

theorem Entry.StandsBefore.isUpTo {a b : Entry} (h : a.StandsBefore b) : a.IsUpTo b := by
  unfold StandsBefore at h
  unfold IsUpTo
  omega

/-- Whatever the waits, what is later is in no earlier segment, unless it is a wait. -/
theorem segmentOf_mono {i j : Instruction} {waits : Array Float} (hi : i.kind ≠ .wait) (hj : j.kind ≠ .wait)
    (h : i.time ≤ j.time) : segmentOf i waits ≤ segmentOf j waits := by
  have hsplit {k : Instruction} (hk : k.kind ≠ .wait) :
      segmentOf k waits = Sorted.split (fun w => !decide (k.time < w)) waits := by
    unfold segmentOf
    unfold Instruction.kind at hk
    cases ha : k.action <;> first | rfl | (rw [ha] at hk; exact absurd rfl hk)
  rw [hsplit hi, hsplit hj]
  refine Sorted.split_mono fun w hw => ?_
  rw [Bool.not_eq_true', decide_eq_false_iff_not] at hw ⊢
  exact fun hlt => hw (Double.lt_of_le_of_lt h hlt)

namespace Shot

/-- The instructions of a clock are placed in the order of their times, and those at the same time
together. On an output one that was asked for later never stands in front, unless both share the tick. -/
structure RefinesOrder (s : Shot) : Prop where
  earlier : ∀ a b : Entry, a.IsIn s → b.IsIn s → a.IsTimed → b.IsTimed →
    a.instruction.clock = b.instruction.clock → a.instruction.time < b.instruction.time → a.IsUpTo b
  level : ∀ a b : Entry, a.IsIn s → b.IsIn s → a.IsTimed → b.IsTimed →
    a.instruction.clock = b.instruction.clock → (a.instruction.time == b.instruction.time) = true → a.Shares b
  listed : ∀ id k, s.kind? id = some k → k.isOutput →
    (s.entries (s.instructionsOf (.device id))).Pairwise fun a b =>
      a.IsTimed → b.IsTimed → b.instruction.time < a.instruction.time → a.Shares b

variable {s : Shot} {a b : Entry}

/-- What a conversion says of a timed instruction: the segment comes from the waits, and the tick from the
time since the segment started. -/
structure CountsFrom (s : Shot) (e : Entry) : Prop where
  segment : e.timing.segment = segmentOf e.instruction s.waitTimes
  ticks : (s.gridOf e.instruction.clock).Accepts
    (e.instruction.time - segmentStart s.waitTimes s.deadTime e.timing.segment) e.timing.ticks

theorem WellFormed.countsFrom_timed (hs : s.WellFormed) (hf : s.AllFit) (ha : a.IsIn s.timed)
    (ht : a.IsTimed) : s.timed.CountsFrom a := by
  obtain ⟨j, -, hplacing⟩ := hs.placing_timed hf ha
  obtain ⟨hsegment, hrelative, hticks, -⟩ := Placing.instruction_eq_ok ht hplacing
  have haccepts := Grid.place_eq_ok.mp hticks
  refine ⟨hsegment, ?_⟩
  rw [hrelative, ← hsegment] at haccepts
  rw [← grid_of_timed ht]
  exact haccepts

theorem CountsFrom.isUpTo (ha : s.CountsFrom a) (hb : s.CountsFrom b) (hta : a.IsTimed) (htb : b.IsTimed)
    (hclock : a.instruction.clock = b.instruction.clock) (h : a.instruction.time ≤ b.instruction.time) :
    a.IsUpTo b := by
  have hwait {e : Entry} (ht : e.IsTimed) : e.instruction.kind ≠ .wait := by
    intro hk
    rw [Entry.IsTimed, hk] at ht
    cases ht
  have hsegment : a.timing.segment ≤ b.timing.segment := by
    rw [ha.segment, hb.segment]
    exact segmentOf_mono (hwait hta) (hwait htb) h
  rcases Nat.lt_or_eq_of_le hsegment with hlt | heq
  · exact .inl hlt
  · have hticks := hb.ticks
    rw [← hclock, ← heq] at hticks
    exact .inr ⟨heq, ha.ticks.mono_sub hticks h⟩

end Shot

namespace Compile
open Shot

variable {p q : Progress} {raw : Bool}

/-- A conversion that ends well keeps the order of the times. -/
theorem refinesOrder_of_convertTiming (h : p.shot.Reachable raw) (hq : convertTiming.run p = .ok () q) :
    q.shot.RefinesOrder := by
  have hw := h.grown.wellFormed
  obtain ⟨hphase, hclash, hfit, hshot⟩ := timed_of_convertTiming hw hq
  have hsettled := hw.settled_timed hphase hclash hfit
  have hclocked := (sameLinks_timed hw).clocked h.grown.clocked
  have hcounts {e : Entry} (he : e.IsIn p.shot.timed) (ht : e.IsTimed) := hw.countsFrom_timed hfit he ht
  rw [hshot]
  constructor
  case earlier =>
    intro a b ha hb hta htb hclock hlt
    exact (hcounts ha hta).isUpTo (hcounts hb htb) hta htb hclock (Double.le_of_lt hlt)
  case level =>
    intro a b ha hb hta htb hclock heq
    have hle := Double.le_of_beq heq
    have hge := Double.le_of_beq (Double.beq_symm heq)
    exact ((hcounts ha hta).isUpTo (hcounts hb htb) hta htb hclock hle).shares
      ((hcounts hb htb).isUpTo (hcounts ha hta) htb hta hclock.symm hge)
  case listed =>
    intro id k hk ho
    refine (hsettled.inOrder.sorted id k hk ho).imp_of_mem fun {a b} ha hb hstands hta htb hlt => ?_
    obtain ⟨hina, hona⟩ := hsettled.wellFormed.mem_entries_of.mp ha
    obtain ⟨hinb, honb⟩ := hsettled.wellFormed.mem_entries_of.mp hb
    have hclock : b.instruction.clock = a.instruction.clock :=
      ((hclocked.instruction hinb).inherited _ honb).trans ((hclocked.instruction hina).inherited _ hona).symm
    exact hstands.isUpTo.shares
      ((hcounts hinb htb).isUpTo (hcounts hina hta) htb hta hclock (Double.le_of_lt hlt))

/-- A wait, two values between the same ticks, the later one first, and one on another output at the same
time as the first, on a bench that rounds up. -/
private def squeezed : List Command := [
  .openShot "bench" { rounding := .up } {},
  .addDevice 0 (.shot 0) { name := "master", equipment := .pseudoclockDevice 0 } {},
  .addDevice 0 (.device 0 0) { name := "clock", equipment := .pseudoclock ⟨1, 0, 10⟩ } {},
  .addDevice 0 (.device 0 1) { name := "line", equipment := .clockLine } {},
  .addDevice 0 (.device 0 2) { name := "card", equipment := .clockableDevice 0 0 } {},
  .addDevice 0 (.device 0 3) { name := "a", equipment := .output } {},
  .addDevice 0 (.device 0 3) { name := "b", equipment := .output } {},
  .start 0,
  .addInstruction 0 (.shot 0) (.wait 10 "w") {},
  .issue (.device 0 4) (.constant 22.75 1) {},
  .issue (.device 0 4) (.constant 22.25 0) {},
  .issue (.device 0 5) (.constant 22.75 1) {},
  .nextPhase 0]

theorem refinesOrder_of_squeezed : ∃ p q : Progress, p.shot.Reachable false ∧
    convertTiming.run p = .ok () q ∧ q.shot.RefinesOrder ∧
    q.shot.instructions.toList.map (fun i => (i.timing.segment, i.timing.ticks)) =
      [(0, 10), (1, 13), (1, 13), (1, 13)] ∧ q.shot.instructionsOf (.device 4) = [1, 2] := by
  have hrun : ((Session.script squeezed).shot? 0).any fun s =>
      isOk (convertTiming.run ⟨s, #[]⟩) ∧
      (after convertTiming ⟨s, #[]⟩).shot.instructions.toList.map
        (fun i => (i.timing.segment, i.timing.ticks)) = [(0, 10), (1, 13), (1, 13), (1, 13)] ∧
      (after convertTiming ⟨s, #[]⟩).shot.instructionsOf (.device 4) = [1, 2] := by decide +kernel
  obtain ⟨s, hs, hp⟩ := (Option.any_eq_true _ _).mp hrun
  obtain ⟨hok, hticks, hlist⟩ := of_decide_eq_true hp
  have hr : s.Reachable false := reachable_of_script (by decide) hs
  obtain ⟨q, hq⟩ := exists_of_isOk hok
  rw [after, hq] at hticks hlist
  exact ⟨⟨s, #[]⟩, q, hr, hq, refinesOrder_of_convertTiming hr hq, hticks, hlist⟩

end Compile
end ShotTiming
