import ShotTiming.Proofs.Compile.Settled
import ShotTiming.Proofs.Session.Clocks
import ShotTiming.Proofs.Shot.Segments

/-! # What the timing of a shot means

A conversion that ends well counts the waits in front of every instruction and puts it on the ticks of
its clock. The definition knows neither the search among the waits nor the order in which the
instructions were created.
-/
namespace ShotTiming
open Number

namespace Shot

/-- The grid of a clock. -/
def gridOf (s : Shot) (clock : Option Nat) : Grid :=
  ⟨s.timebaseOf clock, s.settings.rounding, s.settings.tolerance⟩

/-- An instruction has a tick of a grid, counted from the start of its segment. -/
structure Places (s : Shot) (g : Grid) (e : Entry) : Prop where
  relative : ∃ start, s.SegmentStart e.timing.segment start ∧
    e.timing.relative = e.instruction.time - start
  ticks : g.Accepts e.timing.relative e.timing.ticks

/-- A wait ends the segment of the waits that come before it. -/
structure TimesWait (s : Shot) (w : Entry) : Prop where
  segment : w.timing.segment = s.countWaits (· < w.instruction.time)
  position : s.waits[w.timing.segment]? = some w.id
  place : s.Places (s.gridOf s.masterClock) w
  unclocked : s.masterClock = none → w.timing.ticks = 0

/-- The extent of an instruction on a grid; what is not sampled has no period. -/
structure Extends (g : Grid) (e : Entry) : Prop where
  duration : g.Accepts e.instruction.action.duration e.timing.duration
  sampled : 0 < e.instruction.action.sampleRate →
    g.Accepts (1 / e.instruction.action.sampleRate) e.timing.samplePeriod
  unsampled : ¬ 0 < e.instruction.action.sampleRate → e.timing.samplePeriod = 0

/-- An instruction at the time of a wait is in the segment after the wait. -/
structure TimesTimed (s : Shot) (e : Entry) : Prop where
  segment : e.timing.segment = s.countWaits (· ≤ e.instruction.time)
  next : ∀ w, s.waitAfter? e = some w → s.IsFirstAfter e.instruction.time w
  last : s.waitAfter? e = none → ∀ w : Entry, w.IsIn s → w.instruction.kind = .wait →
    ¬ e.instruction.time < w.instruction.time
  clock : ∃ p c, e.IsOn p ∧ s.clockBelow (.device p) = some c ∧
    s.Places (s.gridOf (some c)) e ∧ Extends (s.gridOf (some c)) e

/-- The timing of a shot is what it is defined to be. -/
structure MeetsTiming (s : Shot) : Prop where
  converted : ∀ e : Entry, e.IsIn s → e.instruction.converted
  mem_waits : ∀ w : Entry, w.IsIn s → (w.id ∈ s.waits ↔ w.instruction.kind = .wait)
  rising : (s.entries s.waits.toList).Pairwise fun a b => a.instruction.time < b.instruction.time
  boundaries : (s.entries s.waits.toList).map (·.timing.boundary) = List.range' 1 s.waits.size
  waits : ∀ w : Entry, w.IsIn s → w.instruction.kind = .wait → s.TimesWait w
  timed : ∀ e : Entry, e.IsIn s → e.IsTimed → s.TimesTimed e
  statics : ∀ e : Entry, e.IsIn s → e.instruction.kind = .static →
    e.timing.segment = 0 ∧ e.timing.relative = 0 ∧ e.timing.ticks = 0

variable {s : Shot} {e w : Entry}

theorem grid_of_wait {i : Instruction} (hk : i.kind = .wait) : s.grid i = s.gridOf s.masterClock := by
  unfold grid gridOf timebase
  unfold Instruction.kind at hk
  cases ha : i.action <;> simp_all [Action.kind]

theorem grid_of_timed {i : Instruction} (ht : i.kind.isTimed) : s.grid i = s.gridOf i.clock := by
  unfold grid gridOf timebase
  unfold Instruction.kind at ht
  cases ha : i.action <;> simp_all [Action.kind, InstructionKind.isTimed]

/-- On the grid of a clock only numbers have a tick. -/
theorem Places.not_isNaN {g : Grid} (h : s.Places g e) (hg : 0 < g.timebase) :
    ¬ e.instruction.time.isNaN := by
  intro hnan
  obtain ⟨start, -, hrelative⟩ := h.relative
  refine h.ticks.not_isNaN hg ?_
  rw [hrelative]
  exact isNaN_sub start hnan

namespace InPlace

section

variable (h : s.InPlace) (he : e.IsIn s)

include h he

theorem places (hk : e.instruction.kind ≠ .static) : s.Places (s.grid e.instruction) e := by
  obtain ⟨t, hplaced⟩ := h.placed e he
  obtain ⟨hsegment, hrelative, hticks⟩ := Placing.start_eq_ok hk hplaced
  refine ⟨⟨_, h.segmentStart (h.segment_le he hk), ?_⟩, Grid.place_eq_ok.mp hticks⟩
  rw [hsegment]
  exact hrelative

theorem extends_timed (ht : e.IsTimed) : Extends (s.grid e.instruction) e := by
  obtain ⟨t, hplaced⟩ := h.placed e he
  obtain ⟨-, -, -, hduration, hperiod⟩ := Placing.instruction_eq_ok ht hplaced
  refine ⟨Grid.place_eq_ok.mp hduration, fun hr => ?_, fun hr => ?_⟩
  · rw [if_pos hr] at hperiod
    exact Grid.place_eq_ok.mp hperiod
  · rwa [if_neg hr] at hperiod

variable (hp : s.KeepsTables)

include hp

theorem not_isNaN_of_wait (hk : e.instruction.kind = .wait) : ¬ e.instruction.time.isNaN := by
  have hown : e.id ∈ s.ownInstructions.toList := h.waits.mem_iff.mp ((h.mem_waits hp he).mpr hk).val
  obtain ⟨i, hi, hnan⟩ := h.isTimely e.id (by simpa using hown)
  cases he.symm.trans hi
  exact hnan

theorem timesWait (hk : e.instruction.kind = .wait) : s.TimesWait e := by
  obtain ⟨k, hget⟩ := h.exists_index hp he hk
  have hplace : s.Places (s.gridOf s.masterClock) e := grid_of_wait hk ▸ h.places he (by simp [hk])
  refine ⟨?_, ?_, hplace, fun hnone => hplace.ticks.eq_zero ?_⟩
  · exact (h.segment_of_wait he hk).trans (h.split_waitTimes hp (h.initial_before h.isTimely _))
  · rw [h.segment_eq_index he hk hget, hget]
  · have hzero : s.timebaseOf s.masterClock = 0 := by rw [hnone]; rfl
    exact hzero ▸ (by decide : (0 : Float) ≤ 0)

/-- Where the waits are numbers, those that do not come after a time are those up to it. -/
theorem segment_eq_countWaits (ht : e.IsTimed) (hnan : ¬ e.instruction.time.isNaN) :
    e.timing.segment = s.countWaits (· ≤ e.instruction.time) := by
  rw [h.segment_of_timed he ht, h.split_waitTimes hp (h.initial_not_before h.isTimely _)]
  refine countWaits_congr fun w hw hk => ?_
  rw [← decide_not, decide_eq_decide]
  exact Double.not_lt_iff hnan (h.not_isNaN_of_wait hw hp hk)

theorem timesTimed (hc : s.Clocked) (ht : e.IsTimed) : s.TimesTimed e := by
  obtain ⟨p, c, ho, -, hclock, hbelow⟩ := hc.clock_of_timed h.wellFormed hp he ht
  have hgrid : s.grid e.instruction = s.gridOf (some c) := by rw [grid_of_timed ht, hclock]
  have hpseudo := (hc.of_clockBelow h.wellFormed.devices hbelow).1
  have hstatic : e.instruction.kind ≠ .static := by
    intro hk
    rw [Entry.IsTimed, hk] at ht
    cases ht
  have hplaces : s.Places (s.gridOf (some c)) e := hgrid ▸ h.places he hstatic
  have hnan := hplaces.not_isNaN (hc.timebase_pos hpseudo)
  refine ⟨h.segment_eq_countWaits he hp ht hnan, fun w hw => h.isFirstAfter he hp ht hw, ?_, ?_⟩
  · exact fun hnone w hw hk => h.not_before he hp ht hnone hw hk
  · exact ⟨p, c, ho, hbelow, hplaces, hgrid ▸ h.extends_timed he ht⟩

end

/-- In the order of the waits, each ends the segment behind that of the one before it. -/
theorem boundaries (h : s.InPlace) (hp : s.KeepsTables) :
    (s.entries s.waits.toList).map (·.timing.boundary) = List.range' 1 s.waits.size := by
  have hat : s.waits.toList.map (fun id => (s.instruction? id).map (·.timing.boundary)) =
      (List.range' 1 s.waits.size).map some := by
    refine List.ext_getElem (by simp) fun k hk _ => ?_
    have hlt : k < s.waits.size := by simpa using hk
    obtain ⟨i, hi⟩ := h.exists_wait (Array.getElem_mem hlt)
    have hw : (Entry.mk s.waits[k] i).IsIn s := hi
    have hkind := (h.mem_waits hp hw).mp (Array.getElem_mem hlt)
    have hsegment : i.timing.segment = k := h.segment_eq_index hw hkind (Array.getElem?_eq_getElem hlt)
    simp only [List.getElem_map, Array.getElem_toList, hi, Option.map_some, List.getElem_range',
      Timing.boundary, hsegment, Nat.one_mul, Nat.add_comm]
  have hentries : (s.entries s.waits.toList).map (·.timing.boundary) =
      (s.waits.toList.map fun id => (s.instruction? id).map (·.timing.boundary)).filterMap id := by
    rw [entries, List.map_filterMap, List.filterMap_map]
    refine List.filterMap_congr fun id _ => ?_
    simp [Function.comp_def, Entry.timing]
  rw [hentries, hat, List.filterMap_map]
  exact List.filterMap_some

theorem meetsTiming (h : s.InPlace) (hc : s.Clocked) (hp : s.KeepsTables) : s.MeetsTiming where
  converted e he := h.converted e.id e.instruction he
  mem_waits _ hw := h.mem_waits hp hw
  rising := by
    refine h.inOrder.rising fun w hw => ?_
    obtain ⟨hid, hin⟩ := mem_entries.mp hw
    exact h.not_isNaN_of_wait hin hp ((h.mem_waits hp hin).mp (by simpa using hid))
  boundaries := h.boundaries hp
  waits _ hw hk := h.timesWait hw hp hk
  timed _ he ht := h.timesTimed he hp hc ht
  statics e he hk := by
    obtain ⟨t, hplaced⟩ := h.placed e he
    rw [Placing.static_eq_ok hk hplaced]
    exact ⟨rfl, rfl, rfl⟩

end InPlace

/-- The timed shot has its instructions in place if the times of its waits are numbers. -/
theorem WellFormed.inPlace_timed (hw : s.WellFormed) (hphase : s.phase = .convertTiming)
    (hclash : s.firstClash? s.sortedWaits = none) (hfit : s.AllFit)
    (hn : ∀ w : Entry, w.IsIn s → w.instruction.kind = .wait → ¬ w.instruction.time.isNaN) :
    s.timed.InPlace where
  toSettled := hw.settled_timed hphase hclash hfit
  isTimely id hid := by
    have hlinks := sameLinks_timed hw
    have hown : id ∈ s.instructionsOf .shot :=
      (hlinks.listed .shot).mem_iff.mp (by simpa [instructionsOf] using hid)
    have ho := hw.instructions.mem_instructionsOf.mp hown
    obtain ⟨i, hi⟩ := exists_instruction (lt_of_owner? ho)
    have hk := hw.isWait_of_own hi (by simpa [owner?, hi] using ho)
    exact (hlinks.isTimely id).mpr ⟨i, hi, hn ⟨id, i⟩ hi hk⟩
  placed e he := by
    obtain ⟨j, -, hplacing⟩ := hw.placing_timed hfit he
    exact ⟨j.timing, hplacing⟩

end Shot

namespace Compile
open Shot

variable {p q : Progress} {raw : Bool}

/-- A conversion that ends well times every instruction as it is defined, whatever the instructions are
and in whichever order they were created. -/
theorem meetsTiming_of_convertTiming (h : p.shot.Reachable raw) (ht : p.shot.KeepsTables)
    (hn : ∀ w : Entry, w.IsIn p.shot → w.instruction.kind = .wait → ¬ w.instruction.time.isNaN)
    (hq : convertTiming.run p = .ok () q) : q.shot.MeetsTiming := by
  have hw := h.grown.wellFormed
  obtain ⟨hphase, hclash, hfit, hshot⟩ := timed_of_convertTiming hw hq
  have hlinks := sameLinks_timed hw
  rw [hshot]
  exact (hw.inPlace_timed hphase hclash hfit hn).meetsTiming (hlinks.clocked h.grown.clocked)
    (hlinks.toSameTree.keepsTables ht)

/-- Two waits, the later one first, a value at the time of each, and a ramp between them. -/
private def interrupted : List Command := Session.bench ++ [
  .addInstruction 0 (.shot 0) (.wait 40 "second") {},
  .addInstruction 0 (.shot 0) (.wait 20 "first") {},
  .issue (.device 0 4) (.constant 40 1) {},
  .issue (.device 0 4) (.constant 20 1) {},
  .issue (.device 0 5) (.function 25 10 (some (polynomial [0, 1])) 0.5) {},
  .nextPhase 0]

theorem meetsTiming_of_interrupted : ∃ p q : Progress, p.shot.Reachable false ∧ p.shot.KeepsTables ∧
    (∀ w : Entry, w.IsIn p.shot → w.instruction.kind = .wait → ¬ w.instruction.time.isNaN) ∧
    convertTiming.run p = .ok () q ∧ q.shot.MeetsTiming ∧ q.shot.waits = #[1, 0] ∧
    q.shot.instructions.toList.map (·.timing.segment) = [1, 0, 2, 1, 1] := by
  have hrun : ((Session.script interrupted).shot? 0).any fun s => s.KeepsTables ∧
      (∀ i ∈ s.instructions.toList, i.kind = .wait → ¬ i.time.isNaN) ∧
      isOk (convertTiming.run ⟨s, #[]⟩) ∧ (after convertTiming ⟨s, #[]⟩).shot.waits = #[1, 0] ∧
      (after convertTiming ⟨s, #[]⟩).shot.instructions.toList.map (·.timing.segment) =
        [1, 0, 2, 1, 1] := by decide +kernel
  obtain ⟨s, hs, hp⟩ := (Option.any_eq_true _ _).mp hrun
  obtain ⟨ht, hn, hok, hwaits, hsegments⟩ := of_decide_eq_true hp
  have hr : s.Reachable false := reachable_of_script (by decide) hs
  have hnan : ∀ w : Entry, w.IsIn s → w.instruction.kind = .wait → ¬ w.instruction.time.isNaN :=
    fun w hw => hn w.instruction (Array.mem_of_getElem? hw).val
  obtain ⟨q, hq⟩ := exists_of_isOk hok
  rw [after, hq] at hwaits hsegments
  exact ⟨⟨s, #[]⟩, q, hr, ht, hnan, hq, meetsTiming_of_convertTiming hr ht hnan hq, hwaits, hsegments⟩

end Compile
end ShotTiming
