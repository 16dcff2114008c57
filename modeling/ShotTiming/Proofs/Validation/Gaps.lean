import Mathlib.Data.Set.Card
import ShotTiming.Proofs.Compile.Verdict
import ShotTiming.Proofs.Validation.Report

/-! # Gaps between the ticks of a clock line

The ticks of a segment at which a line has to pulse, without the instructions that need them: every gap
between two of them that follow each other is reported once if it is less than a period, and nothing else is.
-/
namespace ShotTiming

/-- Two ticks of a segment. -/
structure Gap where
  segment : Nat
  earlier : Int
  later : Int
  deriving DecidableEq, Repr

/-- The second of two ticks of a set is the next after the first. -/
structure Gap.IsIn (ticks : Nat → Int → Prop) (g : Gap) : Prop where
  earlier : ticks g.segment g.earlier
  later : ticks g.segment g.later
  rises : g.earlier < g.later
  empty : ∀ tick, ticks g.segment tick → ¬ (g.earlier < tick ∧ tick < g.later)

namespace Pulse
open Sorted

variable {period : Int} {a b c : Pulse} {ps : List Pulse} {g : Gap}

/-- The gap between two pulses of one segment. -/
def gap (n : Pulse × Pulse) : Gap := ⟨n.2.segment, n.1.tick, n.2.tick⟩

/-- Some of the pulses is at a tick. -/
def HaveTick (ps : List Pulse) (segment : Nat) (tick : Int) : Prop :=
  ∃ a ∈ ps, a.segment = segment ∧ a.tick = tick

private theorem not_isBefore_self (a : Pulse) : ¬ isBefore a a := by
  rw [isBefore_iff]
  omega

theorem tooClose_iff_lt (h : ¬ isBefore b a) :
    tooClose period a b ↔ a.segment = b.segment ∧ a.tick < b.tick ∧ b.tick - a.tick < period := by
  rw [isBefore_iff] at h
  simp only [tooClose, Bool.and_eq_true, beq_iff_eq, bne_iff_ne, decide_eq_true_eq]
  omega

/-- Neighbours of a list have some of it in front and the rest behind. -/
theorem mem_neighbours : (a, b) ∈ ps.zip ps.tail ↔ ∃ pre post, ps = pre ++ a :: b :: post := by
  induction ps with
  | nil => simp
  | cons x ps ih =>
    cases ps with
    | nil => simp [List.cons_eq_append_iff]
    | cons y ps =>
      rw [List.tail_cons] at ih
      rw [List.tail_cons, List.zip_cons_cons, List.mem_cons, ih]
      constructor
      · rintro (he | ⟨pre, post, hps⟩)
        · cases he
          exact ⟨[], ps, rfl⟩
        · exact ⟨x :: pre, post, by rw [hps, List.cons_append]⟩
      · rintro ⟨pre, post, hps⟩
        cases pre with
        | nil =>
          cases hps
          exact .inl rfl
        | cons z pre => exact .inr ⟨pre, post, (List.cons.inj hps).2⟩

/-- In order, no pulse is between two neighbours. -/
theorem not_between (h : Ascending isBefore ps) (hn : (a, b) ∈ ps.zip ps.tail) :
    ¬ isBefore b a ∧ ∀ c ∈ ps, ¬ (isBefore a c ∧ isBefore c b) := by
  obtain ⟨pre, post, rfl⟩ := mem_neighbours.mp hn
  obtain ⟨-, hbehind, hfront⟩ := List.pairwise_append.mp h
  obtain ⟨ha, hrest⟩ := List.pairwise_cons.mp hbehind
  refine ⟨ha b (by simp), fun c hc hbetween => ?_⟩
  simp only [List.mem_append, List.mem_cons] at hc
  rcases hc with hc | rfl | rfl | hc
  · exact hfront c hc a (by simp) hbetween.1
  · exact not_isBefore_self _ hbetween.1
  · exact not_isBefore_self _ hbetween.2
  · exact (List.pairwise_cons.mp hrest).1 c hc hbetween.2

/-- In order, two ticks without a pulse in between are those of two neighbours. -/
theorem exists_neighbours (h : Ascending isBefore ps) (hg : g.IsIn (HaveTick ps)) :
    ∃ a b, (a, b) ∈ ps.zip ps.tail ∧ a.segment = b.segment ∧ gap (a, b) = g := by
  obtain ⟨a, ha, hsa, hta⟩ := hg.earlier
  obtain ⟨c, hc, hsc, htc⟩ := hg.later
  have hrises := hg.rises
  -- The first pulse at the later tick has one at the earlier tick just in front of it.
  have hsome : (ps.find? fun b => b.segment = g.segment ∧ b.tick = g.later).isSome :=
    List.find?_isSome.mpr ⟨c, hc, by simp [hsc, htc]⟩
  obtain ⟨b, hfind⟩ := Option.isSome_iff_exists.mp hsome
  obtain ⟨hb, front, post, rfl, hfirst⟩ := List.find?_eq_some_iff_append.mp hfind
  obtain ⟨hsb, htb⟩ := of_decide_eq_true hb
  obtain ⟨hfront, hbehind, hacross⟩ := List.pairwise_append.mp h
  have hmem : a ∈ front := by
    rcases List.mem_append.mp ha with ha | ha
    · exact ha
    · rcases List.mem_cons.mp ha with rfl | ha
      · omega
      · have := (List.pairwise_cons.mp hbehind).1 a ha
        rw [isBefore_iff] at this
        omega
  rcases List.eq_nil_or_concat' front with rfl | ⟨pre, x, rfl⟩
  · cases hmem
  have hax : ¬ isBefore x a := by
    rcases List.mem_append.mp hmem with ha | ha
    · exact (List.pairwise_append.mp hfront).2.2 a ha x (by simp)
    · rw [List.mem_singleton.mp ha]
      exact not_isBefore_self x
  have hxb := hacross x (by simp) b (by simp)
  have hx := hfirst x (by simp)
  simp only [isBefore_iff, Bool.not_eq_true', decide_eq_false_iff_not] at hax hxb hx
  have hsx : x.segment = g.segment := by omega
  have hempty := hg.empty x.tick ⟨x, by simp, hsx, rfl⟩
  have htx : x.tick = g.earlier := by omega
  refine ⟨x, b, mem_neighbours.mpr ⟨pre, post, by simp⟩, hsx.trans hsb.symm, ?_⟩
  rw [gap, hsb, htx, htb]

/-- In order, the gaps between neighbours that are too close are the short gaps. -/
theorem mem_closeNeighbours_gap (h : Ascending isBefore ps) :
    g ∈ (closeNeighbours period ps).map gap ↔ g.IsIn (HaveTick ps) ∧ g.later - g.earlier < period := by
  rw [List.mem_map]
  constructor
  · rintro ⟨⟨a, b⟩, hab, rfl⟩
    obtain ⟨hn, hclose⟩ := List.mem_filter.mp hab
    obtain ⟨hba, hbetween⟩ := not_between h hn
    obtain ⟨ha, hb⟩ := List.of_mem_zip hn
    obtain ⟨hseg, hrises, hlt⟩ := (tooClose_iff_lt hba).mp hclose
    refine ⟨⟨⟨a, ha, hseg, rfl⟩, ⟨b, List.mem_of_mem_tail hb, rfl, rfl⟩, hrises, ?_⟩, hlt⟩
    rintro tick ⟨c, hc, hsc, rfl⟩ ⟨hac, hcb⟩
    have hsc' : c.segment = b.segment := hsc
    apply hbetween c hc
    rw [isBefore_iff, isBefore_iff]
    exact ⟨.inr ⟨hseg.trans hsc'.symm, .inl hac⟩, .inr ⟨hsc', .inl hcb⟩⟩
  · rintro ⟨hg, hlt⟩
    obtain ⟨a, b, hn, hseg, rfl⟩ := exists_neighbours h hg
    have hclose := (tooClose_iff_lt (not_between h hn).1).mpr ⟨hseg, hg.rises, hlt⟩
    exact ⟨(a, b), List.mem_filter.mpr ⟨hn, hclose⟩, rfl⟩

/-- The later pulse of a gap is the first that the order has at its tick. -/
theorem first_of_closeNeighbours (h : Ascending isBefore ps) (hn : (a, b) ∈ closeNeighbours period ps)
    (hc : c ∈ ps) (hs : c.segment = b.segment) (ht : c.tick = b.tick) : b.entry.id ≤ c.entry.id := by
  obtain ⟨hn, hclose⟩ := List.mem_filter.mp hn
  obtain ⟨hba, hbetween⟩ := not_between h hn
  obtain ⟨hseg, hrises, -⟩ := (tooClose_iff_lt hba).mp hclose
  have hno := hbetween c hc
  rw [isBefore_iff, isBefore_iff] at hno
  omega

/-- Different neighbours leave different gaps. -/
theorem nodup_closeNeighbours_gap (h : Ascending isBefore ps) :
    ((closeNeighbours period ps).map gap).Nodup := by
  induction ps with
  | nil => simp [closeNeighbours]
  | cons a ps ih =>
    cases ps with
    | nil => simp [closeNeighbours]
    | cons b ps =>
      obtain ⟨ha, hrest⟩ := List.pairwise_cons.mp h
      rw [closeNeighbours_cons]
      split
      · rename_i hclose
        rw [List.map_append, List.map_singleton, List.singleton_append, List.nodup_cons]
        refine ⟨fun hmem => ?_, ih hrest⟩
        obtain ⟨⟨c, hc, hsc, htc⟩, -⟩ := ((mem_closeNeighbours_gap hrest).mp hmem).1
        have hbc : ¬ isBefore c b := by
          rcases List.mem_cons.mp hc with rfl | hc
          · exact not_isBefore_self _
          · exact (List.pairwise_cons.mp hrest).1 c hc
        obtain ⟨-, hrises, -⟩ := (tooClose_iff_lt (ha b (by simp))).mp hclose
        have hsc' : c.segment = b.segment := hsc
        have htc' : c.tick = a.tick := htc
        rw [isBefore_iff] at hbc
        omega
      · exact ih hrest

/-- A period of one tick leaves nothing for the scan to find, so it does not matter that it is left out. -/
theorem findings_eq (line : Nat) (period : Int) (es : List Entry) :
    findings line period es = (es.filter (·.timing.isSampledWithin period)).map (.sampleTooFast line) ++
      (closeNeighbours period (sort isBefore (es.flatMap ofEntry))).map
        fun (a, b) => .ticksTooClose line a b := by
  rw [findings]
  split
  · have hsort : Ascending isBefore (sort isBefore (es.flatMap ofEntry)) :=
      ascending_sort weakOrder_isBefore fun _ _ => trivial
    have hnone : closeNeighbours period (sort isBefore (es.flatMap ofEntry)) = [] := by
      refine List.filter_eq_nil_iff.mpr fun n hn hclose => ?_
      obtain ⟨-, hrises, hlt⟩ := (tooClose_iff_lt (not_between hsort hn).1).mp hclose
      omega
    rw [hnone, List.map_nil]
  · rfl

end Pulse

namespace Shot

variable {s : Shot} {line : Nat}

/-- An instruction on a clock line starts or ends at a tick. -/
def IsTick (s : Shot) (line segment : Nat) (tick : Int) : Prop :=
  ∃ e, s.Drives line e ∧ e.timing.segment = segment ∧ e.timing.IsEdge tick

/-- Two ticks of a line that follow each other in less than a period. -/
def IsShortGap (s : Shot) (line : Nat) (g : Gap) : Prop :=
  g.IsIn (s.IsTick line) ∧ g.later - g.earlier < (s.limitsAt line).periodTicks

/-- Of the instructions that start or end at a tick, the one that was created first. -/
structure IsFirstAt (s : Shot) (line segment : Nat) (tick : Int) (e : Entry) : Prop where
  drives : s.Drives line e
  inSegment : e.timing.segment = segment
  edge : e.timing.IsEdge tick
  first : ∀ a, s.Drives line a → a.timing.segment = segment → a.timing.IsEdge tick → e.id ≤ a.id

/-- The violation that an instruction is blamed for by a gap. -/
def gapViolation (s : Shot) (line : Nat) (g : Gap) (e : Entry) : Violation :=
  s.violation .tickTooShort e.node <| "ticks " ++ toString g.earlier ++ " and " ++ toString g.later ++
    " in segment " ++ toString g.segment ++ " are closer than the minimum period of " ++
    ((s.subject (.device line)).title ++ " (" ++ toString (s.limitsAt line).periodTicks ++
      " ticks, limited by " ++ s.limiterName (s.limitsAt line).periodLimiter ++ ")")

/-- What is reported about the ticks of a clock line. -/
structure ReportsGaps (s : Shot) (line : Nat) (vs : List Violation) : Prop where
  number : vs.countP (·.code = .tickTooShort) = {g | s.IsShortGap line g}.ncard
  /-- Each short gap is reported once, on the first instruction at the later tick. -/
  each : ∃ gs : List (Gap × Entry), (gs.map Prod.fst).Nodup ∧
    (∀ g, g ∈ gs.map Prod.fst ↔ s.IsShortGap line g) ∧
    (∀ g e, (g, e) ∈ gs → s.IsFirstAt line g.segment g.later e) ∧
    vs.filter (·.code = .tickTooShort) = gs.map fun (g, e) => s.gapViolation line g e
  /-- There is no such report exactly if different ticks of a segment are a period apart. -/
  clear : (∀ v ∈ vs, v.code ≠ .tickTooShort) ↔ ∀ segment m n, s.IsTick line segment m →
    s.IsTick line segment n → m ≠ n → (s.limitsAt line).periodTicks ≤ |m - n|
  tooFast : ∀ e, s.Drives line e → OnceIf (timesBlamed .sampleTooFast e vs)
    (¬ e.timing.isPoint ∧ 0 < e.timing.samplePeriod ∧
      e.timing.samplePeriod < (s.limitsAt line).periodTicks)
  others : ∀ v ∈ vs, v.code = .sampleTooFast → ∃ e, s.Drives line e ∧ v.node = e.node.ref

/-! ## The findings on a line -/

/-- The pulses of a line in order. -/
def pulses (s : Shot) (line : Nat) : List Pulse :=
  Sorted.sort Pulse.isBefore
    ((s.timedEntries (s.descendantInstructions (.device line) false)).flatMap Pulse.ofEntry)

theorem ascending_pulses (s : Shot) (line : Nat) : Sorted.Ascending Pulse.isBefore (s.pulses line) :=
  Sorted.ascending_sort Pulse.weakOrder_isBefore fun _ _ => trivial

theorem WellFormed.mem_pulses (hs : s.WellFormed) {a : Pulse} :
    a ∈ s.pulses line ↔
      s.Drives line a.entry ∧ a.entry.timing.segment = a.segment ∧ a.entry.timing.IsEdge a.tick := by
  rw [pulses, Sorted.mem_sort, List.mem_flatMap]
  simp only [hs.mem_drives, mem_ofEntry]
  constructor
  · rintro ⟨e, he, rfl, hseg, hedge⟩
    exact ⟨he, hseg.symm, hedge⟩
  · rintro ⟨he, hseg, hedge⟩
    exact ⟨a.entry, he, rfl, hseg.symm, hedge⟩

theorem WellFormed.haveTick_pulses (hs : s.WellFormed) :
    Pulse.HaveTick (s.pulses line) = s.IsTick line := by
  funext segment tick
  apply propext
  constructor
  · rintro ⟨a, ha, rfl, rfl⟩
    obtain ⟨hdrives, hseg, hedge⟩ := hs.mem_pulses.mp ha
    exact ⟨a.entry, hdrives, hseg, hedge⟩
  · rintro ⟨e, hdrives, hseg, hedge⟩
    exact ⟨⟨segment, tick, e⟩, hs.mem_pulses.mpr ⟨hdrives, hseg, hedge⟩, rfl, rfl⟩

/-- The gaps of a line that are found to be short, each with the instruction behind it. -/
def shortGaps (s : Shot) (line : Nat) : List (Gap × Entry) :=
  (Pulse.closeNeighbours (s.limitsAt line).periodTicks (s.pulses line)).map
    fun n => (Pulse.gap n, n.2.entry)

theorem fst_shortGaps : (s.shortGaps line).map Prod.fst =
    (Pulse.closeNeighbours (s.limitsAt line).periodTicks (s.pulses line)).map Pulse.gap := by
  rw [shortGaps, List.map_map]
  rfl

theorem WellFormed.mem_shortGaps (hs : s.WellFormed) {g : Gap} :
    g ∈ (s.shortGaps line).map Prod.fst ↔ s.IsShortGap line g := by
  rw [fst_shortGaps, Pulse.mem_closeNeighbours_gap (s.ascending_pulses line), hs.haveTick_pulses]
  rfl

theorem WellFormed.isFirstAt (hs : s.WellFormed) {g : Gap} {e : Entry} (h : (g, e) ∈ s.shortGaps line) :
    s.IsFirstAt line g.segment g.later e := by
  obtain ⟨⟨a, b⟩, hn, he⟩ := List.mem_map.mp h
  cases he
  have hb : b ∈ s.pulses line :=
    List.mem_of_mem_tail (List.of_mem_zip (List.mem_filter.mp hn).1).2
  obtain ⟨hdrives, hseg, hedge⟩ := hs.mem_pulses.mp hb
  refine ⟨hdrives, hseg, hedge, fun c hc hsc htc => ?_⟩
  have hcp : (⟨b.segment, b.tick, c⟩ : Pulse) ∈ s.pulses line := hs.mem_pulses.mpr ⟨hc, hsc, htc⟩
  exact Pulse.first_of_closeNeighbours (s.ascending_pulses line) hn hcp rfl rfl

theorem clockLineFindings_eq (s : Shot) (line : Nat) :
    s.clockLineFindings line =
      (if (s.limitsAt line).cannotHoldPulses then [.pulsesDoNotFit line] else []) ++
      (((s.timedEntries (s.descendantInstructions (.device line) false)).filter
          (·.timing.isSampledWithin (s.limitsAt line).periodTicks)).map (.sampleTooFast line) ++
        (Pulse.closeNeighbours (s.limitsAt line).periodTicks (s.pulses line)).map
          fun (a, b) => .ticksTooClose line a b) := by
  rw [clockLineFindings, Pulse.findings_eq]
  rfl

/-- The reports on gaps are those of the short gaps. -/
theorem tooShort_violations (s : Shot) (line : Nat) :
    (s.violations (s.clockLineFindings line)).filter (·.code = .tickTooShort) =
      (s.shortGaps line).map fun (g, e) => s.gapViolation line g e := by
  have hfits : (if (s.limitsAt line).cannotHoldPulses then [Finding.pulsesDoNotFit line] else []).filter
      (·.code? = some .tickTooShort) = [] := by
    split <;> rfl
  rw [filter_violations, clockLineFindings_eq, List.filter_append, List.filter_append, hfits,
    Finding.filter_map_code (d := .sampleTooFast) fun _ => rfl,
    Finding.filter_map_code (d := .tickTooShort) fun _ => rfl, if_neg (by decide), if_pos rfl,
    List.nil_append, List.nil_append, violations, shortGaps, List.filterMap_map, List.map_map]
  rw [← List.filterMap_eq_map]
  apply List.filterMap_congr
  intro n _
  rfl

/-- The reports on samples are on the ramps that are sampled within a period. -/
theorem filter_tooFast (s : Shot) (line : Nat) :
    (s.clockLineFindings line).filter (·.code? = some .sampleTooFast) =
      ((s.timedEntries (s.descendantInstructions (.device line) false)).filter
        (·.timing.isSampledWithin (s.limitsAt line).periodTicks)).map (.sampleTooFast line) := by
  have hfits : (if (s.limitsAt line).cannotHoldPulses then [Finding.pulsesDoNotFit line] else []).filter
      (·.code? = some .sampleTooFast) = [] := by
    split <;> rfl
  rw [clockLineFindings_eq, List.filter_append, List.filter_append, hfits,
    Finding.filter_map_code (d := .sampleTooFast) fun _ => rfl,
    Finding.filter_map_code (d := .tickTooShort) fun _ => rfl, if_pos rfl, if_neg (by decide),
    List.nil_append, List.append_nil]

theorem WellFormed.onceIf_tooFast (hs : s.WellFormed) {e : Entry} (he : s.Drives line e) :
    OnceIf (timesBlamed .sampleTooFast e (s.violations (s.clockLineFindings line)))
      (¬ e.timing.isPoint ∧ 0 < e.timing.samplePeriod ∧
        e.timing.samplePeriod < (s.limitsAt line).periodTicks) := by
  have honce := onceIf_timesBlamed hs.instructions_fit (hs.nodup_descendantInstructions _ _)
    (fun a => ⟨rfl, rfl⟩) (filter_tooFast s line) (hs.mem_drives.mpr he)
  apply honce.congr
  simp [Timing.isSampledWithin, and_assoc]

/-- There is no short gap exactly if different ticks are a period apart. -/
theorem WellFormed.shortGaps_eq_nil (hs : s.WellFormed) :
    s.shortGaps line = [] ↔ ∀ segment m n, s.IsTick line segment m → s.IsTick line segment n → m ≠ n →
      (s.limitsAt line).periodTicks ≤ |m - n| := by
  have hapart : s.shortGaps line = [] ↔
      ∀ a ∈ s.pulses line, ∀ b ∈ s.pulses line, Pulse.Apart (s.limitsAt line).periodTicks a b := by
    rw [shortGaps, List.map_eq_nil_iff, Pulse.closeNeighbours_eq_nil (s.ascending_pulses line),
      Pulse.pairwise_apart_iff (s.ascending_pulses line)]
  rw [hapart, ← hs.haveTick_pulses]
  constructor
  · rintro hall segment m n ⟨a, ha, rfl, rfl⟩ ⟨b, hb, hseg, rfl⟩ hne
    rcases Int.lt_or_gt_of_ne hne with hlt | hlt
    · have := hall a ha b hb hseg.symm hlt
      rw [abs_of_neg (by omega)]
      omega
    · have := hall b hb a ha hseg hlt
      rw [abs_of_pos (by omega)]
      omega
  · intro hall a ha b hb hseg hlt
    have := hall a.segment a.tick b.tick ⟨a, ha, rfl, rfl⟩ ⟨b, hb, hseg.symm, rfl⟩ (Int.ne_of_lt hlt)
    rw [abs_of_neg (by omega)] at this
    omega

theorem WellFormed.reportsGaps (hs : s.WellFormed) (hk : s.kind? line = some .clockLine) :
    s.ReportsGaps line (s.violations (s.findingsAt line)) := by
  have hfindings : s.findingsAt line = s.clockLineFindings line := findingsAt_eq hk
  have hnodup : ((s.shortGaps line).map Prod.fst).Nodup := by
    rw [fst_shortGaps]
    exact Pulse.nodup_closeNeighbours_gap (s.ascending_pulses line)
  have hshort := tooShort_violations s line
  rw [hfindings]
  constructor
  case number =>
    have hset : {g | s.IsShortGap line g} = ((s.shortGaps line).map Prod.fst).toFinset := by
      ext g
      rw [List.coe_toFinset]
      exact hs.mem_shortGaps.symm
    rw [hset, Set.ncard_coe_finset, List.toFinset_card_of_nodup hnodup, List.countP_eq_length_filter,
      hshort, List.length_map, List.length_map]
  case each => exact ⟨s.shortGaps line, hnodup, fun _ => hs.mem_shortGaps, fun _ _ => hs.isFirstAt, hshort⟩
  case clear =>
    rw [← hs.shortGaps_eq_nil, ← List.map_eq_nil_iff, ← hshort, List.filter_eq_nil_iff]
    simp only [decide_eq_true_eq, ne_eq]
  case tooFast => exact fun e he => hs.onceIf_tooFast he
  case others =>
    intro v hv hcode
    obtain ⟨f, hf, hfc, hnode⟩ := mem_violations hv
    have hmem : f ∈ (s.clockLineFindings line).filter (·.code? = some .sampleTooFast) :=
      List.mem_filter.mpr ⟨hf, by simp [hfc, hcode]⟩
    rw [filter_tooFast] at hmem
    obtain ⟨e, he, rfl⟩ := List.mem_map.mp hmem
    have hdrives := hs.mem_drives.mp (List.mem_of_mem_filter he)
    exact ⟨e, hdrives, hnode.trans (ref_subject hdrives.1)⟩

end Shot

namespace Compile
open Shot

variable {p : Progress} {line : Nat}

/-- The check of a clock line reports each gap that is too short, and each ramp that is sampled too
often. -/
theorem reportsGaps_of_check (hs : p.shot.WellFormed) (hk : p.shot.kind? line = some .clockLine) :
    ∃ vs ms, Reports (checkPass.after line) p vs ms ∧ p.shot.ReportsGaps line vs :=
  ⟨_, _, reports_check p line, hs.reportsGaps hk⟩

/-- A ramp on one output that ends where a value on the other starts, a value before it and one within
it, and after a wait a ramp that is sampled every 4 ticks. -/
private def uneven : List Command := Session.bench ++ [
  .addInstruction 0 (.shot 0) (.wait 50 "w") {},
  .issue (.device 0 4) (.constant 20 1) {},
  .issue (.device 0 5) (.constant 0 1) {},
  .issue (.device 0 5) (.function 4 16 (some (polynomial [0, 1])) 0) {},
  .issue (.device 0 4) (.constant 12 1) {},
  .issue (.device 0 5) (.constant 52 1) {},
  .issue (.device 0 4) (.function 65 20 (some (polynomial [0, 1])) 0.25) {},
  .nextPhase 0,
  .convertTiming 0 (.shot 0)]

theorem reportsGaps_of_uneven : ∃ (p : Progress) (vs : List Violation) (ms : List Message),
    p.shot.WellFormed ∧ p.shot.kind? 2 = some .clockLine ∧ Reports (checkPass.after 2) p vs ms ∧
    p.shot.ReportsGaps 2 vs ∧ vs.map (fun v => (v.code, v.node)) =
      [(.sampleTooFast, (Node.instruction 6).ref), (.tickTooShort, (Node.instruction 3).ref),
        (.tickTooShort, (Node.instruction 4).ref), (.tickTooShort, (Node.instruction 1).ref)] := by
  have hrun : ((Session.script uneven).shot? 0).any fun s => s.kind? 2 = some .clockLine ∧
      s.report.violations = #[] ∧
      (after (checkPass.after 2) ⟨s, #[]⟩).shot.report.violations.toList.map (fun v => (v.code, v.node)) =
        [(.sampleTooFast, (Node.instruction 6).ref), (.tickTooShort, (Node.instruction 3).ref),
          (.tickTooShort, (Node.instruction 4).ref), (.tickTooShort, (Node.instruction 1).ref)] := by
    decide +kernel
  obtain ⟨s, hs, hp⟩ := (Option.any_eq_true _ _).mp hrun
  obtain ⟨hk, hempty, hreport⟩ := of_decide_eq_true hp
  have hr : s.Reachable false := reachable_of_script (by decide) hs
  have hw := hr.grown.wellFormed
  obtain ⟨vs, ms, hvs, hgaps⟩ := reportsGaps_of_check (p := ⟨s, #[]⟩) hw hk
  rw [hvs.after_eq] at hreport
  refine ⟨⟨s, #[]⟩, vs, ms, hw, hk, hvs, hgaps, ?_⟩
  simpa [hempty] using hreport

end Compile
end ShotTiming
