import ShotTiming.Proofs.Compile.Placing
import ShotTiming.Proofs.Number.Rounding
import ShotTiming.Proofs.Shot.Plain
import ShotTiming.Proofs.Shot.Resolved
import ShotTiming.Proofs.Shot.Segments
import ShotTiming.Proofs.Validation.ClockLine
import ShotTiming.Proofs.Validation.Entries
import ShotTiming.Proofs.Validation.Scan
import ShotTiming.Proofs.Validation.Trigger

/-! # What a valid shot is

The rules are stated on the arenas of a shot and the links between them, without a walk over the tree
and without an order of the instructions.
-/
namespace ShotTiming

namespace Timing

/-- A ramp takes the ticks from its start on and in front of its end. -/
def Covers (t : Timing) (tick : Int) : Prop := t.ticks ≤ tick ∧ tick < t.finish

/-- Two points on one tick of a segment, or two ramps that have a tick in common. -/
def Collides (t u : Timing) : Prop :=
  t.segment = u.segment ∧ ((t.isPoint ∧ u.isPoint ∧ t.ticks = u.ticks) ∨
    (¬ t.isPoint ∧ ¬ u.isPoint ∧ ∃ tick, t.Covers tick ∧ u.Covers tick))

theorem Collides.symm {t u : Timing} (h : t.Collides u) : u.Collides t := by
  obtain ⟨hs, ⟨ht, hu, he⟩ | ⟨ht, hu, tick, h₁, h₂⟩⟩ := h
  · exact ⟨hs.symm, .inl ⟨hu, ht, he.symm⟩⟩
  · exact ⟨hs.symm, .inr ⟨hu, ht, tick, h₂, h₁⟩⟩

/-- The ticks at which an instruction starts and ends. -/
def IsEdge (t : Timing) (tick : Int) : Prop := tick = t.ticks ∨ tick = t.finish

end Timing

namespace Shot

/-- An instruction is placed where its clock responds, in whole samples, and is over by the end of the
shot and by every wait that comes after its start. -/
structure Contains (s : Shot) (e : Entry) : Prop where
  start : 0 ≤ e.timing.ticks
  duration : 0 ≤ e.timing.duration
  samples : 0 < e.timing.duration → 0 < e.timing.samplePeriod → e.timing.samplePeriod ∣ e.timing.duration
  stop : ¬ s.stopTime + s.settings.tolerance * s.timebase e.instruction < e.instruction.finish
  waits : 0 < e.instruction.action.duration → ∀ w : Entry, w.IsIn s → w.instruction.kind = .wait →
    e.instruction.time < w.instruction.time →
      ¬ w.instruction.time + s.settings.tolerance * s.timebase e.instruction < e.instruction.finish

/-- A timed instruction that gets its ticks from a clock line: the line and its output are in the
domain of the same clock. -/
def Drives (s : Shot) (line : Nat) (e : Entry) : Prop :=
  e.IsIn s ∧ e.IsTimed ∧ ∃ p, s.SharesClock line p ∧ e.IsOn p

/-- A clock line can follow the instructions that it drives. -/
structure Paces (s : Shot) (line : Nat) : Prop where
  pulses : 0 < (s.limitsAt line).triggerDuration →
    ¬ (s.limitsAt line).period * (1 + 1e-9) < 2 * (s.limitsAt line).triggerDuration
  samples : ∀ e, s.Drives line e → ¬ e.timing.isPoint → 0 < e.timing.samplePeriod →
    (s.limitsAt line).periodTicks ≤ e.timing.samplePeriod
  edges : ∀ a b, s.Drives line a → s.Drives line b → a.timing.segment = b.timing.segment →
    ∀ m n, a.timing.IsEdge m → b.timing.IsEdge n → m < n → m + (s.limitsAt line).periodTicks ≤ n

/-- Every pulse of a trigger is long enough for the devices that it triggers. -/
def Triggers (s : Shot) (trigger : Nat) : Prop :=
  (s.limitsAt trigger).triggerDuration ≤ 0 ∨
    ∀ h : HighTime, h.Among (fun e => e.IsIn s ∧ e.IsOn trigger) →
      ¬ Float.ofInt h.ticks * s.timebase h.fall.instruction <
        (s.limitsAt trigger).triggerDuration * (1 - 1e-9)

/-- What holds of a valid shot. -/
structure Legal (s : Shot) : Prop where
  waits : ∀ w : Entry, w.IsIn s → w.instruction.kind = .wait → 0 ≤ w.timing.ticks
  contains : ∀ e : Entry, e.IsIn s → e.IsTimed → s.Contains e
  apart : ∀ a b : Entry, a.IsIn s → b.IsIn s → a.IsTimed → b.IsTimed →
    a.instruction.owner = b.instruction.owner → a.id ≠ b.id → ¬ a.timing.Collides b.timing
  lines : ∀ line, s.kind? line = some .clockLine → s.Paces line
  triggers : ∀ trigger, s.kind? trigger = some .trigger → s.Triggers trigger
  statics : ∀ a b : Entry, a.IsIn s → b.IsIn s → a.instruction.kind = .static →
    b.instruction.kind = .static → a.instruction.owner = b.instruction.owner → a.id = b.id

variable {s : Shot}

/-! ## Waits -/

namespace Resolved

theorem inPlace (h : s.Resolved) : s.InPlace :=
  ⟨h.toSettled, h.isTimely, fun e he => ⟨{}, h.timed e.id e.instruction he⟩⟩

theorem isPoint_of_constant (h : s.Resolved) {e : Entry} (he : e.IsIn s)
    (hk : e.instruction.kind = .constant) : e.timing.isPoint :=
  Placing.isPoint_of_constant hk (h.timed e.id e.instruction he)

/-- An instruction that runs past some later wait runs past the first of them. -/
theorem crosses_iff (h : s.Resolved) (hp : s.IsPlain) {e : Entry} (he : e.IsIn s) (ht : e.IsTimed)
    (tolerance finish : Float) :
    (∃ w, s.waitAfter? e = some w ∧ w.instruction.time + tolerance < finish) ↔
      ∃ w : Entry, w.IsIn s ∧ w.instruction.kind = .wait ∧ e.instruction.time < w.instruction.time ∧
        w.instruction.time + tolerance < finish := by
  constructor
  · rintro ⟨w, hw, hlt⟩
    have hfirst := h.inPlace.isFirstAfter he hp.keepsTables ht hw
    exact ⟨w, hfirst.isIn, hfirst.kind, hfirst.after, hlt⟩
  · rintro ⟨w, hin, hwait, hbefore, hlt⟩
    cases hnext : s.waitAfter? e with
    | none => exact absurd hbefore (h.inPlace.not_before he hp.keepsTables ht hnext hin hwait)
    | some v =>
      have hfirst := h.inPlace.isFirstAfter he hp.keepsTables ht hnext
      refine ⟨v, rfl, ?_⟩
      rcases hfirst.first w hin hwait hbefore with hsame | hlater
      · exact hsame ▸ hlt
      · exact Number.add_lt_of_lt hlater hlt

end Resolved

/-! ## One instruction -/

theorem clear_placement {e : Entry} :
    Finding.Clear e.placementFindings ↔ 0 ≤ e.timing.ticks ∧ 0 ≤ e.timing.duration ∧
      (0 < e.timing.duration → 0 < e.timing.samplePeriod →
        e.timing.samplePeriod ∣ e.timing.duration) := by
  rw [Entry.placementFindings, Finding.clear_append, Finding.clear_if rfl, Int.not_lt]
  refine and_congr_right fun _ => ?_
  split
  · rename_i hneg
    refine iff_of_false (by simp [Finding.Clear, Finding.isViolation]) fun hpos => ?_
    exact absurd hpos.1 (Int.not_le.mpr hneg)
  · rename_i hneg
    rw [Finding.clear_if rfl]
    simp only [Int.not_lt.mp hneg, true_and, not_and, Classical.not_not, Int.dvd_iff_emod_eq_zero]

private theorem clear_crossing {e : Entry} {o : Option Entry} {p : Entry → Prop} [DecidablePred p] :
    Finding.Clear (match o with
      | some w => if p w then [.crossesWait e w] else []
      | none => []) ↔ ¬ ∃ w, o = some w ∧ p w := by
  cases o with
  | none => simp [Finding.clear_nil]
  | some w => simp [Finding.clear_if (f := .crossesWait e w) rfl]

/-- All that is found at the end of its segment is that an instruction runs into a wait or past the stop. -/
theorem crossesWait_or_afterStop {e : Entry} {f : Finding} (hf : f ∈ s.boundaryFindings e) :
    (∃ w, f = .crossesWait e w) ∨ f = .afterStop e := by
  simp only [boundaryFindings, List.mem_append, List.mem_ite_nil_right, List.mem_singleton] at hf
  rcases hf with ⟨-, hf⟩ | ⟨-, rfl⟩
  · cases hw : s.waitAfter? e with
    | none => simp [hw] at hf
    | some w =>
      rw [hw] at hf
      exact .inl ⟨w, List.mem_singleton.mp (List.mem_ite_nil_right.mp hf).2⟩
  · exact .inr rfl

theorem Resolved.clear_boundary (h : s.Resolved) (hp : s.IsPlain) {e : Entry} (he : e.IsIn s)
    (ht : e.IsTimed) :
    Finding.Clear (s.boundaryFindings e) ↔
      (0 < e.instruction.action.duration → ∀ w : Entry, w.IsIn s → w.instruction.kind = .wait →
        e.instruction.time < w.instruction.time →
          ¬ w.instruction.time + s.settings.tolerance * s.timebase e.instruction < e.instruction.finish) ∧
      ¬ s.stopTime + s.settings.tolerance * s.timebase e.instruction < e.instruction.finish := by
  rw [boundaryFindings]
  simp only [Finding.clear_append, Finding.clear_if (f := .afterStop e) rfl]
  refine and_congr_left fun _ => ?_
  split
  · rename_i hd
    have hcross := h.crosses_iff hp he ht (s.settings.tolerance * s.timebase e.instruction)
      e.instruction.finish
    refine clear_crossing.trans ?_
    rw [hcross]
    simp [hd]
  · rename_i hd
    simp [hd, Finding.clear_nil]

/-- Together these are the rules for one instruction. -/
theorem Resolved.contains_iff (h : s.Resolved) (hp : s.IsPlain) {e : Entry} (he : e.IsIn s)
    (ht : e.IsTimed) :
    s.Contains e ↔ Finding.Clear e.placementFindings ∧ Finding.Clear (s.boundaryFindings e) := by
  rw [clear_placement, h.clear_boundary hp he ht]
  constructor
  · exact fun hc => ⟨⟨hc.start, hc.duration, hc.samples⟩, hc.waits, hc.stop⟩
  · rintro ⟨⟨h₁, h₂, h₃⟩, h₄, h₅⟩
    exact ⟨h₁, h₂, h₃, h₅, h₄⟩

/-! ## The instructions of one output -/

private theorem clear_zipWith {f : Entry → List Finding} {es : List Entry} {os : List (Option Finding)}
    (hl : os.length = es.length) :
    Finding.Clear (List.zipWith (fun e o => f e ++ o.toList) es os).flatten ↔
      (∀ e ∈ es, Finding.Clear (f e)) ∧ ∀ o ∈ os, o.any (·.isViolation) = false := by
  induction es generalizing os with
  | nil =>
    cases os with
    | nil => simp [Finding.Clear]
    | cons o os => simp at hl
  | cons e es ih =>
    cases os with
    | nil => simp at hl
    | cons o os =>
      have ho : Finding.Clear o.toList ↔ o.any (·.isViolation) = false := by
        cases o <;> simp [Finding.Clear]
      rw [List.zipWith_cons_cons, List.flatten_cons, Finding.clear_append, Finding.clear_append,
        ih (by simpa using hl), ho, List.forall_mem_cons, List.forall_mem_cons]
      tauto

/-- Of a relation that does not depend on the order, it does not matter where it is asked. -/
private theorem pairwise_iff_of_symm {es : List Entry} {R : Entry → Entry → Prop}
    (hsymm : ∀ a b, R a b → R b a) (hid : es.Pairwise fun a b => a.id ≠ b.id) :
    es.Pairwise R ↔ ∀ a ∈ es, ∀ b ∈ es, a.id ≠ b.id → R a b := by
  constructor
  · intro hpair a ha b hb hne
    have : Std.Symm R := ⟨hsymm⟩
    exact hpair.forall ha hb fun he => hne (congrArg Entry.id he)
  · exact fun hall => hid.imp_of_mem fun {a b} ha hb hne => hall a ha b hb hne

namespace Resolved

theorem ordered_entries (h : s.Resolved) {id : Nat} {k : DeviceKind} (hk : s.kind? id = some k)
    (ho : k.isOutput) :
    (s.entries (s.instructionsOf (.device id))).Pairwise fun a b =>
      ¬ b.timing.isBefore a.timing ∧ a.id ≠ b.id := by
  have hpair := (h.sorted hk ho).and (h.wellFormed.instructions.nodup (.device id))
  refine pairwise_entries hpair fun a b ha hb hab => ⟨fun hbefore => hab.1 ?_, hab.2⟩
  exact (isPlacedBefore_iff hb ha).mpr (.inl hbefore)

/-- In order, an instruction is in the way of a later one exactly if the two collide. -/
theorem blocks_iff {a b : Entry} (hord : ¬ b.timing.isBefore a.timing) (hb : 0 ≤ b.timing.duration) :
    a.Blocks b ↔ a.timing.Collides b.timing := by
  rw [Timing.isBefore_iff] at hord
  refine and_congr_right fun hseg => or_congr_right <| and_congr_right fun _ => and_congr_right fun hpb => ?_
  have hpos : 0 < b.timing.duration := by
    simp only [Timing.isPoint, beq_iff_eq] at hpb
    omega
  simp only [Timing.Covers, Timing.finish]
  constructor
  · exact fun hlt => ⟨b.timing.ticks, ⟨by omega, hlt⟩, by omega, by omega⟩
  · rintro ⟨tick, ⟨-, hlt⟩, hle, -⟩
    omega

/-- In order, none is in the way of a later one exactly if no two collide. -/
private theorem pairwise_blocks_iff {es : List Entry}
    (hord : es.Pairwise fun a b => ¬ b.timing.isBefore a.timing)
    (hlong : ∀ e ∈ es, 0 ≤ e.timing.duration) :
    es.Pairwise (fun a b => ¬ a.Blocks b) ↔ es.Pairwise fun a b => ¬ a.timing.Collides b.timing := by
  constructor <;> intro hpair
  · refine (hpair.and hord).imp_of_mem fun {a b} _ hb hab => ?_
    exact mt (blocks_iff hab.2 (hlong b hb)).mpr hab.1
  · refine (hpair.and hord).imp_of_mem fun {a b} _ hb hab => ?_
    exact mt (blocks_iff hab.2 (hlong b hb)).mp hab.1

theorem mem_timedEntries_of (h : s.Resolved) {id : Nat} {e : Entry} :
    e ∈ s.timedEntries (s.instructionsOf (.device id)) ↔ e.IsIn s ∧ e.IsTimed ∧ e.IsOn id := by
  rw [mem_timedEntries, ← and_assoc, ← mem_entries, h.wellFormed.mem_entries_of]
  tauto

/-- The check of an output goes through its instructions in order. -/
private theorem clear_outputFindings (h : s.Resolved) (hp : s.IsPlain) {id : Nat}
    (hord : (s.timedEntries (s.instructionsOf (.device id))).Pairwise fun a b =>
      ¬ b.timing.isBefore a.timing) :
    Finding.Clear (s.outputFindings id) ↔
      (∀ e ∈ s.timedEntries (s.instructionsOf (.device id)), s.Contains e) ∧
        (s.timedEntries (s.instructionsOf (.device id))).Pairwise fun a b => ¬ a.Blocks b := by
  rw [outputFindings, clear_zipWith (f := fun e => e.placementFindings ++ s.boundaryFindings e)
    (Scan.length_conflicts _ _), Scan.conflicts_clear hord]
  refine and_congr_left fun _ => forall₂_congr fun e he => ?_
  obtain ⟨hin, ht, -⟩ := h.mem_timedEntries_of.mp he
  rw [Finding.clear_append, h.contains_iff hp hin ht]

/-- An output is in order if each of its instructions keeps to its segment and no two collide. -/
theorem clear_output (h : s.Resolved) (hp : s.IsPlain) {id : Nat} {k : DeviceKind}
    (hk : s.kind? id = some k) (ho : k.isOutput) :
    Finding.Clear (s.outputFindings id) ↔
      (∀ e : Entry, e.IsIn s → e.IsTimed → e.IsOn id → s.Contains e) ∧
        ∀ a b : Entry, a.IsIn s → b.IsIn s → a.IsTimed → b.IsTimed → a.IsOn id → b.IsOn id →
          a.id ≠ b.id → ¬ a.timing.Collides b.timing := by
  have hord : (s.timedEntries (s.instructionsOf (.device id))).Pairwise fun a b =>
      ¬ b.timing.isBefore a.timing ∧ a.id ≠ b.id := (h.ordered_entries hk ho).filter _
  have hcontains : (∀ e ∈ s.timedEntries (s.instructionsOf (.device id)), s.Contains e) ↔
      ∀ e : Entry, e.IsIn s → e.IsTimed → e.IsOn id → s.Contains e := by
    simp only [h.mem_timedEntries_of, and_imp]
  rw [clear_outputFindings h hp (hord.imp And.left), hcontains]
  refine and_congr_right fun hall => ?_
  have hlong : ∀ e ∈ s.timedEntries (s.instructionsOf (.device id)), 0 ≤ e.timing.duration := by
    intro e he
    obtain ⟨hin, ht, hon⟩ := h.mem_timedEntries_of.mp he
    exact (hall e hin ht hon).duration
  rw [pairwise_blocks_iff (hord.imp And.left) hlong,
    pairwise_iff_of_symm (fun a b hab hba => hab hba.symm) (hord.imp And.right)]
  simp only [h.mem_timedEntries_of]
  constructor
  · exact fun hpairs a b ha hb hta htb hoa hob => hpairs a ⟨ha, hta, hoa⟩ b ⟨hb, htb, hob⟩
  · rintro hpairs a ⟨ha, hta, hoa⟩ b ⟨hb, htb, hob⟩
    exact hpairs a b ha hb hta htb hoa hob

/-- Where no two values of a trigger collide, all of them are at different ticks. -/
theorem precedes_of_apart (h : s.Resolved) (hp : s.IsPlain) {id : Nat} (hk : s.kind? id = some .trigger)
    (hapart : ∀ a b : Entry, a.IsIn s → b.IsIn s → a.IsOn id → b.IsOn id → a.id ≠ b.id →
      ¬ a.timing.Collides b.timing) :
    (s.entries (s.instructionsOf (.device id))).Pairwise Entry.Precedes := by
  refine (h.ordered_entries hk rfl).imp_of_mem fun {a b} ha hb hab => ?_
  obtain ⟨hina, hona⟩ := h.wellFormed.mem_entries_of.mp ha
  obtain ⟨hinb, honb⟩ := h.wellFormed.mem_entries_of.mp hb
  have hpa := h.isPoint_of_constant hina (h.wellFormed.isConstant_of_trigger hp.keepsTables hina hona hk)
  have hpb := h.isPoint_of_constant hinb (h.wellFormed.isConstant_of_trigger hp.keepsTables hinb honb hk)
  have hne := hapart a b hina hinb hona honb hab.2
  have hord := hab.1
  rw [Timing.isBefore_iff] at hord
  unfold Timing.Collides at hne
  unfold Entry.Precedes
  simp only [hpa, hpb, true_and, not_true, false_and, or_false] at hne
  omega

theorem clear_trigger (h : s.Resolved) {id : Nat}
    (hord : (s.entries (s.instructionsOf (.device id))).Pairwise Entry.Precedes) :
    Finding.Clear (s.triggerFindings id) ↔ s.Triggers id := by
  have hpresent : (· ∈ s.entries (s.instructionsOf (.device id))) = fun e => e.IsIn s ∧ e.IsOn id := by
    funext e
    exact propext h.wellFormed.mem_entries_of
  have hpulses : ∀ p : HighTime, p ∈ HighTime.pulses none (s.entries (s.instructionsOf (.device id))) ↔
      p.Among fun e => e.IsIn s ∧ e.IsOn id := fun p => by
    rw [(HighTime.mem_pulses _).1, HighTime.isCut_iff_among hord, hpresent]
  unfold triggerFindings Triggers
  dsimp only
  split
  · rename_i hle
    exact iff_of_true Finding.clear_nil (.inl hle)
  · rename_i hle
    rw [Finding.clear_iff_eq_nil, List.filterMap_eq_nil_iff]
    · simp only [hle, false_or, hpulses]
      refine forall₂_congr fun p _ => ?_
      split <;> simp_all
    · intro f hf
      obtain ⟨p, -, hp⟩ := List.mem_filterMap.mp hf
      split at hp
      · cases hp
        rfl
      · cases hp

end Resolved

/-- Of some values with different numbers, nothing is left behind the first exactly if all have the
same number. -/
private theorem others_eq_nil {e : Entry} {es : List Entry} (hid : (e :: es).Pairwise fun a b => a.id ≠ b.id) :
    es = [] ↔ ∀ a ∈ e :: es, ∀ b ∈ e :: es, a.id = b.id := by
  constructor
  · rintro rfl
    simp
  · intro hall
    cases es with
    | nil => rfl
    | cons f es =>
      exact absurd (hall e (by simp) f (by simp)) ((List.pairwise_cons.mp hid).1 f (by simp))

/-- All that is found about the values of a static output is that one is set again. -/
theorem exists_setAgain {id : Nat} {f : Finding} (hf : f ∈ s.staticFindings id) :
    ∃ e first, f = .setAgain e first := by
  rw [staticFindings] at hf
  split at hf
  · cases hf
  · rename_i first others _
    obtain ⟨e, -, rfl⟩ := List.mem_map.mp hf
    exact ⟨e, first, rfl⟩

theorem Resolved.clear_static (h : s.Resolved) {id : Nat} {k : DeviceKind} (hk : s.kind? id = some k)
    (ho : k.isOutput) :
    Finding.Clear (s.staticFindings id) ↔ ∀ a b : Entry, a.IsIn s → b.IsIn s →
      a.instruction.kind = .static → b.instruction.kind = .static → a.IsOn id → b.IsOn id →
        a.id = b.id := by
  have hmem : ∀ e : Entry, e ∈ (s.entries (s.instructionsOf (.device id))).filter
      (·.instruction.kind == .static) ↔ e.IsIn s ∧ e.instruction.kind = .static ∧ e.IsOn id := fun e => by
    rw [List.mem_filter, h.wellFormed.mem_entries_of, beq_iff_eq]
    tauto
  have hid := ((h.ordered_entries hk ho).imp And.right).filter (·.instruction.kind == .static)
  unfold staticFindings
  generalize (s.entries (s.instructionsOf (.device id))).filter (·.instruction.kind == .static) = es
    at hmem hid
  have hall : (∀ a b : Entry, a.IsIn s → b.IsIn s → a.instruction.kind = .static →
        b.instruction.kind = .static → a.IsOn id → b.IsOn id → a.id = b.id) ↔
      ∀ a ∈ es, ∀ b ∈ es, a.id = b.id := by
    simp only [hmem]
    constructor
    · rintro hall a ⟨ha, hka, hoa⟩ b ⟨hb, hkb, hob⟩
      exact hall a b ha hb hka hkb hoa hob
    · exact fun hall a b ha hb hka hkb hoa hob => hall a ⟨ha, hka, hoa⟩ b ⟨hb, hkb, hob⟩
  rw [hall]
  cases es with
  | nil => simp [Finding.clear_nil]
  | cons e es =>
    rw [← others_eq_nil hid, Finding.clear_iff_eq_nil, List.map_eq_nil_iff]
    intro f hf
    obtain ⟨a, -, rfl⟩ := List.mem_map.mp hf
    rfl

/-! ## Clock lines -/

theorem mem_ofEntry {e : Entry} {p : Pulse} :
    p ∈ Pulse.ofEntry e ↔ p.entry = e ∧ p.segment = e.timing.segment ∧ e.timing.IsEdge p.tick := by
  obtain ⟨segment, tick, entry⟩ := p
  rw [Pulse.ofEntry, List.mem_cons, Timing.IsEdge]
  by_cases hp : e.timing.isPoint
  · have hfinish : e.timing.finish = e.timing.ticks := by
      simp only [Timing.isPoint, beq_iff_eq] at hp
      simp [Timing.finish, hp]
    simp [hp, hfinish]
    tauto
  · simp [hp]
    tauto

theorem WellFormed.mem_drives (hs : s.WellFormed) {line : Nat} {e : Entry} :
    e ∈ s.timedEntries (s.descendantInstructions (.device line) false) ↔ s.Drives line e := by
  rw [mem_timedEntries, hs.mem_descendantInstructions, Drives]
  have howner : e.IsIn s → s.owner? e.id = e.instruction.owner := fun he => by
    simp [owner?, show s.instruction? _ = _ from he]
  constructor
  · rintro ⟨⟨p, hp, ho⟩, hin, ht⟩
    exact ⟨hin, ht, p, hp, (howner hin).symm.trans ho⟩
  · rintro ⟨hin, ht, p, hp, ho⟩
    exact ⟨⟨p, hp, (howner hin).trans ho⟩, hin, ht⟩

/-- The starts and ends of some instructions are pulses that are apart. -/
private theorem apart_iff {period : Int} {es : List Entry} :
    (∀ a ∈ es.flatMap Pulse.ofEntry, ∀ b ∈ es.flatMap Pulse.ofEntry, Pulse.Apart period a b) ↔
      ∀ a ∈ es, ∀ b ∈ es, a.timing.segment = b.timing.segment →
        ∀ m n, a.timing.IsEdge m → b.timing.IsEdge n → m < n → m + period ≤ n := by
  simp only [List.mem_flatMap, mem_ofEntry]
  constructor
  · intro hall a ha b hb hseg m n hm hn
    exact hall ⟨_, m, a⟩ ⟨a, ha, rfl, rfl, hm⟩ ⟨_, n, b⟩ ⟨b, hb, rfl, rfl, hn⟩ hseg
  · rintro hall p ⟨a, ha, -, hsa, hm⟩ q ⟨b, hb, -, hsb, hn⟩ hseg
    exact hall a ha b hb (hsa ▸ hsb ▸ hseg) p.tick q.tick hm hn

theorem WellFormed.clear_clockLine (hs : s.WellFormed) (line : Nat) :
    Finding.Clear (s.clockLineFindings line) ↔ s.Paces line := by
  have hviolations : ∀ f ∈ Pulse.findings line (s.limitsAt line).periodTicks
      (s.timedEntries (s.descendantInstructions (.device line) false)), f.isViolation := by
    intro f hf
    rw [Pulse.findings, List.mem_append] at hf
    rcases hf with hf | hf
    · obtain ⟨e, -, rfl⟩ := List.mem_map.mp hf
      rfl
    · split at hf
      · cases hf
      · obtain ⟨e, -, rfl⟩ := List.mem_map.mp hf
        rfl
  have hhold : ¬ (s.limitsAt line).cannotHoldPulses = true ↔ (0 < (s.limitsAt line).triggerDuration →
      ¬ (s.limitsAt line).period * (1 + 1e-9) < 2 * (s.limitsAt line).triggerDuration) := by
    simp [Limits.cannotHoldPulses]
  rw [clockLineFindings, Finding.clear_append, Finding.clear_if rfl, hhold, Finding.clear_iff_eq_nil hviolations,
    Pulse.findings_eq_nil, apart_iff]
  simp only [hs.mem_drives, Timing.isSampledWithin, Bool.and_eq_true, Bool.not_eq_true',
    decide_eq_true_eq, not_and, Int.not_lt]
  constructor
  · rintro ⟨h₁, h₂, h₃⟩
    exact ⟨h₁, fun e he hp hpos => h₂ e he ⟨by simpa using hp, hpos⟩, fun a b ha hb => h₃ a ha b hb⟩
  · rintro ⟨h₁, h₂, h₃⟩
    exact ⟨h₁, fun e he hp => h₂ e he (by simpa using hp.1) hp.2, fun a ha b hb => h₃ a b ha hb⟩

/-! ## Waits in the dead time of another one -/

theorem Resolved.clear_waits (h : s.Resolved) (hp : s.IsPlain) :
    Finding.Clear s.waitFindings ↔
      ∀ w : Entry, w.IsIn s → w.instruction.kind = .wait → 0 ≤ w.timing.ticks := by
  have hmem : ∀ w : Entry, w ∈ s.entries s.waits.toList ↔ w.IsIn s ∧ w.instruction.kind = .wait :=
    fun w => by
      rw [mem_entries, Array.mem_toList_iff, and_comm]
      exact and_congr_right fun hin => h.mem_waits hp.keepsTables hin
  rw [waitFindings, Finding.clear_iff_eq_nil, List.map_eq_nil_iff, List.filter_eq_nil_iff]
  · simp only [hmem, decide_eq_true_eq, Int.not_lt, and_imp]
  · intro f hf
    obtain ⟨e, -, rfl⟩ := List.mem_map.mp hf
    rfl

end Shot
end ShotTiming
