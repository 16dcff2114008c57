import Mathlib.Data.List.Induction
import ShotTiming.Validation.Output

/-! # The scan of an output against its definition

The scan keeps one point and one ramp of all that it has passed. On instructions in order that is
enough: it reports a conflict exactly where some earlier instruction of the segment is in the way.
-/
namespace ShotTiming

/-- What fails a validation. A shared tick is only worth a warning. -/
def Finding.isViolation : Finding → Bool
  | sharedTick .. => false
  | _ => true

/-- Nothing among some findings fails a validation. -/
def Finding.Clear (fs : List Finding) : Prop := ∀ f ∈ fs, ¬ f.isViolation

namespace Finding

theorem clear_nil : Clear [] := by simp [Clear]

theorem clear_append {fs gs : List Finding} : Clear (fs ++ gs) ↔ Clear fs ∧ Clear gs := by
  simp [Clear, or_imp, forall_and]

theorem clear_flatMap {α : Type} {f : α → List Finding} {xs : List α} :
    Clear (xs.flatMap f) ↔ ∀ x ∈ xs, Clear (f x) := by
  simp only [Clear, List.mem_flatMap]
  constructor
  · exact fun h x hx g hg => h g ⟨x, hx, hg⟩
  · rintro h g ⟨x, hx, hg⟩
    exact h x hx g hg

theorem clear_if {c : Prop} [Decidable c] {f : Finding} (hf : f.isViolation) :
    Clear (if c then [f] else []) ↔ ¬ c := by
  by_cases hc : c <;> simp [Clear, hc, hf]

/-- Violations are not clear, however many there are. -/
theorem clear_iff_eq_nil {fs : List Finding} (h : ∀ f ∈ fs, f.isViolation) : Clear fs ↔ fs = [] := by
  constructor
  · intro hc
    refine List.eq_nil_iff_forall_not_mem.mpr fun f hf => hc f hf (h f hf)
  · rintro rfl
    exact clear_nil

end Finding

/-- An instruction is in the way of a later one of its segment: two points share a tick, or a ramp
starts before another one is over. -/
def Entry.Blocks (a b : Entry) : Prop :=
  a.timing.segment = b.timing.segment ∧
    ((a.timing.isPoint ∧ b.timing.isPoint ∧ a.timing.ticks = b.timing.ticks) ∨
      (¬ a.timing.isPoint ∧ ¬ b.timing.isPoint ∧ b.timing.ticks < a.timing.finish))

namespace Entry

/-- A point of the segment at the tick where an instruction starts. -/
def IsPointAt (a b : Entry) : Prop :=
  a.timing.segment = b.timing.segment ∧ a.timing.isPoint ∧ a.timing.ticks = b.timing.ticks

/-- A ramp of the segment that ends after the tick where an instruction starts. -/
def RunsPast (a b : Entry) : Prop :=
  a.timing.segment = b.timing.segment ∧ ¬ a.timing.isPoint ∧ b.timing.ticks < a.timing.finish

/-- A ramp of the segment that does not end before the tick where an instruction starts. -/
def RunsTo (a b : Entry) : Prop :=
  a.timing.segment = b.timing.segment ∧ ¬ a.timing.isPoint ∧ b.timing.ticks ≤ a.timing.finish

instance (a b : Entry) : Decidable (a.IsPointAt b) := inferInstanceAs (Decidable (_ ∧ _))

instance (a b : Entry) : Decidable (a.RunsPast b) := inferInstanceAs (Decidable (_ ∧ _))

instance (a b : Entry) : Decidable (a.RunsTo b) := inferInstanceAs (Decidable (_ ∧ _))

theorem Blocks.of_point {a b : Entry} (hb : b.timing.isPoint) : a.Blocks b ↔ a.IsPointAt b := by
  simp [Blocks, IsPointAt, hb]

theorem Blocks.of_ramp {a b : Entry} (hb : ¬ b.timing.isPoint) : a.Blocks b ↔ a.RunsPast b := by
  simp [Blocks, RunsPast, hb]

end Entry

/-- What is found on an instruction that stands behind some others, by what they are to it. -/
inductive Conflict (pre : List Entry) (e : Entry) : Option Finding → Prop
  | sameTick {a : Entry} (he : e.timing.isPoint) (ha : a ∈ pre) (hat : a.IsPointAt e) :
    Conflict pre e (some (.sameTick e a))
  | onRamp {r : Entry} (he : e.timing.isPoint) (hno : ∀ a ∈ pre, ¬ a.IsPointAt e) (hr : r ∈ pre)
    (hto : r.RunsTo e) : Conflict pre e (some (.sharedTick e r))
  | freePoint (he : e.timing.isPoint) (hno : ∀ a ∈ pre, ¬ a.IsPointAt e)
    (hto : ∀ a ∈ pre, ¬ a.RunsTo e) : Conflict pre e none
  | overlap {r : Entry} (he : ¬ e.timing.isPoint) (hr : r ∈ pre) (hpast : r.RunsPast e) :
    Conflict pre e (some (.overlap e r))
  | onPoint {a : Entry} (he : ¬ e.timing.isPoint) (hno : ∀ a ∈ pre, ¬ a.RunsPast e) (ha : a ∈ pre)
    (hat : a.IsPointAt e) : Conflict pre e (some (.sharedTick e a))
  | freeRamp (he : ¬ e.timing.isPoint) (hno : ∀ a ∈ pre, ¬ a.RunsPast e)
    (hat : ∀ a ∈ pre, ¬ a.IsPointAt e) : Conflict pre e none

theorem Conflict.isViolation_iff {pre : List Entry} {e : Entry} {o : Option Finding}
    (h : Conflict pre e o) : o.any (·.isViolation) ↔ ∃ a ∈ pre, a.Blocks e := by
  cases h with
  | sameTick he ha hat => exact iff_of_true rfl ⟨_, ha, (Entry.Blocks.of_point he).mpr hat⟩
  | overlap he hr hpast => exact iff_of_true rfl ⟨_, hr, (Entry.Blocks.of_ramp he).mpr hpast⟩
  | onRamp he hno _ _ | freePoint he hno _ =>
    refine iff_of_false (by simp [Finding.isViolation]) ?_
    rintro ⟨a, ha, hb⟩
    exact hno a ha ((Entry.Blocks.of_point he).mp hb)
  | onPoint he hno _ _ | freeRamp he hno _ =>
    refine iff_of_false (by simp [Finding.isViolation]) ?_
    rintro ⟨a, ha, hb⟩
    exact hno a ha ((Entry.Blocks.of_ramp he).mp hb)

namespace Scan

variable {c : Scan} {pre : List Entry} {e : Entry}

/-- The scan moved on by an instruction. -/
def pass (c : Scan) (e : Entry) : Scan := (c.enter e.timing.segment).add e

/-- The scan that has passed some instructions. -/
def passed (pre : List Entry) : Scan := pre.foldl pass {}

/-- What the scan finds on the next instruction. -/
def conflict? (c : Scan) (e : Entry) : Option Finding :=
  let c := c.enter e.timing.segment
  if e.timing.isPoint then c.pointConflict? e else c.rampConflict? e

theorem passed_snoc : passed (pre ++ [e]) = (passed pre).pass e := by simp [passed]

theorem conflicts_append (c : Scan) (es fs : List Entry) :
    c.conflicts (es ++ fs) = c.conflicts es ++ (es.foldl pass c).conflicts fs := by
  induction es generalizing c with
  | nil => rfl
  | cons e es ih => simp only [List.cons_append, conflicts, ih, List.foldl_cons, pass]

theorem length_conflicts (c : Scan) (es : List Entry) : (c.conflicts es).length = es.length := by
  induction es generalizing c with
  | nil => rfl
  | cons e es ih => simp [conflicts, ih]

theorem isBefore_iff {t u : Timing} :
    t.isBefore u ↔ t.segment < u.segment ∨ (t.segment = u.segment ∧ t.ticks < u.ticks) := by
  simp [Timing.isBefore]

/-- The member of a kind with the largest key, if there is a member of the kind. -/
def Foremost (kind : Entry → Prop) (key : Entry → Int) (pre : List Entry) : Option Entry → Prop
  | none => ∀ a ∈ pre, ¬ kind a
  | some m => m ∈ pre ∧ kind m ∧ ∀ a ∈ pre, kind a → key a ≤ key m

section

variable {kind : Entry → Prop} {key : Entry → Int} {o : Option Entry}

theorem Foremost.append_other (h : Foremost kind key pre o) (he : ¬ kind e) :
    Foremost kind key (pre ++ [e]) o := by
  cases o with
  | none =>
    intro a ha
    rcases List.mem_append.mp ha with ha | ha
    · exact h a ha
    · exact List.mem_singleton.mp ha ▸ he
  | some m =>
    refine ⟨by simp [h.1], h.2.1, fun a ha hk => ?_⟩
    rcases List.mem_append.mp ha with ha | ha
    · exact h.2.2 a ha hk
    · exact absurd (List.mem_singleton.mp ha ▸ hk) he

theorem Foremost.append_new (he : kind e) (hmax : ∀ a ∈ pre, kind a → key a ≤ key e) :
    Foremost kind key (pre ++ [e]) (some e) := by
  refine ⟨by simp, he, fun a ha hk => ?_⟩
  rcases List.mem_append.mp ha with ha | ha
  · exact hmax a ha hk
  · exact (List.mem_singleton.mp ha ▸ Int.le_refl _)

theorem Foremost.append_behind {m : Entry} (h : Foremost kind key pre (some m))
    (hle : key e ≤ key m) : Foremost kind key (pre ++ [e]) (some m) := by
  refine ⟨by simp [h.1], h.2.1, fun a ha hk => ?_⟩
  rcases List.mem_append.mp ha with ha | ha
  · exact h.2.2 a ha hk
  · exact List.mem_singleton.mp ha ▸ hle

/-- Where a large key is asked for, the foremost member has it if any has. -/
theorem Foremost.filter {p : Entry → Bool} (h : Foremost kind key pre o) (bound : Int)
    (hp : ∀ a ∈ pre, kind a → (p a ↔ bound ≤ key a)) :
    (∀ m, o.filter p = some m → m ∈ pre ∧ kind m ∧ bound ≤ key m) ∧
      (o.filter p = none → ∀ a ∈ pre, kind a → ¬ bound ≤ key a) := by
  constructor
  · intro m hm
    obtain ⟨rfl, hpm⟩ := Option.filter_eq_some_iff.mp hm
    exact ⟨h.1, h.2.1, (hp m h.1 h.2.1).mp hpm⟩
  · intro hnone a ha hk hle
    cases o with
    | none => exact h a ha hk
    | some m =>
      have hm := (hp m h.1 h.2.1).mpr (Int.le_trans hle (h.2.2 a ha hk))
      exact Option.filter_eq_none_iff.mp hnone m rfl hm

end

/-- Of the segment it stands in, which is not before any that it has passed, the scan has the last
point and the ramp that reaches furthest. -/
structure Sees (c : Scan) (pre : List Entry) : Prop where
  segment : ∀ a ∈ pre, a.timing.segment ≤ c.segment
  point : Foremost (fun a => a.timing.segment = c.segment ∧ a.timing.isPoint) (·.timing.ticks) pre c.point
  ramp : Foremost (fun a => a.timing.segment = c.segment ∧ ¬ a.timing.isPoint) (·.timing.finish) pre c.ramp

theorem sees_nil : Sees {} [] := ⟨by simp, by simp [Foremost], by simp [Foremost]⟩

/-- Moving on to the segment of the next instruction keeps what matters. -/
theorem Sees.enter (h : Sees c pre) {segment : Nat} (hle : c.segment ≤ segment) :
    Sees (c.enter segment) pre ∧ (c.enter segment).segment = segment := by
  unfold Scan.enter
  split
  · rename_i he
    exact ⟨h, he.symm⟩
  · have hlt : ∀ a ∈ pre, a.timing.segment < segment := fun a ha => by
      have := h.segment a ha
      omega
    refine ⟨⟨fun a ha => Nat.le_of_lt (hlt a ha), ?_, ?_⟩, rfl⟩
    · exact fun a ha he => absurd he.1 (Nat.ne_of_lt (hlt a ha))
    · exact fun a ha he => absurd he.1 (Nat.ne_of_lt (hlt a ha))

private theorem ticks_le (hord : ∀ a ∈ pre, ¬ e.timing.isBefore a.timing) {a : Entry} (ha : a ∈ pre)
    (hs : a.timing.segment = e.timing.segment) : a.timing.ticks ≤ e.timing.ticks := by
  have := hord a ha
  rw [isBefore_iff] at this
  omega

/-- Adding the next instruction, which is not before any that was passed. -/
theorem Sees.add (h : Sees c pre) (hseg : e.timing.segment = c.segment)
    (hord : ∀ a ∈ pre, ¬ e.timing.isBefore a.timing) : Sees (c.add e) (pre ++ [e]) := by
  have hseg' : ∀ a ∈ pre ++ [e], a.timing.segment ≤ c.segment := by
    intro a ha
    rcases List.mem_append.mp ha with ha | ha
    · exact h.segment a ha
    · exact List.mem_singleton.mp ha ▸ Nat.le_of_eq hseg
  unfold Scan.add
  by_cases hp : e.timing.isPoint
  · rw [if_pos hp]
    refine ⟨hseg', .append_new ⟨hseg, hp⟩ ?_, h.ramp.append_other fun hk => hk.2 hp⟩
    exact fun a ha hk => ticks_le hord ha (hk.1.trans hseg.symm)
  · rw [if_neg hp]
    have hpoint := h.point.append_other (e := e) fun hk => hp hk.2
    have hramp := h.ramp
    cases hr : c.ramp with
    | none =>
      rw [hr] at hramp
      exact ⟨hseg', hpoint, .append_new ⟨hseg, hp⟩ fun a ha hk => absurd hk (hramp a ha)⟩
    | some r =>
      rw [hr] at hramp
      by_cases hlt : r.timing.finish < e.timing.finish
      · simp only [Option.all_some, decide_eq_true hlt, if_true]
        refine ⟨hseg', hpoint, .append_new ⟨hseg, hp⟩ fun a ha hk => ?_⟩
        exact Int.le_trans (hramp.2.2 a ha hk) (Int.le_of_lt hlt)
      · simp only [Option.all_some, decide_eq_false hlt, Bool.false_eq_true, if_false]
        refine ⟨hseg', hpoint, ?_⟩
        rw [hr]
        exact hramp.append_behind (Int.not_lt.mp hlt)

section

variable (h : Sees c pre) (hseg : e.timing.segment = c.segment)
  (hord : ∀ a ∈ pre, ¬ e.timing.isBefore a.timing)
include h hseg hord

/-- The last point is at a tick if any point of the segment is. -/
private theorem Sees.pointAt : (∀ p, c.pointAt? e.timing.ticks = some p → p ∈ pre ∧ p.IsPointAt e) ∧
    (c.pointAt? e.timing.ticks = none → ∀ a ∈ pre, ¬ a.IsPointAt e) := by
  have hle : ∀ a ∈ pre, a.timing.segment = c.segment → a.timing.ticks ≤ e.timing.ticks :=
    fun a ha hs => ticks_le hord ha (hs.trans hseg.symm)
  have hfilter := h.point.filter (p := (·.timing.ticks == e.timing.ticks)) e.timing.ticks
    fun a ha hk => by
      have := hle a ha hk.1
      rw [beq_iff_eq]
      omega
  constructor
  · intro p hp
    obtain ⟨hmem, ⟨hs, hk⟩, hge⟩ := hfilter.1 p hp
    exact ⟨hmem, hs.trans hseg.symm, hk, Int.le_antisymm (hle p hmem hs) hge⟩
  · rintro hnone a ha ⟨hs, hk, ht⟩
    exact hfilter.2 hnone a ha ⟨hs.trans hseg, hk⟩ (Int.le_of_eq ht.symm)

private theorem Sees.pointConflict (hp : e.timing.isPoint) : Conflict pre e (c.pointConflict? e) := by
  obtain ⟨hsome, hnone⟩ := h.pointAt hseg hord
  have hramp := h.ramp.filter
    (p := fun r => r.timing.ticks ≤ e.timing.ticks && e.timing.ticks ≤ r.timing.finish) e.timing.ticks
    fun a ha hk => by
      have := ticks_le hord ha (hk.1.trans hseg.symm)
      simp [this]
  rw [pointConflict?]
  cases hpa : c.pointAt? e.timing.ticks with
  | some p =>
    obtain ⟨hmem, hat⟩ := hsome p hpa
    exact .sameTick hp hmem hat
  | none =>
    have hno := hnone hpa
    cases hr : c.ramp.filter fun r => r.timing.ticks ≤ e.timing.ticks && e.timing.ticks ≤ r.timing.finish with
    | some r =>
      obtain ⟨hmem, ⟨hs, hk⟩, hle⟩ := hramp.1 r hr
      exact .onRamp hp hno hmem ⟨hs.trans hseg.symm, hk, hle⟩
    | none =>
      refine .freePoint hp hno ?_
      rintro a ha ⟨hs, hk, hle⟩
      exact hramp.2 hr a ha ⟨hs.trans hseg, hk⟩ hle

private theorem Sees.rampConflict (hp : ¬ e.timing.isPoint) : Conflict pre e (c.rampConflict? e) := by
  have hramp := h.ramp.filter (p := fun r => e.timing.ticks < r.timing.finish) (e.timing.ticks + 1)
    fun a _ _ => decide_eq_true_iff.trans Int.add_one_le_iff.symm
  rw [rampConflict?]
  cases hr : c.ramp.filter fun r => e.timing.ticks < r.timing.finish with
  | some r =>
    obtain ⟨hmem, ⟨hs, hk⟩, hlt⟩ := hramp.1 r hr
    exact .overlap hp hmem ⟨hs.trans hseg.symm, hk, hlt⟩
  | none =>
    have hno : ∀ a ∈ pre, ¬ a.RunsPast e := by
      rintro a ha ⟨hs, hk, hlt⟩
      exact hramp.2 hr a ha ⟨hs.trans hseg, hk⟩ hlt
    obtain ⟨hsome, hnone⟩ := h.pointAt hseg hord
    cases hpa : c.pointAt? e.timing.ticks with
    | some p =>
      obtain ⟨hmem, hat⟩ := hsome p hpa
      exact .onPoint hp hno hmem hat
    | none => exact .freeRamp hp hno (hnone hpa)

end

/-- The scan does not leave the segment that it moved to. -/
theorem segment_add (c : Scan) (e : Entry) : (c.add e).segment = c.segment := by
  rw [add]
  split
  · rfl
  · split <;> rfl

/-- Ordered instructions. -/
def Ordered (es : List Entry) : Prop := es.Pairwise fun a b => ¬ b.timing.isBefore a.timing

/-- After some instructions in order, the scan stands in the segment of one of them and sees them all. -/
structure Stands (c : Scan) (pre : List Entry) : Prop extends Sees c pre where
  stands : c.segment = 0 ∨ ∃ a ∈ pre, a.timing.segment = c.segment

theorem Stands.enter (h : Stands c pre) (hord : ∀ a ∈ pre, ¬ e.timing.isBefore a.timing) :
    Sees (c.enter e.timing.segment) pre ∧ (c.enter e.timing.segment).segment = e.timing.segment := by
  apply h.toSees.enter
  rcases h.stands with h0 | ⟨a, ha, hs⟩
  · omega
  · have := hord a ha
    rw [isBefore_iff] at this
    omega

theorem Stands.pass (h : Stands c pre) (hord : ∀ a ∈ pre, ¬ e.timing.isBefore a.timing) :
    Stands (c.pass e) (pre ++ [e]) := by
  obtain ⟨hsees, hseg⟩ := h.enter hord
  refine ⟨hsees.add hseg.symm hord, .inr ⟨e, by simp, ?_⟩⟩
  exact hseg.symm.trans (segment_add _ e).symm

theorem stands_passed (hord : Ordered pre) : Stands (passed pre) pre := by
  induction pre using List.reverseRecOn with
  | nil => exact ⟨sees_nil, .inl rfl⟩
  | append_singleton pre e ih =>
    obtain ⟨hpre, -, hlast⟩ := List.pairwise_append.mp hord
    rw [passed_snoc]
    exact (ih hpre).pass fun a ha => hlast a ha e (by simp)

/-- On instructions in order, the scan finds on the next one what they all are to it. -/
theorem conflict_passed (hord : Ordered (pre ++ [e])) : Conflict pre e ((passed pre).conflict? e) := by
  obtain ⟨hpre, -, hlast⟩ := List.pairwise_append.mp hord
  have hlast' : ∀ a ∈ pre, ¬ e.timing.isBefore a.timing := fun a ha => hlast a ha e (by simp)
  obtain ⟨hsees, hseg⟩ := (stands_passed hpre).enter hlast'
  rw [conflict?]
  split
  · exact hsees.pointConflict hseg.symm hlast' (by assumption)
  · exact hsees.rampConflict hseg.symm hlast' (by assumption)

/-- No conflict is a violation exactly if no instruction is in the way of a later one. -/
theorem conflicts_clear {es : List Entry}
    (hord : es.Pairwise fun a b => ¬ b.timing.isBefore a.timing) :
    (∀ o ∈ conflicts {} es, o.any (·.isViolation) = false) ↔ es.Pairwise fun a b => ¬ a.Blocks b := by
  induction es using List.reverseRecOn with
  | nil => simp [conflicts]
  | append_singleton pre e ih =>
    have hlast := (conflict_passed hord).isViolation_iff
    have hsplit : conflicts {} (pre ++ [e]) = conflicts {} pre ++ [(passed pre).conflict? e] :=
      conflicts_append {} pre [e]
    rw [hsplit, List.forall_mem_append, ih (List.pairwise_append.mp hord).1, List.pairwise_append,
      List.forall_mem_singleton, ← Bool.not_eq_true, hlast]
    simp

end Scan
end ShotTiming
