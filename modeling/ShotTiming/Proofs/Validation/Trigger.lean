import Mathlib.Data.List.Basic
import Mathlib.Data.List.Pairwise
import ShotTiming.Validation.Trigger

/-! # The pulses of a trigger against their definition

A pulse starts at the first of a run of values other than 0 and ends at the 0 that follows the run in
the same segment.
-/
namespace ShotTiming

/-- A value other than 0. -/
def Entry.IsHigh (e : Entry) : Prop := e.instruction.action.value?.any (· != 0)

instance (e : Entry) : Decidable e.IsHigh := inferInstanceAs (Decidable (_ = true))

/-- An earlier segment, or an earlier tick of the segment. -/
def Entry.Precedes (a b : Entry) : Prop :=
  a.timing.segment < b.timing.segment ∨
    (a.timing.segment = b.timing.segment ∧ a.timing.ticks < b.timing.ticks)

namespace HighTime

/-- A pulse as a part of a list: a run of high values that no high value of the segment leads up to,
and the low value at its end. -/
structure CutsOut (h : HighTime) (es pre mid post : List Entry) : Prop where
  eq : es = pre ++ h.rise :: (mid ++ h.fall :: post)
  rise : h.rise.IsHigh
  run : ∀ e ∈ mid, e.IsHigh ∧ e.timing.segment = h.rise.timing.segment
  fall : ¬ h.fall.IsHigh
  segment : h.fall.timing.segment = h.rise.timing.segment
  first : ∀ l, pre.getLast? = some l → l.IsHigh → l.timing.segment ≠ h.rise.timing.segment

def IsCut (h : HighTime) (es : List Entry) : Prop := ∃ pre mid post, h.CutsOut es pre mid post

variable {h : HighTime} {es pre mid post : List Entry} {e r p : Entry}

theorem not_isCut_nil : ¬ h.IsCut [] := by
  rintro ⟨pre, mid, post, hc⟩
  simpa using hc.eq

/-- A value in front of a pulse leaves it, unless it belongs to the run. -/
theorem CutsOut.cons (hc : h.CutsOut es pre mid post)
    (hp : pre = [] → e.IsHigh → e.timing.segment ≠ h.rise.timing.segment) :
    h.CutsOut (e :: es) (e :: pre) mid post where
  eq := by rw [hc.eq, List.cons_append]
  rise := hc.rise
  run := hc.run
  fall := hc.fall
  segment := hc.segment
  first l hl hh := by
    cases pre with
    | nil =>
      have hel : e = l := by simpa using hl
      exact hel ▸ hp rfl (hel ▸ hh)
    | cons x pre => exact hc.first l (by simpa [List.getLast?_cons_cons] using hl) hh

theorem CutsOut.tail (hc : h.CutsOut (e :: es) (p :: pre) mid post) : h.CutsOut es pre mid post where
  eq := (List.cons.inj hc.eq).2
  rise := hc.rise
  run := hc.run
  fall := hc.fall
  segment := hc.segment
  first l hl := hc.first l (by simp [List.getLast?_cons, hl])

/-- A low value in front is no part of a pulse. -/
theorem isCut_cons_low (he : ¬ e.IsHigh) : h.IsCut (e :: es) ↔ h.IsCut es := by
  constructor
  · rintro ⟨pre, mid, post, hc⟩
    cases pre with
    | nil =>
      have := (List.cons.inj hc.eq).1
      exact absurd (this ▸ hc.rise) he
    | cons p pre => exact ⟨pre, mid, post, hc.tail⟩
  · rintro ⟨pre, mid, post, hc⟩
    exact ⟨e :: pre, mid, post, hc.cons fun _ hh => absurd hh he⟩

/-- A value in front of another segment is no part of a pulse. -/
theorem isCut_cons_segment (he : r.timing.segment ≠ e.timing.segment) :
    h.IsCut (r :: e :: es) ↔ h.IsCut (e :: es) := by
  constructor
  · rintro ⟨pre, mid, post, hc⟩
    cases pre with
    | nil =>
      obtain ⟨hr, hrest⟩ := List.cons.inj hc.eq
      exfalso
      cases mid with
      | nil =>
        have := (List.cons.inj hrest).1
        exact he (by rw [hr, this, hc.segment])
      | cons m mid =>
        have := (List.cons.inj hrest).1
        exact he (by rw [hr, this, (hc.run m (by simp)).2])
    | cons p pre => exact ⟨pre, mid, post, hc.tail⟩
  · rintro ⟨pre, mid, post, hc⟩
    refine ⟨r :: pre, mid, post, hc.cons fun hpre _ => ?_⟩
    subst hpre
    rwa [← (List.cons.inj hc.eq).1]

/-- A further high value of a run makes no difference to the pulses. -/
theorem isCut_cons_high (hr : r.IsHigh) (he : e.IsHigh) (hs : r.timing.segment = e.timing.segment) :
    h.IsCut (r :: e :: es) ↔ h.IsCut (r :: es) := by
  constructor
  · rintro ⟨pre, mid, post, hc⟩
    match pre with
    | [] =>
      obtain ⟨hre, hrest⟩ := List.cons.inj hc.eq
      cases mid with
      | nil =>
        have := (List.cons.inj hrest).1
        exact absurd (this ▸ he) hc.fall
      | cons m mid =>
        refine ⟨[], mid, post, ?_, hc.rise, fun k hk => hc.run k (by simp [hk]), hc.fall, hc.segment,
          by simp⟩
        rw [hre, (List.cons.inj hrest).2]
        rfl
    | [p] =>
      obtain ⟨hrp, hrest⟩ := List.cons.inj hc.eq
      have hee := (List.cons.inj hrest).1
      exact absurd (by rw [← hrp, hs, hee]) (hc.first p rfl (hrp ▸ hr))
    | p :: q :: pre =>
      have heq := (List.cons.inj hc.tail.eq).1
      refine ⟨r :: pre, mid, post, hc.tail.tail.cons fun hpre _ => ?_⟩
      subst hpre
      rw [hs, heq]
      exact hc.first q rfl (heq ▸ he)
  · rintro ⟨pre, mid, post, hc⟩
    cases pre with
    | nil =>
      obtain ⟨hre, hrest⟩ := List.cons.inj hc.eq
      refine ⟨[], e :: mid, post, by rw [hre, hrest]; rfl, hc.rise, ?_, hc.fall, hc.segment, by simp⟩
      intro k hk
      rcases List.mem_cons.mp hk with rfl | hk
      · exact ⟨he, by rw [← hs, hre]⟩
      · exact hc.run k hk
    | cons p pre =>
      have hrp := (List.cons.inj hc.eq).1
      refine ⟨r :: e :: pre, mid, post, (hc.tail.cons fun hpre _ => ?_).cons nofun⟩
      subst hpre
      rw [← hs, hrp]
      exact hc.first p rfl (hrp ▸ hr)

/-- A low value ends the pulse of a run. -/
theorem isCut_cons_fall (hr : r.IsHigh) (he : ¬ e.IsHigh) (hs : r.timing.segment = e.timing.segment) :
    h.IsCut (r :: e :: es) ↔ h = ⟨r, e⟩ ∨ h.IsCut es := by
  constructor
  · rintro ⟨pre, mid, post, hc⟩
    cases pre with
    | nil =>
      obtain ⟨hre, hrest⟩ := List.cons.inj hc.eq
      cases mid with
      | nil =>
        have hef := (List.cons.inj hrest).1
        left
        cases h
        simp_all
      | cons m mid =>
        have := (List.cons.inj hrest).1
        exact absurd (this ▸ (hc.run m (by simp)).1) he
    | cons p pre => exact .inr ((isCut_cons_low he).mp ⟨pre, mid, post, hc.tail⟩)
  · rintro (rfl | ⟨pre, mid, post, hc⟩)
    · exact ⟨[], [], es, rfl, hr, by simp, he, hs.symm, by simp⟩
    · exact ⟨r :: e :: pre, mid, post, (hc.cons fun _ hh => absurd hh he).cons nofun⟩

/-! ## The steps of the scan for pulses -/

theorem pulses_high (he : e.IsHigh) : pulses none (e :: es) = pulses (some e) es := by
  have he' : e.instruction.action.value?.any (· != 0) = true := he
  simp only [pulses, Option.filter_none, he', if_true, Option.none_or]

theorem pulses_low (he : ¬ e.IsHigh) : pulses none (e :: es) = pulses none es := by
  have he' : ¬ e.instruction.action.value?.any (· != 0) = true := he
  simp only [pulses, Option.filter_none, he', Bool.false_eq_true, if_false]

theorem pulses_run (he : e.IsHigh) (hs : r.timing.segment = e.timing.segment) :
    pulses (some r) (e :: es) = pulses (some r) es := by
  have he' : e.instruction.action.value?.any (· != 0) = true := he
  have hkeep : (some r).filter (·.timing.segment == e.timing.segment) = some r := by
    simp [Option.filter, hs]
  simp only [pulses, hkeep, he', if_true, Option.some_or]

theorem pulses_fall (he : ¬ e.IsHigh) (hs : r.timing.segment = e.timing.segment) :
    pulses (some r) (e :: es) = ⟨r, e⟩ :: pulses none es := by
  have he' : ¬ e.instruction.action.value?.any (· != 0) = true := he
  have hkeep : (some r).filter (·.timing.segment == e.timing.segment) = some r := by
    simp [Option.filter, hs]
  simp only [pulses, hkeep, he', Bool.false_eq_true, if_false]

theorem pulses_segment (hs : r.timing.segment ≠ e.timing.segment) :
    pulses (some r) (e :: es) = pulses none (e :: es) := by
  have hdrop : (some r).filter (·.timing.segment == e.timing.segment) = none := by
    simp [Option.filter, hs]
  simp only [pulses, hdrop, Option.filter_none]

/-- The pulses of a list, and those of a list behind the start of one. -/
theorem mem_pulses (es : List Entry) :
    (h ∈ pulses none es ↔ h.IsCut es) ∧
      ∀ r : Entry, r.IsHigh → (h ∈ pulses (some r) es ↔ h.IsCut (r :: es)) := by
  induction es with
  | nil =>
    refine ⟨by simp [pulses, not_isCut_nil], fun r hr => ?_⟩
    simp only [pulses, List.not_mem_nil, false_iff]
    rintro ⟨pre, mid, post, hc⟩
    have := congrArg List.length hc.eq
    simp at this
    omega
  | cons e es ih =>
    have hnone : h ∈ pulses none (e :: es) ↔ h.IsCut (e :: es) := by
      by_cases he : e.IsHigh
      · rw [pulses_high he]
        exact ih.2 e he
      · rw [pulses_low he, ih.1, isCut_cons_low he]
    refine ⟨hnone, fun r hr => ?_⟩
    by_cases hs : r.timing.segment = e.timing.segment
    · by_cases he : e.IsHigh
      · rw [pulses_run he hs, ih.2 r hr, isCut_cons_high hr he hs]
      · rw [pulses_fall he hs, List.mem_cons, ih.1, isCut_cons_fall hr he hs]
    · rw [pulses_segment hs, isCut_cons_segment hs, hnone]

/-! ## Pulses by the order of the instructions -/

/-- A pulse among some instructions, by their order: only high values lie between its ends, and a low
value lies between its start and any high value of the segment before. -/
structure Among (h : HighTime) (present : Entry → Prop) : Prop where
  there : present h.rise ∧ present h.fall
  rise : h.rise.IsHigh
  fall : ¬ h.fall.IsHigh
  segment : h.fall.timing.segment = h.rise.timing.segment
  ordered : h.rise.Precedes h.fall
  run : ∀ e, present e → h.rise.Precedes e → e.Precedes h.fall → e.IsHigh
  first : ∀ e, present e → e.Precedes h.rise → e.timing.segment = h.rise.timing.segment → e.IsHigh →
    ∃ l, present l ∧ e.Precedes l ∧ l.Precedes h.rise ∧ ¬ l.IsHigh

private theorem precedes_asymm {a b : Entry} (hab : a.Precedes b) : ¬ b.Precedes a := by
  unfold Entry.Precedes at *
  omega

private theorem segment_le {a b : Entry} (hab : a.Precedes b) : a.timing.segment ≤ b.timing.segment := by
  unfold Entry.Precedes at hab
  omega

/-- In order, what precedes a member stands in front of it. -/
private theorem mem_of_precedes {pre rest : List Entry} {a b : Entry}
    (hord : (pre ++ a :: rest).Pairwise Entry.Precedes) (hb : b ∈ pre ++ a :: rest) :
    (b.Precedes a ↔ b ∈ pre) ∧ (a.Precedes b ↔ b ∈ rest) := by
  obtain ⟨-, hrest, hacross⟩ := List.pairwise_append.mp hord
  have hafter := (List.pairwise_cons.mp hrest).1
  have hbefore : ∀ x ∈ pre, x.Precedes a := fun x hx => hacross x hx a (by simp)
  refine ⟨⟨fun h => ?_, hbefore b⟩, ⟨fun h => ?_, hafter b⟩⟩
  · rcases List.mem_append.mp hb with hb | hb
    · exact hb
    · rcases List.mem_cons.mp hb with rfl | hb
      · exact absurd h (precedes_asymm h)
      · exact absurd h (precedes_asymm (hafter b hb))
  · rcases List.mem_append.mp hb with hb | hb
    · exact absurd h (precedes_asymm (hbefore b hb))
    · rcases List.mem_cons.mp hb with rfl | hb
      · exact absurd h (precedes_asymm h)
      · exact hb

private theorem CutsOut.among {pre mid post : List Entry} (hc : h.CutsOut es pre mid post)
    (hord : es.Pairwise Entry.Precedes) : h.Among (· ∈ es) := by
  have heq : es = (pre ++ h.rise :: mid) ++ h.fall :: post := by simp [hc.eq]
  have hrise := fun e (he : e ∈ es) => mem_of_precedes (hc.eq ▸ hord) (hc.eq ▸ he)
  have hfall := fun e (he : e ∈ es) => mem_of_precedes (heq ▸ hord) (heq ▸ he)
  have hin : h.rise ∈ es ∧ h.fall ∈ es := by simp [hc.eq]
  refine ⟨hin, hc.rise, hc.fall, hc.segment, (hfall _ hin.1).1.mpr (by simp), ?_, ?_⟩
  · intro e he h₁ h₂
    have hpre := (hfall e he).1.mp h₂
    rcases List.mem_append.mp hpre with hpre | hmid
    · exact absurd ((hrise e he).1.mpr hpre) (precedes_asymm h₁)
    · rcases List.mem_cons.mp hmid with rfl | hmid
      · exact hc.rise
      · exact (hc.run e hmid).1
  · intro e he h₁ hs hh
    have hpre := (hrise e he).1.mp h₁
    obtain ⟨pre', l, rfl⟩ := (List.eq_nil_or_concat' pre).resolve_left (List.ne_nil_of_mem hpre)
    have hl : l ∈ es := by simp [hc.eq]
    have hlr : l.Precedes h.rise := (hrise l hl).1.mpr (by simp)
    have hel : e = l ∨ e.Precedes l := by
      rcases List.mem_append.mp hpre with hpre | hpre
      · have hsplit : es = pre' ++ l :: (h.rise :: (mid ++ h.fall :: post)) := by simp [hc.eq]
        exact .inr ((mem_of_precedes (hsplit ▸ hord) (hsplit ▸ he)).1.mpr hpre)
      · exact .inl (List.mem_singleton.mp hpre)
    have hlow : ¬ l.IsHigh := by
      intro hhigh
      have hne := hc.first l (by simp) hhigh
      have h₂ := segment_le hlr
      rcases hel with rfl | hel
      · exact hne hs
      · have := segment_le hel
        omega
    rcases hel with rfl | hel
    · exact absurd hh hlow
    · exact ⟨l, hl, hel, hlr, hlow⟩

private theorem Among.isCut (ha : h.Among (· ∈ es)) (hord : es.Pairwise Entry.Precedes) : h.IsCut es := by
  obtain ⟨pre, rest, hsplit⟩ := List.append_of_mem ha.there.1
  have hrise := fun e (he : e ∈ es) => mem_of_precedes (hsplit ▸ hord) (hsplit ▸ he)
  obtain ⟨mid, post, hrest⟩ := List.append_of_mem ((hrise _ ha.there.2).2.mp ha.ordered)
  have heq : es = pre ++ h.rise :: (mid ++ h.fall :: post) := by rw [hsplit, hrest]
  have heq' : es = (pre ++ h.rise :: mid) ++ h.fall :: post := by simp [heq]
  have hfall := fun e (he : e ∈ es) => mem_of_precedes (heq' ▸ hord) (heq' ▸ he)
  refine ⟨pre, mid, post, heq, ha.rise, fun e he => ?_, ha.fall, ha.segment, fun l hl hh hs => ?_⟩
  · have hin : e ∈ es := by simp [heq, he]
    have h₁ := (hrise e hin).2.mpr (by simp [hrest, he])
    have h₂ := (hfall e hin).1.mpr (by simp [he])
    refine ⟨ha.run e hin h₁ h₂, ?_⟩
    have := segment_le h₁
    have := segment_le h₂
    have := ha.segment
    omega
  · obtain ⟨pre', rfl⟩ := List.getLast?_eq_some_iff.mp hl
    have hin : l ∈ es := by simp [heq]
    have hlr := (hrise l hin).1.mpr (by simp)
    obtain ⟨k, hk, hlk, hkr, -⟩ := ha.first l hin hlr hs hh
    have hsplit' : es = pre' ++ l :: (h.rise :: rest) := by simp [hsplit]
    have hafter := (mem_of_precedes (hsplit' ▸ hord) (hsplit' ▸ hk)).2.mp hlk
    rcases List.mem_cons.mp hafter with rfl | hafter
    · exact precedes_asymm hkr hkr
    · exact precedes_asymm hkr ((hrise k hk).2.mpr hafter)

/-- Cutting a list in order gives the pulses that the order defines. -/
theorem isCut_iff_among (hord : es.Pairwise Entry.Precedes) : h.IsCut es ↔ h.Among (· ∈ es) :=
  ⟨fun ⟨_, _, _, hc⟩ => hc.among hord, fun ha => ha.isCut hord⟩

end HighTime
end ShotTiming
