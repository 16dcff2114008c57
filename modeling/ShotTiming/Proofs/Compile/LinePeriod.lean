import ShotTiming.Proofs.Compile.Limits
import ShotTiming.Proofs.Ticks.Ceiling

/-! # The period of a clock line

A clock line takes the largest minimum period that its pseudoclock or a device it clocks asks for, and rounds it
up to whole ticks. What it rounds up is not below zero and its tick is above zero, so the period stands for the
largest one as far as a count within the slack can.
-/
namespace ShotTiming

namespace Shot

variable {s : Shot} {line clock : Nat} {ids : List Nat} {source : ClockSource} {l : Limits} {raw : Bool}

/-- Limits of a clock line have a period that is made of ticks of its pseudoclock for the largest minimum
period on the line, if the ratio of the two is in the range of the counts, and name the device it is from. -/
def RoundsLargest (s : Shot) (line : Nat) (l : Limits) : Prop :=
  ∃ (clock : Nat) (source : ClockSource) (ids : List Nat) (largest : Peak),
    s.parent? line = some (.device clock) ∧ s.source? (some clock) = some source ∧ s.Clocks line ids ∧
    Peak.Tops s.minimumPeriod? ids ⟨source.minimumPeriod, some clock⟩ largest ∧
    l.periodLimiter = largest.holder ∧
    (fitsInt64 (largest.value / source.timebase) →
      RoundsPeriod largest.value source.timebase l.period l.periodTicks)

theorem Suits.roundsLargest (h : s.Suits clock source ids l) (hs : s.Clocked) (hclocks : s.Clocks line ids)
    (hparent : s.parent? line = some (.device clock)) (hsource : s.source? (some clock) = some source) :
    s.RoundsLargest line l := by
  obtain ⟨largest, htops, hticks, hlimiter⟩ := h.ticks
  obtain ⟨hpos, hperiod⟩ := hs.usable_source hsource
  refine ⟨clock, source, ids, largest, hparent, hsource, hclocks, htops, hlimiter, fun hfits => ?_⟩
  rw [h.period, hticks]
  exact roundsPeriod_ceilCount (htops.nonneg hperiod) hpos hfits

/-- Whenever limits are worked out for a clock line, be it in a pass over the tree or by itself. -/
theorem roundsLargest_of_limitsOf? (h : s.Grown raw) (hk : s.kind? line = some .clockLine)
    (hl : s.limitsOf? line = some l) : s.RoundsLargest line l := by
  obtain ⟨d, hd, hkind⟩ := Option.map_eq_some_iff.mp hk
  rw [Shot.limitsOf?, hd] at hl
  cases he : d.equipment <;> simp [Device.kind, he, Equipment.kind] at hkind
  simp only [he] at hl
  obtain ⟨host, hhost, hl⟩ := Option.bind_eq_some_iff.mp hl
  cases host with
  | shot => cases hl
  | device clock =>
    obtain ⟨source, hsource, rfl⟩ := Option.map_eq_some_iff.mp hl
    have hparent : s.parent? line = some (.device clock) := by rw [parent?, hd, Option.bind_some, hhost]
    have hclocks := h.wellFormed.devices.clocks_clockedBy hk
    exact (h.clocked.suits hsource line).roundsLargest h.clocked hclocks hparent hsource

end Shot

namespace Compile
open Shot

variable {p q : Progress} {raw : Bool} {line : Nat} {d : Device}

theorem roundsLargest_of_run (h : p.shot.Grown raw) (ht : p.shot.KeepsTables)
    (hstd : p.shot.Unbroken limitsPass) (hrun : establishLimits.run p = .ok () q)
    (hd : q.shot.device? line = some d) (hk : d.kind = .clockLine) : q.shot.RoundsLargest line d.limits := by
  obtain ⟨htree, -, hlimits⟩ := hasLimits_of_run h.wellFormed.devices hstd hrun
  have hgrown : q.shot.Grown raw := (StaysIn.moves fun _ => staysIn_establishLimits).grown h hrun
  have hkind : q.shot.kind? line = some .clockLine := by rw [kind?, hd, Option.map_some, hk]
  obtain ⟨clock, source, hparent, hsource⟩ :=
    hgrown.wellFormed.source_of_clockLine (htree.keepsTables ht) hd hk
  have hl := limitsOf?_clockLine hd hk hparent hsource
  rw [(hlimits line).limits_eq hd hl]
  exact roundsLargest_of_limitsOf? hgrown hkind hl

/-- A ratio in the range of the counts is rounded up to a count in that range that is less than one above it
and below it by no more than the slack, and a larger ratio to no smaller count. So the period of a clock line
exceeds the largest minimum period by less than a tick, and from one tick on it falls short of it by one part
in `10 ^ 9` at most, up to the roundings of the ratio and of the period. -/
theorem ceilCount_withinSlack :
    (∀ ratio : Float, fitsInt64 ratio → CeilsTo ratio (ceilWithin defaultSlack ratio)) ∧
    (∀ ratio ratio' : Float, fitsInt64 ratio → fitsInt64 ratio' → ratio ≤ ratio' →
      ceilWithin defaultSlack ratio ≤ ceilWithin defaultSlack ratio') ∧
    (∀ value unit : Float, fitsInt64 (value / unit) →
      CeilsTo (value / unit) (ceilCount value unit defaultSlack)) ∧
    (∀ (raw : Bool) (s : Shot), s.Grown raw → ∀ line l, s.kind? line = some .clockLine →
      s.limitsOf? line = some l → s.RoundsLargest line l) ∧
    ∀ (raw : Bool) (p q : Progress), p.shot.Grown raw → p.shot.KeepsTables → p.shot.Unbroken limitsPass →
      establishLimits.run p = .ok () q → ∀ line d, q.shot.device? line = some d → d.kind = .clockLine →
        q.shot.RoundsLargest line d.limits := by
  refine ⟨fun ratio h => ceilsTo_ceilWithin h, fun ratio ratio' h h' hle => ceilWithin_mono h h' hle,
    fun value unit h => ceilsTo_ceilWithin h, ?_, ?_⟩
  · exact fun raw s h line l hk hl => roundsLargest_of_limitsOf? h hk hl
  · exact fun raw p q h ht hstd hrun line d hd hk => roundsLargest_of_run h ht hstd hrun hd hk

/-- A card that needs a little more than 120 ticks. -/
private def hurried : List Command := [
  .openShot "bench" {} {},
  .addDevice 0 (.shot 0) { name := "master", equipment := .pseudoclockDevice 0 } {},
  .addDevice 0 (.device 0 0) { name := "clock", equipment := .pseudoclock ⟨2.5e-8, 0, 1e-7⟩ } {},
  .addDevice 0 (.device 0 1) { name := "line", equipment := .clockLine } {},
  .addDevice 0 (.device 0 2) { name := "card", equipment := .clockableDevice 0 3.01e-6 } {},
  .nextPhase 0]

theorem ceilCount_withinSlack_hurried :
    CeilsTo (-1.5) (-1) ∧ CeilsTo (3.01e-6 / 2.5e-8) 121 ∧
      ceilWithin defaultSlack (-1.5) ≤ ceilWithin defaultSlack (3.01e-6 / 2.5e-8) ∧
      ∃ (p q : Progress) (d : Device), establishLimits.run p = .ok () q ∧ q.shot.device? 2 = some d ∧
        q.shot.RoundsLargest 2 d.limits ∧ RoundsPeriod 3.01e-6 2.5e-8 d.limits.period 121 := by
  obtain ⟨hceils, hmono, hcount, -, hlines⟩ := ceilCount_withinSlack
  obtain ⟨hnegative, hpositive, hle⟩ : fitsInt64 (-1.5) ∧ fitsInt64 (3.01e-6 / 2.5e-8) ∧
      (-1.5 : Float) ≤ 3.01e-6 / 2.5e-8 := by decide +kernel
  have hdown : CeilsTo (-1.5) (-1) := by
    have hvalue : ceilWithin defaultSlack (-1.5) = -1 := by decide +kernel
    exact hvalue ▸ hceils _ hnegative
  have hup : CeilsTo (3.01e-6 / 2.5e-8) 121 := by
    have hvalue : ceilCount 3.01e-6 2.5e-8 defaultSlack = 121 := by decide +kernel
    exact hvalue ▸ hcount _ _ hpositive
  obtain ⟨p, q, hr, ⟨ht, hstd⟩, hq, hlimits, hkind, hparent, hsource, hcard⟩ :=
    exists_of_script hurried establishLimits (fun s => s.KeepsTables ∧ s.Unbroken limitsPass)
      (fun s => s.limits? 2 = some ⟨3.025e-6, 121, some 3, 0, none⟩ ∧ s.kind? 2 = some .clockLine ∧
        s.parent? 2 = some (.device 1) ∧ s.source? (some 1) = some ⟨2.5e-8, 0, 1e-7⟩ ∧
        s.minimumPeriod? 3 = some 3.01e-6)
      (by decide) (by decide +kernel)
  obtain ⟨d, hd, hlimits⟩ := Option.map_eq_some_iff.mp hlimits
  have hline : d.kind = .clockLine := by simpa [kind?, hd] using hkind
  have hlargest := hlines false p q hr.grown ht hstd hq 2 d hd hline
  refine ⟨hdown, hup, hmono _ _ hnegative hpositive hle, p, q, d, hq, hd, hlargest, ?_⟩
  obtain ⟨clock, source, ids, largest, hclock, hticks, -, htops, hholder, hperiod⟩ := hlargest
  cases hparent.symm.trans hclock
  cases hsource.symm.trans hticks
  rw [hlimits] at hholder hperiod ⊢
  have hvalue : largest.value = 3.01e-6 := by
    cases htops with
    | start => cases hholder
    | first split has =>
      cases hholder
      exact Option.some_inj.mp (has.symm.trans hcard)
  rw [hvalue] at hperiod
  exact hperiod hpositive

end Compile
end ShotTiming
