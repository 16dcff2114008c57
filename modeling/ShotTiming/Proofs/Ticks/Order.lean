import ShotTiming.Proofs.Ticks.Bounds

/-!
# Later times get no earlier ticks

Each way of rounding keeps the order of the ratios. So does rounding up with its slack: what lies between
an integer and a ratio that the integer absorbs is absorbed by it as well.
-/
namespace ShotTiming
open Number

namespace Number

theorem ceil_mono {p q : ℚ} (h : p ≤ q) : p.ceil ≤ q.ceil := Rat.ceil_le_iff.mpr (h.trans Rat.le_ceil)

theorem nearestAway_mono {p q : ℚ} (h : p ≤ q) : nearestAway p ≤ nearestAway q := by
  unfold nearestAway
  rw [half_eq]
  split_ifs with hp hq hq
  · exact ceil_mono (by linarith)
  · have hlow : (p - 1 / 2).ceil ≤ 0 := Rat.ceil_le_iff.mpr (by push_cast; linarith)
    exact hlow.trans (Rat.le_floor_iff.mpr (by push_cast; linarith))
  · linarith
  · exact Int.floor_le_floor (show p + 1 / 2 ≤ q + 1 / 2 by linarith)

/-- Between an integer and a number that it is closest to, it is closest to all. -/
theorem nearestEven_between {p q : ℚ} (hn : nearestEven q ≤ p) (h : p ≤ q) :
    nearestEven p = nearestEven q :=
  le_antisymm (nearestEven_mono h) (le_nearestEven hn)

variable {x y z : Float}

/-- Taking the same away keeps the order, where the differences are finite. -/
theorem sub_le_sub (h : x ≤ y) (hx : (x - z).isFinite) (hy : (y - z).isFinite) : x - z ≤ y - z := by
  obtain ⟨p, hp⟩ := isFinite_iff_point.mp (isFinite_of_sub hx).1
  obtain ⟨q, hq⟩ := isFinite_iff_point.mp (isFinite_of_sub hy).1
  obtain ⟨r, hr⟩ := isFinite_iff_point.mp (isFinite_of_sub hx).2
  have hpq : p ≤ q := (le_iff_rational hp hq).mp h
  exact le_iff_point.mpr ⟨_, point?_sub_of_finite hp hr, _, point?_sub_of_finite hq hr,
    clamped_mono (roundedSigned_mono (by linarith))⟩

/-- Dividing by the same number above zero keeps the order, where the quotients are finite. -/
theorem div_le_div (h : x ≤ y) (hz : 0 < z) (hx : (x / z).isFinite) (hy : (y / z).isFinite) :
    x / z ≤ y / z := by
  obtain ⟨p, hp⟩ := isFinite_iff_point.mp (isFinite_of_div hx).1
  obtain ⟨q, hq⟩ := isFinite_iff_point.mp (isFinite_of_div hy).1
  have hpq : p ≤ q := (le_iff_rational hp hq).mp h
  by_cases htop : point? z = some ⊤
  · -- what is divided by infinity is nothing
    obtain ⟨u, hu⟩ := isFinite_iff_point.mp hx
    obtain ⟨v, hv⟩ := isFinite_iff_point.mp hy
    rw [le_iff_rational hu hv, ← rational_of_point hu, ← rational_of_point hv, rational_div_top x htop,
      rational_div_top y htop]
  · obtain ⟨r, hr, hpos⟩ := exists_rational_of_pos hz htop
    refine le_iff_point.mpr
      ⟨_, point?_div_of_finite hp hr hpos.ne', _, point?_div_of_finite hq hr hpos.ne', ?_⟩
    exact clamped_mono (roundedSigned_mono (by gcongr))

end Number

/-! ## Counts -/

theorem ceilWithin_mono {x y : Float} (hx : fitsInt64 x) (hy : fitsInt64 y) (h : x ≤ y) :
    ceilWithin defaultSlack x ≤ ceilWithin defaultSlack y := by
  obtain ⟨p, hp, hplt⟩ := exists_rational_of_fits hx
  obtain ⟨q, hq, hqlt⟩ := exists_rational_of_fits hy
  have hpq : p ≤ q := (le_iff_rational hp hq).mp h
  have hceil : ∀ r : ℚ, nearestEven r ≤ r.ceil := fun r => nearestEven_le Rat.le_ceil
  by_cases hax : Absorbed x <;> by_cases hay : Absorbed y
  · rw [ceilWithin_of_absorbed hax, ceilWithin_of_absorbed hay, rational_of_point hp, rational_of_point hq]
    exact nearestEven_mono hpq
  · rw [ceilWithin_of_absorbed hax, ceilWithin_of_not_absorbed hay, rational_of_point hp, rational_of_point hq]
    exact (nearestEven_mono hpq).trans (hceil q)
  · rw [ceilWithin_of_not_absorbed hax, ceilWithin_of_absorbed hay, rational_of_point hp, rational_of_point hq]
    by_contra hlt
    have hlow : (nearestEven q : ℚ) < p := by
      by_contra hge
      exact hlt (Rat.ceil_le_iff.mpr (not_lt.mp hge))
    -- the integer that absorbs the larger ratio absorbs the smaller one, which is closer to it
    have hnear : nearestEven p = nearestEven q := nearestEven_between hlow.le hpq
    obtain ⟨-, hdistp⟩ := point_distance hp hplt
    obtain ⟨-, hdistq⟩ := point_distance hq hqlt
    rw [Absorbed, rational_of_point hq] at hay
    rw [Absorbed, rational_of_point hp, hnear] at hax
    rw [hnear] at hdistp
    refine hax (Double.le_trans ?_ hay)
    rw [le_iff_rational hdistp hdistq, abs_of_nonneg (by linarith), abs_of_nonneg (by linarith)]
    linarith
  · rw [ceilWithin_of_not_absorbed hax, ceilWithin_of_not_absorbed hay, rational_of_point hp, rational_of_point hq]
    exact ceil_mono hpq

namespace Grid.Accepts

variable {g : Grid} {x y z : Float} {m n : ℤ}

private theorem isFinite_ratio (h : g.Accepts x n) (hg : 0 < g.timebase) : (x / g.timebase).isFinite := by
  have hfit := h.fits hg
  rw [fitsInt64, Bool.and_eq_true] at hfit
  exact hfit.1

/-- On a grid a later time is on no earlier tick. -/
theorem mono (hx : g.Accepts x m) (hy : g.Accepts y n) (hg : 0 < g.timebase) (h : x ≤ y) : m ≤ n := by
  have hratio := div_le_div h hg (hx.isFinite_ratio hg) (hy.isFinite_ratio hg)
  rw [hx.eq_count hg, hy.eq_count hg]
  split_ifs
  · exact ceilWithin_mono (hx.fits hg) (hy.fits hg) hratio
  · obtain ⟨p, hp, -⟩ := exists_rational_of_fits (hx.fits hg)
    obtain ⟨q, hq, -⟩ := exists_rational_of_fits (hy.fits hg)
    rw [rational_of_point hp, rational_of_point hq]
    exact nearestAway_mono ((le_iff_rational hp hq).mp hratio)

/-- Nor is it if both are counted from the same start. -/
theorem mono_sub (hx : g.Accepts (x - z) m) (hy : g.Accepts (y - z) n) (h : x ≤ y) : m ≤ n := by
  by_cases hg : g.timebase ≤ 0
  · rw [hx.eq_zero hg, hy.eq_zero hg]
  · have hpos := hx.pos_of_not_le hg
    have hfx := (isFinite_of_div (hx.isFinite_ratio hpos)).1
    have hfy := (isFinite_of_div (hy.isFinite_ratio hpos)).1
    exact hx.mono hy hpos (sub_le_sub h hfx hfy)

end Grid.Accepts

end ShotTiming
