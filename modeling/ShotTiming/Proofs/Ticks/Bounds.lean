import ShotTiming.Proofs.Ticks

/-! # How far a tick is from its time

A ratio is compared with its closest integer without a rounding error. Rounding up takes the integer if it is
within a share of itself, so that a long time may lose more than a short one.
-/
namespace ShotTiming
open Number

/-- Rounding up takes a ratio for its closest integer: the two differ by no more than a share of the integer. -/
def Absorbed (ratio : Float) : Prop :=
  (ratio - Float.ofInt (nearestEven (rational ratio))).abs ≤
    defaultSlack * larger 1 (Float.ofInt (nearestEven (rational ratio))).abs

/-- A count that a ratio is rounded up to, but for noise: it is less than one above the ratio, and below it
by no more than a share of the count, which is less than a hundredth up to ten million. It is more than a
hundredth below exactly if the ratio is absorbed by an integer from which it is that far. -/
structure RoundsUp (ratio : Float) (ticks : ℤ) : Prop where
  late : ticks - rational ratio < 1
  early : rational ratio - ticks ≤ 1 / 2
  noise : rational ratio - ticks ≤ max 1 |(ticks : ℚ)| / 999999999
  short : |ticks| < 10000000 → rational ratio - ticks ≤ 1 / 100
  prompt : rational ratio - ticks ≤ 1 / 100 ↔
    ¬ (Absorbed ratio ∧ 1 / 100 < rational ratio - nearestEven (rational ratio))
  whole : ∀ n : ℤ, rational ratio = n → ticks = n

theorem short_of_noise {ratio : ℚ} {ticks : ℤ} (h : ratio - ticks ≤ max 1 |(ticks : ℚ)| / 999999999)
    (ht : |ticks| < 10000000) : ratio - ticks ≤ 1 / 100 := by
  have hcount : max 1 |(ticks : ℚ)| ≤ 9999999 := by
    have : |ticks| ≤ 9999999 := by omega
    have hcast : |(ticks : ℚ)| ≤ 9999999 := by exact_mod_cast this
    exact max_le (by norm_num) hcast
  calc ratio - ticks ≤ max 1 |(ticks : ℚ)| / 999999999 := h
    _ ≤ 9999999 / 999999999 := by gcongr
    _ ≤ 1 / 100 := by norm_num

namespace Number

variable {x y : Float} {p q : ℚ}

theorem point_larger (hx : point? x = some (ofRational p)) (hy : point? y = some (ofRational q)) :
    point? (larger x y) = some (ofRational (max p q)) := by
  have hlt : y < x ↔ q < p := by
    rw [lt_iff_point, hx, hy]
    simp
  unfold larger
  by_cases h : q < p
  · rw [if_pos (hlt.mpr h), hx, max_eq_left h.le]
  · rw [if_neg (mt hlt.mp h), hy, max_eq_right (not_lt.mp h)]

theorem le_iff_rational (hx : point? x = some (ofRational p)) (hy : point? y = some (ofRational q)) :
    x ≤ y ↔ p ≤ q := by
  rw [le_iff_point, hx, hy]
  simp

/-- A ratio that has a count is a number below the range of the counts. -/
theorem exists_rational_of_fits (h : fitsInt64 x) :
    ∃ q, point? x = some (ofRational q) ∧ |q| < 2 ^ 63 := by
  rw [fitsInt64, Bool.and_eq_true, decide_eq_true_iff] at h
  obtain ⟨hfinite, habs⟩ := h
  obtain ⟨q, hq⟩ := isFinite_iff_point.mp hfinite
  refine ⟨q, hq, ?_⟩
  have hend : point? (9223372036854775808.0 : Float) = some (ofRational (2 ^ 63)) :=
    rational?_eq_some.mp (by decide +kernel)
  rw [lt_iff_point, point?_abs_of_finite hq, hend] at habs
  obtain ⟨a, ha, b, hb, hab⟩ := habs
  cases ha
  cases hb
  have hlarge : clamped (2 ^ 63) = ofRational (2 ^ 63) := clamped_of_abs_le (by norm_num)
  rw [← hlarge] at hab
  exact not_le.mp fun hle => absurd hab (not_lt.mpr (clamped_mono hle))

/-- A double less the integer closest to it is exact. -/
theorem point_distance (hx : point? x = some (ofRational q)) (hq : |q| < 2 ^ 63) :
    point? (Float.ofInt (nearestEven q)).abs = some (ofRational |(nearestEven q : ℚ)|) ∧
    point? (x - Float.ofInt (nearestEven q)).abs = some (ofRational |q - nearestEven q|) := by
  obtain ⟨t, hfits⟩ := exists_fitsGrid hx
  obtain ⟨u, hnear⟩ := hfits.nearestEven
  have hlarge := abs_nearestEven_le q
  have hhalf := abs_sub_nearestEven q
  have hcount : point? (Float.ofInt (nearestEven q)) = some (ofRational (nearestEven q)) := by
    rw [point?_ofInt, hnear.roundedSigned_eq, clamped_of_abs_le (by linarith)]
  have hdiff : point? (x - Float.ofInt (nearestEven q)) = some (ofRational (q - nearestEven q)) := by
    rw [point?_sub_of_finite hx hcount, hfits.sub_nearestEven.roundedSigned_eq,
      clamped_of_abs_le (by linarith)]
  constructor
  · rw [point?_abs_of_finite hcount, clamped_of_abs_le (by rw [abs_abs]; linarith)]
  · rw [point?_abs_of_finite hdiff, clamped_of_abs_le (by rw [abs_abs]; linarith)]

end Number

/-! ## Rounding up -/

section

variable {ratio : Float} {q : ℚ}

/-- The share of a count that may be lost, as a rational. -/
private def share : ℚ := 4835703278458517 / 2 ^ 82

private theorem point_defaultSlack : point? defaultSlack = some (ofRational share) :=
  rational?_eq_some.mp (by decide +kernel)

/-- What a count may be below its ratio is a share of it, rounded once. -/
theorem exists_allowance {n : ℤ} (hn : |(n : ℚ)| ≤ 2 ^ 64)
    (hp : point? (Float.ofInt n).abs = some (ofRational |(n : ℚ)|)) :
    ∃ a, point? (defaultSlack * larger 1 (Float.ofInt n).abs) = some (ofRational a) ∧ 0 ≤ a ∧
      a ≤ max 1 |(n : ℚ)| / 999999999 := by
  have hone : (1 : ℚ) ≤ max 1 |(n : ℚ)| := le_max_left _ _
  have hmax : max 1 |(n : ℚ)| ≤ 2 ^ 64 := max_le (by norm_num) hn
  have hpoint : point? (1 : Float) = some (ofRational 1) := rational?_eq_some.mp (by decide +kernel)
  have hprod := point?_mul_of_finite point_defaultSlack (point_larger hpoint hp)
  generalize max 1 |(n : ℚ)| = m at *
  have hpos : 0 < share * m := by
    unfold share
    positivity
  have hnormal : (2 : ℚ) ^ (-1022 : ℤ) ≤ share * m := by
    have hshare : (2 : ℚ) ^ (-1022 : ℤ) ≤ share := by
      refine (zpow_le_zpow_right₀ (n := -50) (by norm_num) (by norm_num)).trans ?_
      norm_num [share]
    have hpos : 0 ≤ share := by norm_num [share]
    exact hshare.trans (le_mul_of_one_le_right hpos hone)
  have hrounded : roundedSigned (share * m) ≤ m / 999999999 := by
    rw [roundedSigned, if_pos hpos]
    refine (rounded_le hnormal).trans ?_
    unfold share
    linarith
  have hnonneg : 0 ≤ roundedSigned (share * m) := by
    rw [roundedSigned, if_pos hpos]
    exact rounded_nonneg hpos
  have hsmall : |roundedSigned (share * m)| ≤ 2 ^ 64 := by
    rw [abs_of_nonneg hnonneg]
    linarith
  rw [clamped_of_abs_le hsmall] at hprod
  exact ⟨_, hprod, hnonneg, hrounded⟩

theorem ceilWithin_of_absorbed (h : Absorbed ratio) :
    ceilWithin defaultSlack ratio = nearestEven (rational ratio) := if_pos h

theorem ceilWithin_of_not_absorbed (h : ¬ Absorbed ratio) :
    ceilWithin defaultSlack ratio = (rational ratio).ceil := if_neg h

/-- Rounding up takes the first integer that is not below the ratio, or one within a share of itself. -/
theorem roundsUp_ceilWithin (hx : point? ratio = some (ofRational q)) (hq : |q| < 2 ^ 63) :
    RoundsUp ratio (ceilWithin defaultSlack ratio) := by
  obtain rfl := rational_of_point hx
  have hhalf := abs_le.mp (abs_sub_nearestEven (rational ratio))
  have hlarge := abs_nearestEven_le (rational ratio)
  obtain ⟨hcount, hdist⟩ := point_distance hx hq
  obtain ⟨a, ha, -, hle⟩ := exists_allowance (by linarith) hcount
  by_cases hnear : Absorbed ratio
  · have hwithin : |rational ratio - nearestEven (rational ratio)| ≤ a := (le_iff_rational hdist ha).mp hnear
    have hnoise := (le_abs_self _).trans (hwithin.trans hle)
    rw [ceilWithin_of_absorbed hnear]
    refine ⟨by linarith, by linarith, hnoise, short_of_noise hnoise, ?_, fun n hn => ?_⟩
    · rw [and_iff_right hnear, not_lt]
    · rw [hn]
      exact nearestEven_intCast n
  · have hceil : ((rational ratio).ceil : ℚ) < rational ratio + 1 := Rat.ceil_lt
    have hge : rational ratio ≤ (rational ratio).ceil := Rat.le_ceil
    have hshare : (0 : ℚ) ≤ max 1 |((rational ratio).ceil : ℚ)| / 999999999 := by positivity
    rw [ceilWithin_of_not_absorbed hnear]
    refine ⟨by linarith, by linarith, by linarith, fun _ => by linarith, ?_, fun n hn => ?_⟩
    · exact iff_of_true (by linarith) fun h => hnear h.1
    · rw [hn]
      exact Rat.ceil_intCast n

end

/-- What becomes of a time above no time on a clock that rounds up. -/
theorem roundsUp_toTicks {value timebase : Float} (ht : 0 < timebase) (hfit : fitsInt64 (value / timebase)) :
    RoundsUp (value / timebase) (toTicks value timebase .up).ticks := by
  obtain ⟨q, hq, hlt⟩ := exists_rational_of_fits hfit
  have hticks : (toTicks value timebase .up).ticks = ceilCount value timebase defaultSlack := by
    unfold toTicks
    rw [if_neg (Double.not_le_of_lt ht)]
    simp [hfit]
  rw [hticks]
  exact roundsUp_ceilWithin hq hlt

theorem Grid.Accepts.roundsUp {g : Grid} {value : Float} {n : ℤ} (h : g.Accepts value n)
    (hg : 0 < g.timebase) (hup : g.rounding = .up) : RoundsUp (value / g.timebase) n := by
  have hticks := h.ticks
  rw [hup] at hticks
  rw [hticks]
  exact roundsUp_toTicks hg (h.fits hg)

/-! ## Times that are no time -/

/-- A grid does not tell a time from no time at all: it rounds up a share of a tick to none, or the time is
within the tolerance of tick 0. -/
def Grid.Swallows (g : Grid) (value : Float) : Prop :=
  if g.rounding = .up then value / g.timebase ≤ defaultSlack
  else value / g.timebase < 0.5 ∧ value / g.timebase ≤ g.tolerance

instance (g : Grid) (value : Float) : Decidable (g.Swallows value) :=
  inferInstanceAs (Decidable (if g.rounding = .up then value / g.timebase ≤ defaultSlack
    else value / g.timebase < 0.5 ∧ value / g.timebase ≤ g.tolerance))

section

variable {ratio : Float} {q : ℚ}

private theorem nearestEven_of_lt_half (h : 0 ≤ q) (hq : q < 1 / 2) : nearestEven q = 0 := by
  have hfloor : ⌊q⌋ = 0 := Int.floor_eq_iff.mpr ⟨by simpa using h, by norm_num; linarith⟩
  rw [nearestEven_eq, hfloor, if_pos (.inl (by simpa using hq))]

private theorem nearestAway_nonneg (h : 0 ≤ q) : 0 ≤ nearestAway q ∧ (nearestAway q = 0 ↔ q < 1 / 2) := by
  have haway : nearestAway q = ⌊q + 1 / 2⌋ := by
    unfold nearestAway
    rw [if_neg (not_lt.mpr h), half_eq]
    rfl
  rw [haway, Int.floor_eq_zero_iff, Set.mem_Ico]
  constructor
  · exact Int.floor_nonneg.mpr (by linarith)
  · constructor
    · rintro ⟨-, hlt⟩
      linarith
    · intro hlt
      constructor <;> linarith

/-- A ratio is rounded up to no count exactly if it is within the slack. -/
private theorem ceilWithin_eq_zero_iff (hx : point? ratio = some (ofRational q)) (hq : 0 ≤ q)
    (hlt : q < 2 ^ 63) : ceilWithin defaultSlack ratio = 0 ↔ ratio ≤ defaultSlack := by
  have habs : |q| < 2 ^ 63 := by rwa [abs_of_nonneg hq]
  have hzero : point? (defaultSlack * larger 1 (Float.ofInt 0).abs) = some (ofRational share) :=
    rational?_eq_some.mp (by decide +kernel)
  have hshare : 0 ≤ share ∧ share < 1 / 2 := by norm_num [share]
  obtain ⟨-, hdist⟩ := point_distance hx habs
  -- 0 absorbs a ratio that it is closest to exactly if the ratio is within the slack
  have habsorbed (h : nearestEven q = 0) : Absorbed ratio ↔ q ≤ share := by
    rw [h] at hdist
    rw [Absorbed, rational_of_point hx, h, le_iff_rational hdist hzero, Int.cast_zero, sub_zero,
      abs_of_nonneg hq]
  rw [le_iff_rational hx point_defaultSlack]
  constructor
  · intro h
    by_cases hnear : Absorbed ratio
    · rw [ceilWithin_of_absorbed hnear, rational_of_point hx] at h
      exact (habsorbed h).mp hnear
    · rw [ceilWithin_of_not_absorbed hnear, rational_of_point hx] at h
      have hceil : q ≤ q.ceil := Rat.le_ceil
      rw [h, Int.cast_zero] at hceil
      exact hceil.trans hshare.1
  · intro hle
    have hnear := nearestEven_of_lt_half hq (hle.trans_lt hshare.2)
    rw [ceilWithin_of_absorbed ((habsorbed hnear).mpr hle), rational_of_point hx, hnear]

private theorem point_half : point? (0.5 : Float) = some (ofRational (1 / 2)) :=
  rational?_eq_some.mp (by decide +kernel)

private theorem lt_half_iff (hx : point? ratio = some (ofRational q)) : ratio < 0.5 ↔ q < 1 / 2 := by
  rw [lt_iff_point, hx, point_half]
  simp

end

variable {g : Grid} {value : Float} {n : ℤ}

/-- Where a clock does not round up, what it takes is within its tolerance. -/
theorem Grid.Accepts.error_le (h : g.Accepts value n) (hg : 0 < g.timebase) (hup : g.rounding ≠ .up) :
    (value / g.timebase - Float.ofInt n).abs ≤ g.tolerance := by
  have herror : (toTicks value g.timebase g.rounding).error = (value / g.timebase - Float.ofInt n).abs := by
    rw [h.ticks, toTicks, if_neg (Double.not_le_of_lt hg)]
    simp [h.fits hg]
  have hwithin := h.within
  rw [Quantised.within, Bool.and_eq_true, Bool.or_eq_true, beq_iff_eq, decide_eq_true_iff] at hwithin
  rw [← herror]
  exact hwithin.2.resolve_left hup

/-- The count of a time that a clock takes. -/
theorem Grid.Accepts.eq_count (h : g.Accepts value n) (hg : 0 < g.timebase) :
    n = if g.rounding = .up then ceilWithin defaultSlack (value / g.timebase)
      else nearestAway (rational (value / g.timebase)) := by
  rw [h.ticks, toTicks, if_neg (Double.not_le_of_lt hg)]
  simp only [h.fits hg, if_true]
  rfl

/-- A time that a clock takes gets tick 0 exactly if the clock swallows it, and never a tick before. -/
theorem Grid.Accepts.eq_zero_iff (h : g.Accepts value n) (hg : 0 < g.timebase) (hv : 0 ≤ value) :
    0 ≤ n ∧ (n = 0 ↔ g.Swallows value) := by
  obtain ⟨q, hq, hlt⟩ := exists_rational_of_fits (h.fits hg)
  have hnonneg : 0 ≤ q := rational_of_point hq ▸ rational_div_nonneg hv hg
  have hn := h.eq_count hg
  unfold Swallows
  by_cases hup : g.rounding = .up
  · rw [if_pos hup] at hn ⊢
    rw [hn]
    refine ⟨ceilWithin_nonneg (by rwa [rational_of_point hq]), ?_⟩
    exact ceilWithin_eq_zero_iff hq hnonneg ((le_abs_self q).trans_lt hlt)
  · rw [if_neg hup] at hn ⊢
    rw [rational_of_point hq] at hn
    obtain ⟨hge, hzero⟩ := nearestAway_nonneg hnonneg
    rw [hn]
    refine ⟨hge, ?_⟩
    rw [hzero, lt_half_iff hq]
    refine ⟨fun hhalf => ⟨hhalf, ?_⟩, And.left⟩
    -- the distance from tick 0 that the clock has accepted is the ratio itself
    obtain ⟨-, hdist⟩ := point_distance hq hlt
    rw [nearestEven_of_lt_half hnonneg hhalf, Int.cast_zero, sub_zero, abs_of_nonneg hnonneg] at hdist
    have herror := h.error_le hg hup
    rw [hn, hzero.mpr hhalf] at herror
    obtain ⟨a, ha, b, hb, hab⟩ := le_iff_point.mp herror
    cases hdist.symm.trans ha
    exact le_iff_point.mpr ⟨_, hq, b, hb, hab⟩

end ShotTiming
