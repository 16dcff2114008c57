import ShotTiming.Proofs.Ticks.Order

/-!
# Rounding up within a slack

The count of a ratio is less than one above it, and below it by no more than the slack. So the multiple of a
unit that is made for a value exceeds it by less than a unit and falls short of it by one part in `10 ^ 9` at
most, but for the two roundings of doubles on the way: that of the ratio and that of the multiple.
-/
namespace ShotTiming
open Number

/-- A count that a ratio is rounded up to: less than one above it, and below it by no more than the slack,
which is a share of the count, computed in doubles. A ratio that is an integer is its own count. -/
structure CeilsTo (ratio : Float) (count : ℤ) : Prop where
  above : count - 1 < rational ratio
  slack : rational ratio ≤ count + rational (defaultSlack * larger 1 (Float.ofInt count).abs)
  whole : ∀ n : ℤ, rational ratio = n → count = n
  range : -2 ^ 63 ≤ count ∧ count < 2 ^ 63

/-- A multiple of a unit stands for a value: it exceeds the value by less than a unit, and if one of them is a
unit at least, it falls short of the value by no more than one part in `10 ^ 9`. Both hold up to a share `ε`. -/
structure StandsFor (value unit multiple ε : ℚ) : Prop where
  excess : multiple < (value + unit) * (1 + ε)
  lack : unit ≤ multiple ∨ unit ≤ value → value ≤ multiple * (1 + 1 / 10 ^ 9 + ε)

/-- A period is made of whole ticks for a least period. Its value is their exact product, rounded once, so that
it is no number if the timebase is none. -/
structure RoundsPeriod (least timebase period : Float) (ticks : ℤ) : Prop where
  ceils : CeilsTo (least / timebase) ticks
  product : period = Float.ofInt ticks * timebase
  exact : timebase.isFinite →
    StandsFor (rational least) (rational timebase) (ticks * rational timebase) (1 / 2 ^ 52)
  rounded : period.isFinite →
    StandsFor (rational least) (rational timebase) (rational period) (1 / 2 ^ 51)
  endless : ¬ timebase.isFinite → period.isNaN

/-! ## Counts -/

section

variable {ratio : Float} {q : ℚ}

/-- A count is in its range, where it is a double. -/
theorem ceilWithin_fits (hx : point? ratio = some (ofRational q)) (hq : |q| < 2 ^ 63) :
    |ceilWithin defaultSlack ratio| < 2 ^ 63 ∧
      point? (Float.ofInt (ceilWithin defaultSlack ratio)) =
        some (ofRational (ceilWithin defaultSlack ratio)) := by
  obtain rfl := rational_of_point hx
  have hround := roundsUp_ceilWithin hx hq
  generalize ceilWithin defaultSlack ratio = n at hround
  have hlate := hround.late
  have hearly := hround.early
  have hnext : |rational ratio - n| ≤ 1 := abs_le.mpr ⟨by linarith, by linarith⟩
  obtain ⟨t, hfits⟩ := exists_fitsGrid hx
  obtain ⟨⟨u, hcount⟩, hrange⟩ := hfits.next hnext hround.whole
  have hlt : |(n : ℚ)| < 2 ^ 63 := by exact_mod_cast hrange hq
  refine ⟨hrange hq, ?_⟩
  rw [point?_ofInt, hcount.roundedSigned_eq, clamped_of_abs_le (by linarith)]

theorem ceilsTo_ceilWithin (h : fitsInt64 ratio) : CeilsTo ratio (ceilWithin defaultSlack ratio) := by
  obtain ⟨q, hx, hq⟩ := exists_rational_of_fits h
  obtain ⟨hrange, hcount⟩ := ceilWithin_fits hx hq
  have hround := roundsUp_ceilWithin hx hq
  have hsmall : |(ceilWithin defaultSlack ratio : ℚ)| ≤ 2 ^ 64 := by
    have hlt : |(ceilWithin defaultSlack ratio : ℚ)| < 2 ^ 63 := by exact_mod_cast hrange
    linarith
  have habs := point?_abs_of_finite hcount
  rw [clamped_of_abs_le (by rwa [abs_abs])] at habs
  obtain ⟨a, ha, hnonneg, -⟩ := exists_allowance hsmall habs
  constructor
  case above => linarith [hround.late]
  case slack =>
    rw [rational_of_point ha]
    by_cases hnear : Absorbed ratio
    · rw [ceilWithin_of_absorbed hnear, rational_of_point hx] at ha
      rw [ceilWithin_of_absorbed hnear, rational_of_point hx]
      rw [Absorbed, rational_of_point hx] at hnear
      have hwithin := (le_iff_rational (point_distance hx hq).2 ha).mp hnear
      linarith [le_abs_self (q - nearestEven q)]
    · rw [ceilWithin_of_not_absorbed hnear]
      have hge : rational ratio ≤ (rational ratio).ceil := Rat.le_ceil
      linarith
  case whole => exact hround.whole
  case range =>
    obtain ⟨hlow, hhigh⟩ := abs_lt.mp hrange
    exact ⟨hlow.le, hhigh⟩

end

/-! ## Multiples of a unit -/

section

variable {m t : ℚ} {k : ℤ}

private theorem roundedSigned_one : roundedSigned 1 = 1 := by
  have hone : FitsGrid ((1 : ℤ) : ℚ) 0 := .intCast (by norm_num)
  exact_mod_cast hone.roundedSigned_eq

/-- The ratio of a value that is a unit at least is rounded up to a count. -/
private theorem one_le_count {x : ℚ} (hx : 1 ≤ x) (hk : 0 ≤ k)
    (hnoise : roundedSigned x - k ≤ max 1 |(k : ℚ)| / 999999999) : 1 ≤ k := by
  have hratio := roundedSigned_mono hx
  rw [roundedSigned_one] at hratio
  by_contra hlt
  obtain rfl : k = 0 := by omega
  norm_num at hnoise
  linarith

/-- A ratio of no more than the least doubles is rounded up to one unit at most. -/
private theorem count_le_one {x : ℚ} (hx : x ≤ 1) (habove : k - 1 < roundedSigned x) : k ≤ 1 := by
  have hratio := roundedSigned_mono hx
  rw [roundedSigned_one] at hratio
  have hlt : (k : ℚ) < 2 := by linarith
  have hcount : k < 2 := by exact_mod_cast hlt
  omega

/-- The multiple that is made for a value stands for it, up to the rounding of the ratio. -/
theorem standsFor_of_count (ht : 0 < t) (hm : 0 ≤ m) (hk : 0 ≤ k)
    (habove : k - 1 < roundedSigned (m / t))
    (hnoise : roundedSigned (m / t) - k ≤ max 1 |(k : ℚ)| / 999999999) :
    StandsFor m t (k * t) (1 / 2 ^ 52) := by
  have hvalue : m / t * t = m := div_mul_cancel₀ m ht.ne'
  have hx : 0 ≤ m / t := by positivity
  generalize m / t = x at *
  subst hvalue
  have htiny : x < 2 ^ (-1022 : ℤ) → x ≤ 1 := fun h =>
    h.le.trans (zpow_le_one_of_nonpos₀ (by norm_num) (by norm_num))
  constructor
  case excess =>
    rcases le_or_gt (2 ^ (-1022 : ℤ)) x with hnormal | hsmall
    · have hround := (abs_le.mp (abs_roundedSigned_sub_le hnormal)).2
      have hlt : (k : ℚ) < (x + 1) * (1 + 1 / 2 ^ 52) := by linarith
      calc k * t < (x + 1) * (1 + 1 / 2 ^ 52) * t := by gcongr
        _ = (x * t + t) * (1 + 1 / 2 ^ 52) := by ring
    · have hone : (k : ℚ) ≤ 1 := by exact_mod_cast count_le_one (htiny hsmall) habove
      have hle : k * t ≤ t := mul_le_of_le_one_left ht.le hone
      have hnonneg : 0 ≤ x * t := by positivity
      linarith
  case lack =>
    intro hunit
    have hone : (1 : ℚ) ≤ k := by
      rcases hunit with hmultiple | hvalue
      · exact le_of_mul_le_mul_right (by linarith) ht
      · have hratio : 1 ≤ x := le_of_mul_le_mul_right (by linarith) ht
        exact_mod_cast one_le_count hratio hk hnoise
    rw [abs_of_nonneg (by linarith), max_eq_right hone] at hnoise
    have hle : x ≤ k * (1 + 1 / 10 ^ 9 + 1 / 2 ^ 52) := by
      rcases le_or_gt (2 ^ (-1022 : ℤ)) x with hnormal | hsmall
      · have hround := (abs_le.mp (abs_roundedSigned_sub_le hnormal)).1
        linarith
      · linarith [htiny hsmall]
    calc x * t ≤ k * (1 + 1 / 10 ^ 9 + 1 / 2 ^ 52) * t := by gcongr
      _ = k * t * (1 + 1 / 10 ^ 9 + 1 / 2 ^ 52) := by ring

/-- So does the double that is closest to the multiple. -/
theorem StandsFor.rounded {e : ℤ} (h : StandsFor m t (k * t) (1 / 2 ^ 52)) (ht : 0 < t) (hm : 0 ≤ m)
    (hk : 0 ≤ k) (hgrid : FitsGrid t e) : StandsFor m t (roundedSigned (k * t)) (1 / 2 ^ 51) := by
  have hnonneg : (0 : ℚ) ≤ k * t := mul_nonneg (by exact_mod_cast hk) ht.le
  obtain ⟨hlow, hhigh⟩ := abs_le.mp (hgrid.abs_roundedSigned_mul_sub_le k hnonneg)
  constructor
  case excess => linarith [h.excess]
  case lack =>
    intro hunit
    have hexact := h.lack (hunit.imp_left fun hrounded => ?_)
    · linarith
    · by_contra hlt
      have hcount : (k : ℚ) < 1 := lt_of_mul_lt_mul_right (by linarith) ht.le
      have hcount : k < 1 := by exact_mod_cast hcount
      obtain rfl : k = 0 := by omega
      rw [Int.cast_zero, zero_mul] at hrounded hhigh
      linarith

end

/-! ## Periods -/

section

variable {least timebase : Float} {t : ℚ}

/-- An infinite tick goes into a period no times, so that its period is no number. -/
theorem roundsPeriod_of_top (h : fitsInt64 (least / timebase)) (htop : point? timebase = some ⊤) :
    RoundsPeriod least timebase (Float.ofInt (ceilCount least timebase defaultSlack) * timebase)
      (ceilCount least timebase defaultSlack) := by
  have hinfinite : ¬ timebase.isFinite := by
    rw [isFinite_iff_point, htop]
    rintro ⟨t, ht⟩
    exact (ofRational_lt_top t).ne' (Option.some_inj.mp ht)
  have hnan : (Float.ofInt (ceilCount least timebase defaultSlack) * timebase).isNaN := by
    rw [ceilCount, ceilWithin_of_eq_zero (rational_div_top _ htop)]
    exact isNaN_zero_mul_top htop
  constructor
  case ceils => exact ceilsTo_ceilWithin h
  case product => rfl
  case exact => exact fun hfinite => absurd hfinite hinfinite
  case rounded =>
    intro hfinite
    rw [not_isFinite_of_isNaN hnan] at hfinite
    cases hfinite
  case endless => exact fun _ => hnan

theorem roundsPeriod_of_point (h : fitsInt64 (least / timebase)) (hleast : 0 ≤ least) (hpos : 0 < timebase)
    (ht : point? timebase = some (ofRational t)) (htpos : 0 < t) :
    RoundsPeriod least timebase (Float.ofInt (ceilCount least timebase defaultSlack) * timebase)
      (ceilCount least timebase defaultSlack) := by
  obtain ⟨r, hr, hlt⟩ := exists_rational_of_fits h
  obtain ⟨m, hm⟩ := isFinite_iff_point.mp (isFinite_of_div (isFinite_iff_point.mpr ⟨r, hr⟩)).1
  have hmnonneg : 0 ≤ m := by
    have hzero : point? 0 = some (ofRational 0) := by rfl
    exact (le_iff_rational hzero hm).mp hleast
  have hratio : roundedSigned (m / t) = r := by
    have hquotient := point?_div_of_finite hm ht htpos.ne'
    rw [hr, Option.some_inj] at hquotient
    exact eq_of_clamped hquotient.symm
  have hceils := ceilsTo_ceilWithin h
  have hk : 0 ≤ ceilWithin defaultSlack (least / timebase) :=
    ceilWithin_nonneg (rational_div_nonneg hleast hpos)
  have hexact : StandsFor m t (ceilWithin defaultSlack (least / timebase) * t) (1 / 2 ^ 52) := by
    have habove := hceils.above
    have hnoise := (roundsUp_ceilWithin hr hlt).noise
    rw [rational_of_point hr, ← hratio] at habove hnoise
    exact standsFor_of_count htpos hmnonneg hk habove hnoise
  constructor
  case ceils => exact hceils
  case product => rfl
  case exact =>
    intro _
    rw [rational_of_point hm, rational_of_point ht]
    exact hexact
  case rounded =>
    intro hfinite
    obtain ⟨p, hp⟩ := isFinite_iff_point.mp hfinite
    have hproduct := point?_mul_of_finite (ceilWithin_fits hr hlt).2 ht
    rw [← ceilCount, hp, Option.some_inj] at hproduct
    obtain ⟨e, hgrid⟩ := exists_fitsGrid ht
    rw [rational_of_point hm, rational_of_point ht, rational_of_point hp, ← eq_of_clamped hproduct.symm]
    exact hexact.rounded htpos hmnonneg hk hgrid
  case endless => exact fun hinfinite => absurd (isFinite_iff_point.mpr ⟨t, ht⟩) hinfinite

/-- A least period is rounded up to whole ticks, however long these are. -/
theorem roundsPeriod_ceilCount (hleast : 0 ≤ least) (hpos : 0 < timebase) (h : fitsInt64 (least / timebase)) :
    RoundsPeriod least timebase (Float.ofInt (ceilCount least timebase defaultSlack) * timebase)
      (ceilCount least timebase defaultSlack) := by
  by_cases htop : point? timebase = some ⊤
  · exact roundsPeriod_of_top h htop
  · obtain ⟨t, ht, htpos⟩ := exists_rational_of_pos hpos htop
    exact roundsPeriod_of_point h hleast hpos ht htpos

end

end ShotTiming
