import ShotTiming.Proofs.Number.Order

/-!
# Rounding of exact results to doubles

The sum of two doubles is their exact sum, rounded to the closest point of a grid that gets coarser
with the magnitude. Rounding keeps the order, so sums with one common member do as well.
-/
namespace ShotTiming.Number
open Float.Model Float.Model.UnpackedFloat

/-! ## The closest integer -/

theorem half_eq : mkRat 1 2 = (1 / 2 : ℚ) := by norm_num [Rat.mkRat_eq_div]

theorem nearestEven_eq (q : ℚ) :
    nearestEven q =
      if q - ⌊q⌋ < 1 / 2 ∨ q - ⌊q⌋ = 1 / 2 ∧ ⌊q⌋ % 2 = 0 then ⌊q⌋ else ⌊q⌋ + 1 := by
  simp only [nearestEven, half_eq]
  rfl

theorem nearestEven_intCast (n : ℤ) : nearestEven (n : ℚ) = n := by
  simp [nearestEven_eq]

theorem nearestEven_mono {p q : ℚ} (h : p ≤ q) : nearestEven p ≤ nearestEven q := by
  have hf := Int.floor_le_floor h
  have hp := Int.floor_le p
  rw [nearestEven_eq, nearestEven_eq]
  rcases hf.lt_or_eq with hlt | heq
  · split_ifs <;> omega
  · rw [heq]
    split_ifs with h₁ h₂ h₂
    · rfl
    · omega
    · refine absurd ?_ h₁
      rcases h₂ with h₂ | ⟨h₂, he⟩
      · exact .inl (by linarith)
      · rcases h.lt_or_eq with hlt | rfl
        · exact .inl (by linarith)
        · exact .inr ⟨h₂, he⟩
    · rfl

theorem nearestEven_nonneg {q : ℚ} (h : 0 ≤ q) : 0 ≤ nearestEven q := by
  have h₀ := nearestEven_intCast 0
  have h₁ := nearestEven_mono h
  rw [Int.cast_zero] at h₀
  omega

theorem nearestEven_le {q : ℚ} {n : ℤ} (h : q ≤ n) : nearestEven q ≤ n := by
  simpa [nearestEven_intCast] using nearestEven_mono h

theorem le_nearestEven {q : ℚ} {n : ℤ} (h : n ≤ q) : n ≤ nearestEven q := by
  simpa [nearestEven_intCast] using nearestEven_mono h

/-! ## Shifted mantissas -/

/-- A mantissa with its two residual bits tells how its rational lies between two integers. -/
structure Stands (m : ExtendedMantissa) (x : ℚ) : Prop where
  ge : (m.mantissa : ℚ) ≤ x
  lt : x < m.mantissa + 1
  round : m.roundBit = true ↔ (m.mantissa : ℚ) + 1 / 2 ≤ x
  sticky : m.stickyBit = true ↔ x ≠ m.mantissa ∧ x ≠ m.mantissa + 1 / 2

theorem stands_exact (n : ℕ) : Stands (.ofMantissaAndAccuracy n .exact) n := by
  constructor <;> simp [ExtendedMantissa.ofMantissaAndAccuracy]

namespace Stands

variable {m : ExtendedMantissa} {x : ℚ}

private theorem residue (h : Stands m x) :
    (m.roundBit || m.stickyBit) = true ↔ x ≠ m.mantissa := by
  rw [Bool.or_eq_true, h.round, h.sticky]
  constructor
  · rintro (hr | hs) rfl
    · linarith
    · exact hs.1 rfl
  · intro hx
    by_cases hh : x = m.mantissa + 1 / 2
    · exact .inl hh.ge
    · exact .inr ⟨hx, hh⟩

theorem shiftRightOne (h : Stands m x) : Stands m.shiftRightOne (x / 2) := by
  have hn : (m.mantissa : ℚ) = 2 * (m.mantissa / 2 : ℕ) + (m.mantissa % 2 : ℕ) := by
    exact_mod_cast (Nat.div_add_mod m.mantissa 2).symm
  have hge := h.ge
  have hlt := h.lt
  have hres := h.residue
  rcases Nat.mod_two_eq_zero_or_one m.mantissa with hb | hb <;> rw [hb] at hn <;> push_cast at hn
  · refine ⟨?_, ?_, ?_, hres.trans ?_⟩ <;> simp only [ExtendedMantissa.shiftRightOne, hb]
    · linarith
    · linarith
    · simp
      linarith
    · constructor
      · exact fun hx => ⟨fun hc => hx (by linarith), by linarith⟩
      · exact fun hx hc => hx.1 (by linarith)
  · refine ⟨?_, ?_, ?_, hres.trans ?_⟩ <;> simp only [ExtendedMantissa.shiftRightOne, hb]
    · linarith
    · linarith
    · simp
      linarith
    · constructor
      · exact fun hx => ⟨by linarith, fun hc => hx (by linarith)⟩
      · exact fun hx hc => hx.2 (by linarith)

theorem shiftRight (h : Stands m x) (k : ℕ) : Stands (m >>> k) (x / 2 ^ k) := by
  change Stands (k.repeat ExtendedMantissa.shiftRightOne m) _
  induction k with
  | zero => simpa [Nat.repeat] using h
  | succ k ih =>
    rw [pow_succ, ← div_div]
    exact ih.shiftRightOne

theorem floor_eq (h : Stands m x) : ⌊x⌋ = m.mantissa :=
  Int.floor_eq_iff.mpr ⟨by exact_mod_cast h.ge, by exact_mod_cast h.lt⟩

/-- Rounding by the residual bits is rounding to the closest integer. -/
theorem roundedMantissa_eq (h : Stands m x) : (m.roundedMantissa : ℤ) = nearestEven x := by
  rw [nearestEven_eq, h.floor_eq]
  obtain ⟨n, r, s⟩ := m
  obtain ⟨hge, -, hr, hs⟩ := h
  simp only at hge hr hs
  push_cast
  cases r with
  | false =>
    have hx : x < n + 1 / 2 := not_le.mp fun hc => nomatch hr.mpr hc
    rw [if_pos (.inl (by linarith))]
    cases s <;> rfl
  | true =>
    have hx := hr.mp rfl
    cases s with
    | false =>
      have he : x - n = 1 / 2 := by
        by_contra hne
        exact absurd (hs.mpr ⟨by linarith, fun hc => hne (by linarith)⟩) (by simp)
      change ((n + n % 2 : ℕ) : ℤ) = _
      simp only [he, lt_irrefl, false_or, true_and]
      split_ifs with hn <;> omega
    | true =>
      have hne := (hs.mp rfl).2
      have hlt : (n : ℚ) + 1 / 2 < x := lt_of_le_of_ne hx (Ne.symm hne)
      rw [if_neg (by rintro (hc | ⟨hc, -⟩) <;> linarith)]
      rfl

end Stands

/-! ## The grid of a magnitude -/

/-- The exponent of the grid that a positive number is rounded to. -/
def gridExponent (x : ℚ) : ℤ := max (Int.log 2 x - 52) (-1074)

/-- A positive number rounded to its grid. -/
def rounded (x : ℚ) : ℚ := nearestEven (x / 2 ^ gridExponent x) * 2 ^ gridExponent x

theorem rounded_nonneg {x : ℚ} (hx : 0 < x) : 0 ≤ rounded x := by
  have := nearestEven_nonneg (q := x / 2 ^ gridExponent x) (by positivity)
  exact mul_nonneg (by exact_mod_cast this) (by positivity)

private theorem lt_grid {x : ℚ} : x / 2 ^ gridExponent x ≤ ((2 ^ 53 : ℕ) : ℤ) := by
  rw [div_le_iff₀ (by positivity)]
  have hx : x < 2 ^ (Int.log 2 x + 1) := by exact_mod_cast Int.lt_zpow_succ_log_self (by norm_num) x
  refine hx.le.trans ?_
  have : (((2 ^ 53 : ℕ) : ℤ) : ℚ) = 2 ^ (53 : ℤ) := by norm_num
  rw [this, ← zpow_add₀ (by norm_num)]
  refine zpow_le_zpow_right₀ (by norm_num) ?_
  unfold gridExponent
  omega

private theorem grid_le {x : ℚ} (hx : 0 < x) (h : -1074 < gridExponent x) :
    ((2 ^ 52 : ℕ) : ℤ) ≤ x / 2 ^ gridExponent x := by
  have hl : (2 : ℚ) ^ Int.log 2 x ≤ x := by exact_mod_cast Int.zpow_log_le_self (by norm_num) hx
  have he : Int.log 2 x = 52 + gridExponent x := by
    unfold gridExponent at h ⊢
    omega
  rw [le_div_iff₀ (by positivity)]
  rw [he, zpow_add₀ (by norm_num)] at hl
  exact_mod_cast hl

/-- Rounding keeps the order: a coarser grid starts at a point of the finer one. -/
theorem rounded_mono {x y : ℚ} (hx : 0 < x) (hxy : x ≤ y) : rounded x ≤ rounded y := by
  have hg : gridExponent x ≤ gridExponent y := by
    have := Int.log_mono_right (b := 2) hx hxy
    unfold gridExponent
    omega
  rcases hg.lt_or_eq with hlt | heq
  · have hy := grid_le (hx.trans_le hxy) (lt_of_le_of_lt (le_max_right _ _) hlt)
    have h₁ : (nearestEven (x / 2 ^ gridExponent x) : ℚ) ≤ 2 ^ 53 := by
      exact_mod_cast nearestEven_le lt_grid
    have h₂ : (2 : ℚ) ^ 52 ≤ nearestEven (y / 2 ^ gridExponent y) := by
      exact_mod_cast le_nearestEven hy
    have h₃ : (2 : ℚ) ^ (gridExponent x + 1) ≤ 2 ^ gridExponent y :=
      zpow_le_zpow_right₀ (by norm_num) hlt
    calc rounded x ≤ 2 ^ 53 * 2 ^ gridExponent x := by
          unfold rounded
          gcongr
      _ = 2 ^ 52 * 2 ^ (gridExponent x + 1) := by rw [zpow_add₀ (by norm_num)]; ring
      _ ≤ rounded y := by
          unfold rounded
          gcongr
  · unfold rounded
    rw [heq]
    gcongr
    exact_mod_cast nearestEven_mono (by gcongr)

/-! ## Rounding of unpacked results -/

/-- The magnitude of a number does not depend on what follows its integer part. -/
theorem log_mul_zpow_of_floor {m : ℕ} (hm : 0 < m) {x : ℚ} (hge : m ≤ x) (hlt : x < m + 1) (e : ℤ) :
    Int.log 2 (x * 2 ^ e) = m.log2 + e := by
  have hlo : (2 : ℚ) ^ m.log2 ≤ x := by
    have : ((2 ^ m.log2 : ℕ) : ℚ) ≤ m := by exact_mod_cast Nat.log2_self_le hm.ne'
    push_cast at this
    exact this.trans hge
  have hhi : x < 2 ^ (m.log2 + 1) := by
    have : ((m + 1 : ℕ) : ℚ) ≤ ((2 ^ (m.log2 + 1) : ℕ) : ℚ) := by exact_mod_cast Nat.lt_log2_self
    push_cast at this
    exact hlt.trans_le this
  have hpos : 0 < x := lt_of_lt_of_le (by exact_mod_cast hm) hge
  have hx : (0 : ℚ) < x * 2 ^ e := by positivity
  apply le_antisymm
  · rw [← Int.lt_add_one_iff, ← Int.lt_zpow_iff_log_lt (by norm_num) hx]
    have : ((2 : ℕ) : ℚ) ^ ((m.log2 : ℤ) + e + 1) = 2 ^ (m.log2 + 1) * 2 ^ e := by
      rw [show (m.log2 : ℤ) + e + 1 = ((m.log2 + 1 : ℕ) : ℤ) + e by push_cast; ring]
      rw [zpow_add₀ (by norm_num), zpow_natCast]
      norm_num
    rw [this]
    gcongr
  · rw [← Int.zpow_le_iff_le_log (by norm_num) hx]
    have : ((2 : ℕ) : ℚ) ^ ((m.log2 : ℤ) + e) = 2 ^ m.log2 * 2 ^ e := by
      rw [zpow_add₀ (by norm_num), zpow_natCast]
      norm_num
    rw [this]
    gcongr

theorem log_mul_zpow {m : ℕ} (hm : 0 < m) (e : ℤ) : Int.log 2 ((m : ℚ) * 2 ^ e) = m.log2 + e :=
  log_mul_zpow_of_floor hm le_rfl (lt_add_one _) e

theorem targetExponent_eq {m : ℕ} (hm : 0 < m) (e : ℤ) :
    Format.binary64.targetExponent (totalExponent m e) = gridExponent ((m : ℚ) * 2 ^ e) := by
  rw [gridExponent, log_mul_zpow hm]
  simp only [Format.targetExponent, totalExponent, Format.mantissaBits, Format.minExponent]
  norm_num
  omega

theorem mantissa_ofMantissaAndAccuracy (m : ℕ) (a : Accuracy) :
    (ExtendedMantissa.ofMantissaAndAccuracy m a).mantissa = m := by
  rcases a with _ | o
  · rfl
  · cases o <;> rfl

section

variable {m : ℕ} {e : ℤ} {a : Accuracy} {x : ℚ}

/-- The grid is told from the integer part alone, if it is coarse enough. -/
private theorem targetExponent_of_stands (hst : Stands (.ofMantissaAndAccuracy m a) x) (hx : 0 < x)
    (h : e ≤ gridExponent (x * 2 ^ e)) :
    Format.binary64.targetExponent (totalExponent m e) = gridExponent (x * 2 ^ e) := by
  obtain ⟨hge, hlt, -, -⟩ := hst
  rw [mantissa_ofMantissaAndAccuracy] at hge hlt
  rcases Nat.eq_zero_or_pos m with rfl | hm
  · -- below one unit only the finest grid is coarse enough
    have hsmall : Int.log 2 (x * 2 ^ e) < e := by
      have hlt : x * 2 ^ e < ((2 : ℕ) : ℚ) ^ e := by
        have hp : (0 : ℚ) < 2 ^ e := by positivity
        rw [Nat.cast_zero, zero_add] at hlt
        exact_mod_cast mul_lt_of_lt_one_left hp hlt
      exact (Int.lt_zpow_iff_log_lt (by norm_num) (by positivity)).mp hlt
    unfold gridExponent at h ⊢
    simp only [Format.targetExponent, totalExponent, Format.mantissaBits, Format.minExponent]
    norm_num
    omega
  · rw [targetExponent_eq hm, gridExponent, gridExponent, log_mul_zpow hm,
      log_mul_zpow_of_floor hm hge hlt]

private theorem shift_stands {t : ℤ} (hst : Stands (.ofMantissaAndAccuracy m a) x) (h : e ≤ t) :
    Stands (shiftToExponent m e a t).1 (x * 2 ^ e / 2 ^ t) ∧ (shiftToExponent m e a t).2 = t := by
  have hk : e + ((t - e).toNat : ℤ) = t := by omega
  refine ⟨?_, hk⟩
  have hp : x * 2 ^ e / 2 ^ t = x / 2 ^ (t - e).toNat := by
    conv_lhs => rw [← hk, zpow_add₀ (by norm_num), zpow_natCast]
    field_simp
  rw [hp]
  exact hst.shiftRight _

end

private theorem shift_none {n : ℕ} {t : ℤ} (hn : n < 2 ^ 53) (ht : -1074 ≤ t) :
    shiftToTargetExponent Format.binary64 n t .exact = (⟨n, false, false⟩, t) := by
  have hl : n.log2 ≤ 52 := by
    by_cases h : n = 0
    · simp [h]
    · have := (Nat.log2_lt h).mpr hn
      omega
  have hs : (Format.binary64.targetExponent (totalExponent n t) - t).toNat = 0 := by
    simp only [Format.targetExponent, totalExponent, Format.mantissaBits, Format.minExponent]
    norm_num
    omega
  simp [shiftToTargetExponent, shiftToExponent, hs, HShiftRight.hShiftRight, Nat.repeat,
    ExtendedMantissa.ofMantissaAndAccuracy]

private theorem shift_carry {t : ℤ} (ht : -1074 ≤ t) :
    shiftToTargetExponent Format.binary64 (2 ^ 53) t .exact = (⟨2 ^ 52, false, false⟩, t + 1) := by
  have hs : (Format.binary64.targetExponent (totalExponent (2 ^ 53) t) - t).toNat = 1 := by
    simp only [Format.targetExponent, totalExponent, Format.mantissaBits, Format.minExponent,
      Nat.log2_two_pow]
    norm_num
    omega
  rw [shiftToTargetExponent, shiftToExponent, hs]
  rfl

/-- A number in canonical form, or zero. -/
def IsFinite : UnpackedFloat → Prop
  | .finite _ m e _ => Canonical m e
  | .zero _ => True
  | _ => False

theorem apply_cast (s : Sign) (n : ℤ) (q : ℚ) :
    ((s.apply n : ℤ) : ℚ) * q = (s.apply 1 : ℤ) * (n * q) := by
  cases s <;> simp [Sign.apply]

/-- What is known of the digits beyond a mantissa is enough to round a number to its grid. -/
theorem roundWithAccuracy_stands {m : ℕ} {e : ℤ} {a : Accuracy} {x : ℚ} (s : Sign)
    (hst : Stands (.ofMantissaAndAccuracy m a) x) (hx : 0 < x) (h : e ≤ gridExponent (x * 2 ^ e)) :
    IsFinite (roundWithAccuracy Format.binary64 s m e a) ∧
    unpackedPoint? (roundWithAccuracy Format.binary64 s m e a) =
      some (ofRational ((s.apply 1 : ℤ) * rounded (x * 2 ^ e))) := by
  have hpos : 0 < x * 2 ^ e := by positivity
  have hge : -1074 ≤ gridExponent (x * 2 ^ e) := le_max_right _ _
  have hfull : -1074 < gridExponent (x * 2 ^ e) →
      2 ^ 52 ≤ nearestEven (x * 2 ^ e / 2 ^ gridExponent (x * 2 ^ e)) :=
    fun hg => le_nearestEven (grid_le hpos hg)
  have hle := nearestEven_le (lt_grid (x := x * 2 ^ e))
  obtain ⟨hshift, hexp⟩ := shift_stands hst h
  have hrm := hshift.roundedMantissa_eq
  simp only [roundWithAccuracy, rounded]
  rw [show shiftToTargetExponent Format.binary64 m e a =
    shiftToExponent m e a (gridExponent (x * 2 ^ e)) by
      rw [shiftToTargetExponent, targetExponent_of_stands hst hx h]]
  rw [← hrm] at hfull hle ⊢
  rw [hexp]
  generalize (shiftToExponent m e a (gridExponent (x * 2 ^ e))).1.roundedMantissa = n at *
  generalize gridExponent (x * 2 ^ e) = t at *
  have hn : n ≤ 2 ^ 53 := by exact_mod_cast hle
  rcases hn.lt_or_eq with hlt | rfl
  · rw [shift_none hlt hge]
    by_cases hz : n = 0
    · simp [hz, IsFinite, unpackedPoint?]
    · simp only [hz, dite_false, IsFinite, unpackedPoint?]
      refine ⟨⟨hlt, hge, ?_⟩, by rw [apply_cast]⟩
      rcases hge.lt_or_eq with hg | hg
      · exact .inl (by have := hfull hg; omega)
      · exact .inr hg.symm
  · rw [shift_carry hge]
    have hne : ¬ 2 ^ 52 = 0 := by norm_num
    simp only [hne, dite_false, IsFinite, unpackedPoint?]
    refine ⟨⟨by norm_num, by omega, .inl le_rfl⟩, ?_⟩
    have hcarry : (((2 ^ 52 : ℕ) : ℤ) : ℚ) * 2 ^ (t + 1) = ((2 ^ 53 : ℕ) : ℤ) * 2 ^ t := by
      rw [zpow_add₀ (by norm_num)]
      push_cast
      ring
    rw [apply_cast, hcarry]

theorem roundWithAccuracy_exact {m : ℕ} {e : ℤ} (hm : 0 < m) (s : Sign)
    (h : e ≤ gridExponent ((m : ℚ) * 2 ^ e)) :
    IsFinite (roundWithAccuracy Format.binary64 s m e .exact) ∧
    unpackedPoint? (roundWithAccuracy Format.binary64 s m e .exact) =
      some (ofRational ((s.apply 1 : ℤ) * rounded ((m : ℚ) * 2 ^ e))) :=
  roundWithAccuracy_stands s (stands_exact m) (by exact_mod_cast hm) h

theorem round_finite {m : ℕ} (hm : 0 < m) (s : Sign) (e : ℤ) :
    IsFinite (UnpackedFloat.round Format.binary64 s m e) ∧
    unpackedPoint? (UnpackedFloat.round Format.binary64 s m e) =
      some (ofRational ((s.apply 1 : ℤ) * rounded ((m : ℚ) * 2 ^ e))) := by
  unfold UnpackedFloat.round
  rw [targetExponent_eq hm]
  generalize hg : gridExponent ((m : ℚ) * 2 ^ e) = t
  simp only [decreaseExponent]
  have hv : ((m <<< (e - t).toNat : ℕ) : ℚ) * 2 ^ (e - (e - t).toNat) = m * 2 ^ e := by
    rw [Nat.shiftLeft_eq, zpow_sub₀ (by norm_num), zpow_natCast]
    push_cast
    field_simp
  have hpos : 0 < m <<< (e - t).toNat := by
    rw [Nat.shiftLeft_eq]
    positivity
  rw [← hv]
  refine roundWithAccuracy_exact hpos s ?_
  rw [hv, hg]
  omega

/-- A rational rounded to its grid, the same way on either side of zero. -/
def roundedSigned (x : ℚ) : ℚ := if 0 < x then rounded x else if x < 0 then -rounded (-x) else 0

theorem roundedSigned_mono {x y : ℚ} (h : x ≤ y) : roundedSigned x ≤ roundedSigned y := by
  unfold roundedSigned
  rcases lt_trichotomy x 0 with hx | rfl | hx
  · rw [if_neg hx.not_gt, if_pos hx]
    have hx₀ := rounded_nonneg (neg_pos.mpr hx)
    rcases lt_trichotomy y 0 with hy | rfl | hy
    · rw [if_neg hy.not_gt, if_pos hy]
      exact neg_le_neg (rounded_mono (neg_pos.mpr hy) (neg_le_neg h))
    · simpa using hx₀
    · rw [if_pos hy]
      linarith [rounded_nonneg hy]
  · rcases h.lt_or_eq with hy | rfl
    · simpa [hy] using rounded_nonneg hy
    · rfl
  · rw [if_pos hx, if_pos (hx.trans_le h)]
    exact rounded_mono hx h

theorem normalize_finite (m e : ℤ) :
    IsFinite (UnpackedFloat.normalize Format.binary64 m e .positive) ∧
    unpackedPoint? (UnpackedFloat.normalize Format.binary64 m e .positive) =
      some (ofRational (roundedSigned ((m : ℚ) * 2 ^ e))) := by
  have hp : (0 : ℚ) < 2 ^ e := by positivity
  unfold UnpackedFloat.normalize roundedSigned
  rcases lt_trichotomy m 0 with h | rfl | h
  · rw [compare_lt_iff_lt.mpr h]
    have hneg : (m : ℚ) * 2 ^ e < 0 := mul_neg_of_neg_of_pos (by exact_mod_cast h) hp
    rw [if_neg hneg.not_gt, if_pos hneg]
    have hc : (((-m).toNat : ℕ) : ℚ) = -m := by
      have : (((-m).toNat : ℕ) : ℤ) = -m := by omega
      exact_mod_cast this
    have hr := round_finite (m := (-m).toNat) (by omega) .negative e
    rw [hc] at hr
    simpa [Sign.apply] using hr
  · rw [compare_eq_iff_eq.mpr rfl]
    simp [IsFinite, unpackedPoint?]
  · rw [compare_gt_iff_gt.mpr h]
    have hpos : (0 : ℚ) < m * 2 ^ e := mul_pos (by exact_mod_cast h) hp
    rw [if_pos hpos]
    have hc : ((m.toNat : ℕ) : ℚ) = m := by
      have : ((m.toNat : ℕ) : ℤ) = m := by omega
      exact_mod_cast this
    have hr := round_finite (m := m.toNat) (by omega) .positive e
    rw [hc] at hr
    simpa [Sign.apply] using hr

/-! ## Packing -/

private theorem unpack_packedInfinity (s : Sign) :
    UnpackedFloat.unpack Format.binary64 (packedInfinity Format.binary64 s) = .infinity s := by
  unfold UnpackedFloat.unpack packedInfinity
  simp

private theorem ofNat_ne {w m n : ℕ} (hm : m < 2 ^ w) (hn : n < 2 ^ w) (h : m ≠ n) :
    BitVec.ofNat w m ≠ BitVec.ofNat w n := by
  intro hc
  have := congrArg BitVec.toNat hc
  rw [BitVec.toNat_ofNat, BitVec.toNat_ofNat, Nat.mod_eq_of_lt hm, Nat.mod_eq_of_lt hn] at this
  exact h this

private theorem unpack_normal (s : Sign) {b m : ℕ} (hb : 0 < b) (hb' : b < 2047) (hm : 2 ^ 52 ≤ m)
    (hm' : m < 2 ^ 53) :
    ∃ h, UnpackedFloat.unpack Format.binary64
      (packComponents Format.binary64 s (BitVec.ofNat 11 b) (BitVec.ofNat 52 m)) =
        .finite s m (b - 1075) h := by
  have h₀ : BitVec.ofNat 11 b ≠ 0#11 := ofNat_ne (by omega) (by omega) (by omega)
  have h₁ : BitVec.ofNat 11 b ≠ -1#11 := ofNat_ne (n := 2047) (by omega) (by omega) (by omega)
  have hval : (1#1 ++ BitVec.ofNat 52 m).toNat = m := by
    rw [BitVec.toNat_append, ← Nat.shiftLeft_add_eq_or_of_lt (BitVec.isLt _)]
    simp [Nat.shiftLeft_eq]
    omega
  refine ⟨by omega, ?_⟩
  unfold UnpackedFloat.unpack
  simp only [unpackMantissa_packComponents, unpackExponent_packComponents, unpackSign_packComponents, Sign.ofBitVec_toBitVec, h₀, h₁,
    if_false, hval]
  congr 1
  simp [Format.exponentBias]
  omega

private theorem unpack_subnormal (s : Sign) {m : ℕ} (hm : 0 < m) (hm' : m < 2 ^ 52) :
    UnpackedFloat.unpack Format.binary64
      (packComponents Format.binary64 s 0#11 (BitVec.ofNat 52 m)) = .finite s m (-1074) hm := by
  have h₀ : BitVec.ofNat 52 m ≠ 0#52 := ofNat_ne (by omega) (by omega) (by omega)
  unfold UnpackedFloat.unpack
  simp only [unpackMantissa_packComponents, unpackExponent_packComponents, unpackSign_packComponents, Sign.ofBitVec_toBitVec, h₀]
  simp [Format.exponentBias]
  omega

/-- A finite result past the range of doubles becomes an infinity. -/
def clamped (x : ℚ) : Line :=
  if 2 ^ (1024 : ℤ) ≤ x then ⊤ else if x ≤ -2 ^ (1024 : ℤ) then ⊥ else ofRational x

theorem clamped_mono {x y : ℚ} (h : x ≤ y) : clamped x ≤ clamped y := by
  unfold clamped
  split_ifs <;> first | exact le_rfl | exact le_top | exact bot_le | linarith | skip
  refine le_of_not_gt fun hc => ?_
  rw [ofRational_lt] at hc
  linarith

theorem range_pos : (0 : ℚ) < 2 ^ (1024 : ℤ) := by positivity

private theorem clamped_zero : clamped 0 = ofRational 0 := by
  rw [clamped, if_neg (not_le.mpr range_pos), if_neg (not_le.mpr (neg_lt_zero.mpr range_pos))]

private theorem pack_overflow {m : ℕ} {e : ℤ} (s : Sign) (h : 0 < m) (he : 972 ≤ e) :
    UnpackedFloat.pack Format.binary64 (.finite s m e h) = packedInfinity Format.binary64 s := by
  have : 2 ^ 11 ≤ (e + 1023 + 52).toNat + 1 := by omega
  simp [UnpackedFloat.pack, Format.exponentBias]
  omega

private theorem pack_normal {m : ℕ} {e : ℤ} (s : Sign) (h : 0 < m) (hm : 2 ^ 52 ≤ m)
    (hm' : m < 2 ^ 53) (he : e < 972) :
    UnpackedFloat.pack Format.binary64 (.finite s m e h) =
      packComponents Format.binary64 s (BitVec.ofNat 11 (e + 1075).toNat) (BitVec.ofNat 52 m) := by
  have hlog : m.log2 = 52 := by
    have h₁ := (Nat.log2_lt h.ne').mpr hm'
    have h₂ := (Nat.le_log2 h.ne').mpr hm
    omega
  have hb : e + 1023 + 52 = e + 1075 := by ring
  simp [UnpackedFloat.pack, Format.exponentBias, Format.mantissaBits, hlog, hb]
  omega

private theorem pack_subnormal {m : ℕ} (s : Sign) (h : 0 < m) (hm : m < 2 ^ 52) :
    UnpackedFloat.pack Format.binary64 (.finite s m (-1074) h) =
      packComponents Format.binary64 s 0#11 (BitVec.ofNat 52 m) := by
  have hlog := (Nat.log2_lt h.ne').mpr hm
  simp [UnpackedFloat.pack, Format.exponentBias, Format.mantissaBits]
  omega

private theorem magnitude_ge {m : ℕ} {e : ℤ} (hm : 2 ^ 52 ≤ m) (he : 972 ≤ e) :
    (2 : ℚ) ^ (1024 : ℤ) ≤ (m : ℤ) * 2 ^ e := by
  have hm' : (2 : ℚ) ^ (52 : ℕ) ≤ (m : ℤ) := by exact_mod_cast hm
  have he' : (2 : ℚ) ^ (972 : ℤ) ≤ 2 ^ e := zpow_le_zpow_right₀ (by norm_num) he
  calc (2 : ℚ) ^ (1024 : ℤ) = 2 ^ (52 : ℕ) * 2 ^ (972 : ℤ) := by
        rw [← zpow_natCast, ← zpow_add₀ (by norm_num)]
        rfl
    _ ≤ (m : ℤ) * 2 ^ e := by gcongr

private theorem magnitude_lt {m : ℕ} {e : ℤ} (hm : m < 2 ^ 53) (he : e < 972) :
    ((m : ℤ) : ℚ) * 2 ^ e < 2 ^ (1024 : ℤ) := by
  have hm' : ((m : ℤ) : ℚ) < 2 ^ (53 : ℕ) := by exact_mod_cast hm
  have he' : (2 : ℚ) ^ e ≤ 2 ^ (971 : ℤ) := zpow_le_zpow_right₀ (by norm_num) (by omega)
  calc ((m : ℤ) : ℚ) * 2 ^ e < 2 ^ (53 : ℕ) * 2 ^ e := by gcongr
    _ ≤ 2 ^ (53 : ℕ) * 2 ^ (971 : ℤ) := by gcongr
    _ = 2 ^ (1024 : ℤ) := by
        rw [← zpow_natCast, ← zpow_add₀ (by norm_num)]
        rfl

private theorem clamped_overflow (s : Sign) {x : ℚ} (hx : 2 ^ (1024 : ℤ) ≤ x) :
    unpackedPoint? (.infinity s) = some (clamped ((s.apply 1 : ℤ) * x)) := by
  have hpos := range_pos.trans_le hx
  cases s with
  | positive =>
    rw [Sign.apply, Int.cast_one, one_mul, clamped, if_pos hx]
    rfl
  | negative =>
    have h₁ : ¬ (2 : ℚ) ^ (1024 : ℤ) ≤ -x :=
      not_le.mpr ((neg_lt_zero.mpr hpos).trans range_pos)
    rw [Sign.apply, Int.cast_neg, Int.cast_one, neg_one_mul, clamped, if_neg h₁,
      if_pos (neg_le_neg hx)]
    rfl

private theorem clamped_inRange (s : Sign) {x : ℚ} (hx : 0 < x) (hx' : x < 2 ^ (1024 : ℤ)) :
    clamped ((s.apply 1 : ℤ) * x) = ofRational ((s.apply 1 : ℤ) * x) := by
  cases s with
  | positive =>
    have h₁ : ¬ x ≤ -(2 : ℚ) ^ (1024 : ℤ) :=
      not_le.mpr ((neg_lt_zero.mpr range_pos).trans hx)
    rw [Sign.apply, Int.cast_one, one_mul, clamped, if_neg (not_le.mpr hx'), if_neg h₁]
  | negative =>
    have h₁ : ¬ (2 : ℚ) ^ (1024 : ℤ) ≤ -x :=
      not_le.mpr ((neg_lt_zero.mpr hx).trans range_pos)
    rw [Sign.apply, Int.cast_neg, Int.cast_one, neg_one_mul, clamped, if_neg h₁,
      if_neg (not_le.mpr (neg_lt_neg hx'))]

/-- Packing keeps a finite value in canonical form, up to overflow. -/
theorem unpackedPoint_pack {u : UnpackedFloat} (hu : IsFinite u) {x : ℚ}
    (hx : unpackedPoint? u = some (ofRational x)) :
    unpackedPoint? (Float.Model.unpack (.pack u)) = some (clamped x) := by
  change unpackedPoint? (UnpackedFloat.unpack Format.binary64
    (UnpackedFloat.pack Format.binary64 u)) = _
  cases u with
  | notANumber => exact hu.elim
  | infinity s => exact hu.elim
  | zero s =>
    obtain rfl : x = 0 := by simpa [unpackedPoint?] using hx.symm
    rw [clamped_zero]
    cases s <;> rfl
  | finite s m e hm =>
    obtain ⟨hlt, hge, hfull⟩ := hu
    obtain rfl : x = (s.apply 1 : ℤ) * ((m : ℤ) * 2 ^ e) := by
      rw [← apply_cast]
      simpa [unpackedPoint?] using hx.symm
    rcases le_or_gt 972 e with he | he
    · have hm' : 2 ^ 52 ≤ m := hfull.resolve_right (by omega)
      have hbig : (2 : ℚ) ^ (1024 : ℤ) ≤ (m : ℤ) * 2 ^ e := magnitude_ge hm' he
      rw [pack_overflow s hm he, unpack_packedInfinity, clamped_overflow s hbig]
    · have hsmall : ((m : ℤ) : ℚ) * 2 ^ e < 2 ^ (1024 : ℤ) := magnitude_lt hlt he
      have hpos : (0 : ℚ) < (m : ℤ) * 2 ^ e := mul_pos (by exact_mod_cast hm) (by positivity)
      rw [clamped_inRange s hpos hsmall, ← hx]
      rcases le_or_gt (2 ^ 52) m with hn | hn
      · obtain ⟨h', hu⟩ := unpack_normal s (b := (e + 1075).toNat) (by omega) (by omega) hn hlt
        rw [pack_normal s hm hn hlt he, hu]
        congr 3
        omega
      · obtain rfl : e = -1074 := hfull.resolve_left (by omega)
        rw [pack_subnormal s hm hn, unpack_subnormal s hm hn]

theorem unpack_pack_infinity (s : Sign) :
    Float.Model.unpack (.pack (.infinity s)) = .infinity s := unpack_packedInfinity s

theorem unpack_pack_notANumber :
    Float.Model.unpack (.pack .notANumber) = .notANumber := rfl

/-! ## Sums -/

/-- A number in canonical form is on its own grid. -/
theorem rounded_canonical {m : ℕ} {e : ℤ} (hm : 0 < m) (hc : Canonical m e) :
    rounded ((m : ℚ) * 2 ^ e) = m * 2 ^ e := by
  obtain ⟨hlt, hge, hfull⟩ := hc
  have hg : gridExponent ((m : ℚ) * 2 ^ e) = e := by
    rw [gridExponent, log_mul_zpow hm]
    have hlog := (Nat.log2_lt hm.ne').mpr hlt
    rcases hfull with h | rfl
    · have := (Nat.le_log2 hm.ne').mpr h
      omega
    · omega
  have hp : (2 : ℚ) ^ e ≠ 0 := by positivity
  rw [rounded, hg, mul_div_cancel_right₀ _ hp]
  have := nearestEven_intCast m
  rw [Int.cast_natCast] at this
  rw [this, Int.cast_natCast]

private theorem roundedSigned_canonical {m : ℕ} {e : ℤ} (s : Sign) (hm : 0 < m)
    (hc : Canonical m e) :
    roundedSigned ((s.apply 1 : ℤ) * (m * 2 ^ e)) = (s.apply 1 : ℤ) * (m * 2 ^ e) := by
  have hp : (0 : ℚ) < m * 2 ^ e := by positivity
  cases s with
  | positive => simp [Sign.apply, roundedSigned, rounded_canonical hm hc, hp]
  | negative => simp [Sign.apply, roundedSigned, rounded_canonical hm hc, hp, hp.not_gt]

theorem roundedSigned_point {u : UnpackedFloat} (hu : IsFinite u) {x : ℚ}
    (hx : unpackedPoint? u = some (ofRational x)) : roundedSigned x = x := by
  cases u with
  | notANumber => exact hu.elim
  | infinity s => exact hu.elim
  | zero s =>
    obtain rfl : x = 0 := by simpa [unpackedPoint?] using hx.symm
    simp [roundedSigned]
  | finite s m e hm =>
    obtain rfl : x = (s.apply 1 : ℤ) * ((m : ℤ) * 2 ^ e) := by
      rw [← apply_cast]
      simpa [unpackedPoint?] using hx.symm
    exact roundedSigned_canonical s hm hu

theorem isFinite_of_point {u : UnpackedFloat} (hu : IsCanonical u) {x : ℚ}
    (hx : unpackedPoint? u = some (ofRational x)) : IsFinite u := by
  cases u with
  | notANumber => simp [unpackedPoint?] at hx
  | infinity s => cases s <;> simp [unpackedPoint?, ofRational] at hx
  | zero s => trivial
  | finite s m e h => exact hu

theorem apply_shift (s : Sign) (m : ℕ) {e t : ℤ} (h : t ≤ e) :
    ((s.apply (decreaseExponent m e t).1 : ℤ) : ℚ) * 2 ^ t = (s.apply m : ℤ) * 2 ^ e := by
  have he : e = t + ((e - t).toNat : ℤ) := by omega
  have hm : (((decreaseExponent m e t).1 : ℤ) : ℚ) * 2 ^ t = (m : ℤ) * 2 ^ e := by
    conv_rhs => rw [he, zpow_add₀ (by norm_num), zpow_natCast]
    simp only [decreaseExponent, Nat.shiftLeft_eq]
    push_cast
    ring
  rw [apply_cast, hm, ← apply_cast]

private theorem add_finite {u v : UnpackedFloat} (hu : IsFinite u) (hv : IsFinite v) {x y : ℚ}
    (hx : unpackedPoint? u = some (ofRational x)) (hy : unpackedPoint? v = some (ofRational y)) :
    IsFinite (UnpackedFloat.add Format.binary64 u v) ∧
    unpackedPoint? (UnpackedFloat.add Format.binary64 u v) =
      some (ofRational (roundedSigned (x + y))) := by
  cases u with
  | notANumber => exact hu.elim
  | infinity s => exact hu.elim
  | zero s =>
    obtain rfl : x = 0 := by simpa [unpackedPoint?] using hx.symm
    cases v with
    | notANumber => exact hv.elim
    | infinity r => exact hv.elim
    | zero r =>
      obtain rfl : y = 0 := by simpa [unpackedPoint?] using hy.symm
      cases s <;> cases r <;> exact ⟨trivial, by simp [roundedSigned]; rfl⟩
    | finite r n f h =>
      rw [zero_add, roundedSigned_point hv hy]
      exact ⟨hv, hy⟩
  | finite s m e hm =>
    cases v with
    | notANumber => exact hv.elim
    | infinity r => exact hv.elim
    | zero r =>
      obtain rfl : y = 0 := by simpa [unpackedPoint?] using hy.symm
      rw [add_zero, roundedSigned_point hu hx]
      exact ⟨hu, hx⟩
    | finite r n f hn =>
      have hsum : ((s.apply (decreaseExponent m e (min e f)).1 +
          r.apply (decreaseExponent n f (min e f)).1 : ℤ) : ℚ) * 2 ^ min e f = x + y := by
        obtain rfl : x = (s.apply m : ℤ) * 2 ^ e := by simpa [unpackedPoint?] using hx.symm
        obtain rfl : y = (r.apply n : ℤ) * 2 ^ f := by simpa [unpackedPoint?] using hy.symm
        rw [Int.cast_add, add_mul, apply_shift s m (min_le_left e f), apply_shift r n (min_le_right e f)]
      rw [← hsum]
      exact normalize_finite _ _

private theorem point?_add (x y : Float) :
    point? (x + y) =
      unpackedPoint? (Float.Model.unpack (.pack (UnpackedFloat.add Format.binary64
        x.toModel.unpack y.toModel.unpack))) := rfl

/-- The sum of finite doubles is their exact sum, rounded once. -/
theorem point?_add_of_finite {x y : Float} {p q : ℚ} (hx : point? x = some (ofRational p))
    (hy : point? y = some (ofRational q)) :
    point? (x + y) = some (clamped (roundedSigned (p + q))) := by
  have hx' := isFinite_of_point (isCanonical_unpack_toModel x) hx
  have hy' := isFinite_of_point (isCanonical_unpack_toModel y) hy
  obtain ⟨hf, hp⟩ := add_finite hx' hy' hx hy
  rw [point?_add]
  exact unpackedPoint_pack hf hp

theorem unpack_of_top {u : UnpackedFloat} (h : unpackedPoint? u = some ⊤) :
    u = .infinity .positive := by
  cases u with
  | notANumber => cases h
  | infinity s => cases s <;> simp_all [unpackedPoint?]
  | zero s => exact absurd (Option.some.inj h) (ofRational_lt_top _).ne
  | finite s m e hm => exact absurd (Option.some.inj h) (ofRational_lt_top _).ne

theorem unpack_of_bot {u : UnpackedFloat} (h : unpackedPoint? u = some ⊥) :
    u = .infinity .negative := by
  cases u with
  | notANumber => cases h
  | infinity s => cases s <;> simp_all [unpackedPoint?]
  | zero s => exact absurd (Option.some.inj h) (bot_lt_ofRational _).ne'
  | finite s m e hm => exact absurd (Option.some.inj h) (bot_lt_ofRational _).ne'

private theorem point_infinity_add {x y : Float} {s : Sign} (hx : x.toModel.unpack = .infinity s)
    (hy : IsFinite y.toModel.unpack) : point? (x + y) = unpackedPoint? (.infinity s) := by
  rw [point?_add, hx]
  generalize y.toModel.unpack = v at hy
  cases v with
  | notANumber => exact hy.elim
  | infinity r => exact hy.elim
  | _ => exact congrArg unpackedPoint? (unpack_pack_infinity s)

private theorem point_add_infinity {x y : Float} {s : Sign} (hx : IsFinite x.toModel.unpack)
    (hy : y.toModel.unpack = .infinity s) : point? (x + y) = unpackedPoint? (.infinity s) := by
  rw [point?_add, hy]
  generalize x.toModel.unpack = u at hx
  cases u with
  | notANumber => exact hx.elim
  | infinity r => exact hx.elim
  | _ => exact congrArg unpackedPoint? (unpack_pack_infinity s)

private theorem point_infinity_add_infinity {x y : Float} {s r : Sign}
    (hx : x.toModel.unpack = .infinity s) (hy : y.toModel.unpack = .infinity r) :
    point? (x + y) = if s == r then unpackedPoint? (.infinity s) else none := by
  rw [point?_add, hx, hy]
  cases s <;> cases r
  · exact congrArg unpackedPoint? (unpack_pack_infinity .negative)
  · exact congrArg unpackedPoint? unpack_pack_notANumber
  · exact congrArg unpackedPoint? unpack_pack_notANumber
  · exact congrArg unpackedPoint? (unpack_pack_infinity .positive)

private theorem point_add_notANumber {x y : Float} (hy : point? y = none) :
    point? (x + y) = none := by
  rw [point?_add]
  have : y.toModel.unpack = .notANumber := by
    unfold point? at hy
    generalize y.toModel.unpack = v at hy
    cases v with
    | notANumber => rfl
    | infinity s => cases s <;> cases hy
    | _ => cases hy
  rw [this]
  cases x.toModel.unpack <;> exact congrArg unpackedPoint? unpack_pack_notANumber

theorem line_cases (a : Line) : a = ⊥ ∨ a = ⊤ ∨ ∃ q, a = ofRational q := by
  rcases eq_or_ne a ⊥ with h | h
  · exact .inl h
  · obtain ⟨b, rfl⟩ := WithBot.ne_bot_iff_exists.mp h
    rcases eq_or_ne b ⊤ with rfl | hb
    · exact .inr (.inl rfl)
    · obtain ⟨q, rfl⟩ := WithTop.ne_top_iff_exists.mp hb
      exact .inr (.inr ⟨q, rfl⟩)

theorem isFinite_toModel {x : Float} {p : ℚ} (h : point? x = some (ofRational p)) :
    IsFinite x.toModel.unpack := isFinite_of_point (isCanonical_unpack_toModel x) h

/-- Adding the same double to two doubles does not turn their order around. -/
theorem point?_add_mono {x y z : Float} (h : x < y) {c : Line} (hc : point? (y + z) = some c)
    (ht : c ≠ ⊤) : ∃ a, point? (x + z) = some a ∧ a ≤ c := by
  obtain ⟨a, ha, b, hb, hab⟩ := lt_iff_point.mp h
  rw [Option.mem_def] at ha hb
  cases hz : point? z with
  | none => exact absurd (hc.symm.trans (point_add_notANumber hz)) (by simp)
  | some d =>
    rcases line_cases b with rfl | rfl | ⟨q, rfl⟩
    · exact absurd hab not_lt_bot
    · -- the larger double is infinite: so is the sum, or there is none
      have hyz : point? (y + z) = some ⊤ ∨ point? (y + z) = none := by
        rcases line_cases d with rfl | rfl | ⟨r, rfl⟩
        · exact .inr (point_infinity_add_infinity (unpack_of_top hb) (unpack_of_bot hz))
        · exact .inl (point_infinity_add_infinity (unpack_of_top hb) (unpack_of_top hz))
        · exact .inl (point_infinity_add (unpack_of_top hb) (isFinite_toModel hz))
      rcases hyz with hyz | hyz
      · exact absurd (Option.some.inj (hc.symm.trans hyz)) ht
      · exact absurd (hc.symm.trans hyz) (by simp)
    · have hyf := isFinite_toModel hb
      rcases line_cases d with rfl | rfl | ⟨r, rfl⟩
      · -- both sums are below everything
        refine ⟨⊥, ?_, bot_le⟩
        rcases line_cases a with rfl | rfl | ⟨p, rfl⟩
        · exact point_infinity_add_infinity (unpack_of_bot ha) (unpack_of_bot hz)
        · exact absurd hab not_top_lt
        · exact point_add_infinity (isFinite_toModel ha) (unpack_of_bot hz)
      · exact absurd (Option.some.inj (hc.symm.trans (point_add_infinity hyf (unpack_of_top hz)))) ht
      · rcases line_cases a with rfl | rfl | ⟨p, rfl⟩
        · exact ⟨⊥, point_infinity_add (unpack_of_bot ha) (isFinite_toModel hz), bot_le⟩
        · exact absurd hab not_top_lt
        · refine ⟨_, point?_add_of_finite ha hz, ?_⟩
          obtain rfl := Option.some.inj (hc.symm.trans (point?_add_of_finite hb hz))
          have hpq : p < q := ofRational_lt.mp hab
          exact clamped_mono (roundedSigned_mono (by linarith))

theorem add_lt_of_lt {x y z w : Float} (h : x < y) (hw : y + z < w) : x + z < w := by
  obtain ⟨c, hc, d, hd, hcd⟩ := lt_iff_point.mp hw
  obtain ⟨a, ha, hac⟩ := point?_add_mono h hc (hcd.trans_le le_top).ne
  exact lt_iff_point.mpr ⟨a, ha, d, hd, hac.trans_lt hcd⟩

end ShotTiming.Number
