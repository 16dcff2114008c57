import ShotTiming.Proofs.Number.Arithmetic

/-!
# Quotients of doubles

A quotient of doubles is the exact quotient, rounded once: the remainder of the division of their digits
tells how the digits of the quotient would go on.
-/
namespace ShotTiming.Number
open Float.Model Float.Model.UnpackedFloat

/-- A share of a unit other than none and a half sets the sticky bit. -/
private theorem stands_sticky (k : ℕ) {share : ℚ} {b : Bool} (hpos : 0 < share) (hlt : share < 1)
    (hne : share ≠ 1 / 2) (hb : b = true ↔ 1 / 2 ≤ share) : Stands ⟨k, b, true⟩ (k + share) where
  ge := by linarith
  lt := by linarith
  round := by rw [hb, add_le_add_iff_left]
  sticky := by simpa using ⟨hpos.ne', by simpa using hne⟩

/-- The remainder tells how a quotient lies between two integers. -/
theorem stands_fraction (m : ℕ) {n : ℕ} (hn : 0 < n) :
    Stands (.ofMantissaAndAccuracy (m / n) (accuracyOfFraction (m % n) n)) ((m : ℚ) / n) := by
  have hpos : (0 : ℚ) < n := by exact_mod_cast hn
  have hsplit : (m : ℚ) / n = (m / n : ℕ) + ((m % n : ℕ) : ℚ) / n := by
    rw [eq_comm, eq_div_iff hpos.ne', add_mul, div_mul_cancel₀ _ hpos.ne']
    exact_mod_cast Nat.div_add_mod' m n
  have hlt : ((m % n : ℕ) : ℚ) / n < 1 := (div_lt_one hpos).mpr (by exact_mod_cast Nat.mod_lt m hn)
  rw [hsplit]
  generalize m / n = k
  generalize m % n = r at hlt
  unfold accuracyOfFraction
  split_ifs with hr
  · rw [hr, Nat.cast_zero, zero_div, add_zero]
    exact stands_exact k
  · have hrpos : (0 : ℚ) < (r : ℚ) / n := div_pos (by exact_mod_cast Nat.pos_of_ne_zero hr) hpos
    cases hc : compare (2 * r) n with
    | lt =>
      have hhalf : (r : ℚ) / n < 1 / 2 := by
        rw [div_lt_div_iff₀ hpos two_pos]
        exact_mod_cast (by have := compare_lt_iff_lt.mp hc; omega : r * 2 < 1 * n)
      exact stands_sticky k hrpos hlt hhalf.ne (by simpa using hhalf)
    | eq =>
      have hhalf : (r : ℚ) / n = 1 / 2 := by
        rw [div_eq_div_iff hpos.ne' two_ne_zero]
        exact_mod_cast (by have := compare_eq_iff_eq.mp hc; omega : r * 2 = 1 * n)
      constructor <;> simp [ExtendedMantissa.ofMantissaAndAccuracy, hhalf]
      norm_num
    | gt =>
      have hhalf : 1 / 2 < (r : ℚ) / n := by
        rw [div_lt_div_iff₀ two_pos hpos]
        exact_mod_cast (by have := compare_gt_iff_gt.mp hc; omega : 1 * n < r * 2)
      exact stands_sticky k hrpos hlt hhalf.ne' (by simpa using hhalf.le)

/-- A quotient is at least as large as its magnitudes say. -/
theorem log_sub_log_le {p q : ℚ} (hp : 0 < p) (hq : 0 < q) :
    Int.log 2 p - Int.log 2 q - 1 ≤ Int.log 2 (p / q) := by
  refine (Int.zpow_le_iff_le_log (by norm_num) (div_pos hp hq)).mp ?_
  have hlo : ((2 : ℕ) : ℚ) ^ Int.log 2 p ≤ p := Int.zpow_log_le_self (by norm_num) hp
  have hhi : q < ((2 : ℕ) : ℚ) ^ (Int.log 2 q + 1) := Int.lt_zpow_succ_log_self (by norm_num) q
  rw [sub_sub, zpow_sub₀ (by norm_num)]
  exact div_le_div₀ hp.le hlo hq hhi.le

section

variable {u v : UnpackedFloat} {x y : Float} {p q : ℚ}

private theorem div_positive (s : Sign) {m n : ℕ} {e f : ℤ} (hm : 0 < m) (hn : 0 < n) :
    let c := divCore Format.binary64 m e n f
    IsFinite (roundWithAccuracy Format.binary64 s c.1 c.2.1 c.2.2) ∧
    unpackedPoint? (roundWithAccuracy Format.binary64 s c.1 c.2.1 c.2.2) =
      some (ofRational ((s.apply 1 : ℤ) * rounded ((m * 2 ^ e) / (n * 2 ^ f)))) := by
  have hp : (0 : ℚ) < m * 2 ^ e := by positivity
  have hq : (0 : ℚ) < n * 2 ^ f := by positivity
  have hlog := log_sub_log_le hp hq
  rw [log_mul_zpow hm, log_mul_zpow hn] at hlog
  dsimp only [divCore]
  generalize ht : min (e - f) (Format.binary64.targetExponent (totalExponent m e - totalExponent n f)) = t
  have hle : t ≤ e - f := ht ▸ min_le_left _ _
  have hshift : ((m <<< (e - f - t).toNat : ℕ) : ℚ) / n * 2 ^ t = m * 2 ^ e / (n * 2 ^ f) := by
    have hpow : (2 : ℚ) ^ (e - f - t).toNat * 2 ^ t = 2 ^ e / 2 ^ f := by
      rw [← zpow_natCast, Int.toNat_of_nonneg (by omega), ← zpow_add₀ (by norm_num),
        ← zpow_sub₀ (by norm_num), sub_add_cancel]
    rw [Nat.shiftLeft_eq]
    push_cast
    rw [div_mul_eq_mul_div, mul_assoc, hpow, mul_div_assoc', div_div, mul_comm (2 ^ f : ℚ)]
  have hpos : (0 : ℚ) < ((m <<< (e - f - t).toNat : ℕ) : ℚ) / n := by
    rw [Nat.shiftLeft_eq]
    positivity
  rw [← hshift]
  refine roundWithAccuracy_stands s (stands_fraction _ hn) hpos ?_
  rw [hshift]
  simp only [Format.targetExponent, totalExponent, Format.mantissaBits, Format.minExponent] at ht
  norm_num at ht
  unfold gridExponent
  omega

private theorem apply_div (s r : Sign) : (s / r).apply 1 = s.apply 1 * r.apply 1 := by
  cases s <;> cases r <;> rfl

private theorem point_div (s r : Sign) (m n : ℕ) (e f : ℤ) :
    ((s.apply m : ℤ) : ℚ) * 2 ^ e / ((r.apply n : ℤ) * 2 ^ f) =
      ((s / r).apply 1 : ℤ) * ((m * 2 ^ e) / (n * 2 ^ f)) := by
  rw [apply_cast s m, apply_cast r n, apply_div]
  cases s <;> cases r <;> simp [Sign.apply, neg_div, div_neg]

private theorem div_finite (hu : IsFinite u) (hv : IsFinite v) (hx : unpackedPoint? u = some (ofRational p))
    (hy : unpackedPoint? v = some (ofRational q)) (hq : q ≠ 0) :
    IsFinite (UnpackedFloat.div Format.binary64 u v) ∧
    unpackedPoint? (UnpackedFloat.div Format.binary64 u v) = some (ofRational (roundedSigned (p / q))) := by
  rcases finite_cases hv hy with ⟨r, -, rfl⟩ | ⟨r, n, f, hn, rfl, -, rfl⟩
  · exact absurd rfl hq
  · rcases finite_cases hu hx with ⟨s, rfl, rfl⟩ | ⟨s, m, e, hm, rfl, -, rfl⟩
    · exact ⟨trivial, by simp [UnpackedFloat.div, unpackedPoint?, roundedSigned]⟩
    · rw [point_div, roundedSigned_apply _ (by positivity)]
      exact div_positive (s / r) hm hn

/-- The quotient of finite doubles is their exact quotient, rounded once. -/
theorem point?_div_of_finite (hx : point? x = some (ofRational p)) (hy : point? y = some (ofRational q))
    (hq : q ≠ 0) : point? (x / y) = some (clamped (roundedSigned (p / q))) := by
  obtain ⟨hf, hp⟩ := div_finite (isFinite_toModel hx) (isFinite_toModel hy) hx hy hq
  exact unpackedPoint_pack hf hp

/-! ## Where finite results come from -/

/-- A double is finite exactly if it stands for a rational. -/
theorem isFinite_iff_point : x.isFinite = true ↔ ∃ p, point? x = some (ofRational p) := by
  change x.toModel.unpack.isFinite = true ↔ _
  unfold point?
  cases x.toModel.unpack with
  | notANumber => simp [UnpackedFloat.isFinite, unpackedPoint?]
  | infinity s => cases s <;> simp [UnpackedFloat.isFinite, unpackedPoint?, ofRational]
  | zero s => simp [UnpackedFloat.isFinite, unpackedPoint?]
  | finite s m e hm => simp [UnpackedFloat.isFinite, unpackedPoint?]

/-- Packing makes no finite number of one that is not. -/
private theorem isFinite_of_pack (h : (Float.Model.unpack (.pack u)).isFinite) : u.isFinite := by
  cases u with
  | notANumber => rwa [unpack_pack_notANumber] at h
  | infinity s => rwa [unpack_pack_infinity] at h
  | _ => rfl

/-- Only a finite double has a finite quotient, and only by a number. -/
theorem isFinite_of_div (h : (x / y).isFinite) : x.isFinite ∧ ¬ y.isNaN := by
  have hdiv : (UnpackedFloat.div Format.binary64 x.toModel.unpack y.toModel.unpack).isFinite :=
    isFinite_of_pack h
  change x.toModel.unpack.isFinite = true ∧ ¬ y.toModel.unpack.isNaN = true
  generalize x.toModel.unpack = u at *
  generalize y.toModel.unpack = v at *
  cases u <;> cases v <;> first | exact ⟨rfl, Bool.false_ne_true⟩ | cases hdiv

/-- Only finite doubles have a finite difference. -/
theorem isFinite_of_sub (h : (x - y).isFinite) : x.isFinite ∧ y.isFinite := by
  have hsub : (UnpackedFloat.sub Format.binary64 x.toModel.unpack y.toModel.unpack).isFinite :=
    isFinite_of_pack h
  change x.toModel.unpack.isFinite = true ∧ y.toModel.unpack.isFinite = true
  generalize x.toModel.unpack = u at *
  generalize y.toModel.unpack = v at *
  cases u with
  | notANumber => cases hsub
  | infinity s =>
    cases v with
    | infinity r => cases s <;> cases r <;> cases hsub
    | _ => cases hsub
  | _ => cases v <;> first | exact ⟨rfl, rfl⟩ | cases hsub

end

end ShotTiming.Number
