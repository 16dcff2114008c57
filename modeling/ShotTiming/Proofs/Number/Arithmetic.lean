import ShotTiming.Proofs.Number.Rounding

/-!
# Differences and products of doubles, and signs

A difference, a product and an integer as a double are the exact result rounded once, like a sum. A double
differs from the integer closest to it by a double again, so that this difference is not rounded at all.
-/
namespace ShotTiming.Number
open Float.Model Float.Model.UnpackedFloat

/-! ## The exact value -/

theorem scaled_eq (m e : ℤ) : scaled m e = (m : ℚ) * 2 ^ e := by
  unfold scaled
  split
  · rename_i h
    have he : e = -((-e).toNat : ℤ) := by omega
    rw [Rat.mkRat_eq_div]
    conv_rhs => rw [he, zpow_neg, zpow_natCast]
    simp [div_eq_mul_inv]
  · rename_i h
    have he : e = (e.toNat : ℤ) := by omega
    rw [Rat.mkRat_eq_div]
    conv_rhs => rw [he, zpow_natCast]
    simp

theorem rational?_eq_some {x : Float} {q : ℚ} :
    rational? x = some q ↔ point? x = some (ofRational q) := by
  unfold rational? point?
  cases x.toModel.unpack with
  | notANumber => simp [unpackedPoint?]
  | infinity s => cases s <;> simp [unpackedPoint?, ofRational]
  | zero s => simp [unpackedPoint?]
  | finite s m e h => simp [unpackedPoint?, scaled_eq]

theorem rational_of_point {x : Float} {q : ℚ} (h : point? x = some (ofRational q)) : rational x = q := by
  rw [rational, rational?_eq_some.mpr h, Option.getD_some]

/-! ## The closest integer -/

theorem abs_sub_nearestEven (q : ℚ) : |q - nearestEven q| ≤ 1 / 2 := by
  have hge := Int.floor_le q
  have hlt := Int.lt_floor_add_one q
  rw [nearestEven_eq, abs_le]
  split_ifs with h
  · have hhalf : q - ⌊q⌋ ≤ 1 / 2 := by
      rcases h with h | ⟨h, -⟩ <;> linarith
    constructor <;> linarith
  · have hhalf : 1 / 2 ≤ q - ⌊q⌋ := not_lt.mp fun hc => h (.inl hc)
    push_cast
    constructor <;> linarith

theorem abs_nearestEven_le (q : ℚ) : |(nearestEven q : ℚ)| ≤ |q| + 1 / 2 := by
  have hhalf := abs_sub_nearestEven q
  have htri := abs_sub_abs_le_abs_sub (nearestEven q : ℚ) q
  rw [abs_sub_comm] at htri
  linarith

/-- No integer is closer. -/
theorem abs_sub_nearestEven_le (q : ℚ) (n : ℤ) : |q - nearestEven q| ≤ |q - n| := by
  have hhalf := abs_sub_nearestEven q
  by_cases hn : nearestEven q = n
  · rw [hn]
  · have hone : (1 : ℚ) ≤ |(nearestEven q : ℚ) - n| := by
      have : (1 : ℤ) ≤ |nearestEven q - n| := Int.one_le_abs (sub_ne_zero.mpr hn)
      exact_mod_cast this
    have htri := abs_sub_abs_le_abs_sub ((nearestEven q : ℚ) - n) (nearestEven q - q)
    rw [sub_sub_sub_cancel_left, abs_sub_comm (nearestEven q : ℚ) q] at htri
    linarith

/-- Away from the least doubles, rounding moves a number by a small part of it. -/
theorem abs_rounded_sub_le {x : ℚ} (hx : 2 ^ (-1022 : ℤ) ≤ x) : |rounded x - x| ≤ x / 2 ^ 53 := by
  have hpos : 0 < x := lt_of_lt_of_le (by positivity) hx
  have hlog : -1022 ≤ Int.log 2 x := (Int.zpow_le_iff_le_log (by norm_num) hpos).mp (by exact_mod_cast hx)
  have hgrid : Int.log 2 x = 52 + gridExponent x := by
    unfold gridExponent
    omega
  have hunit : (2 : ℚ) ^ 52 * 2 ^ gridExponent x ≤ x := by
    have hle : (2 : ℚ) ^ Int.log 2 x ≤ x := by exact_mod_cast Int.zpow_log_le_self (by norm_num) hpos
    rwa [hgrid, zpow_add₀ (by norm_num)] at hle
  have hp : (0 : ℚ) < 2 ^ gridExponent x := by positivity
  have hcount : x / 2 ^ gridExponent x * 2 ^ gridExponent x = x := div_mul_cancel₀ x hp.ne'
  have hmove : |rounded x - x| =
      |x / 2 ^ gridExponent x - nearestEven (x / 2 ^ gridExponent x)| * 2 ^ gridExponent x := by
    rw [abs_sub_comm, rounded, ← abs_of_pos hp, ← abs_mul, abs_of_pos hp, sub_mul, hcount]
  calc |rounded x - x| ≤ 1 / 2 * 2 ^ gridExponent x := by
        rw [hmove]
        gcongr
        exact abs_sub_nearestEven _
    _ ≤ x / 2 ^ 53 := by linarith

theorem rounded_le {x : ℚ} (hx : 2 ^ (-1022 : ℤ) ≤ x) : rounded x ≤ x * (1 + 1 / 2 ^ 53) := by
  have hmove := (abs_le.mp (abs_rounded_sub_le hx)).2
  linarith

theorem abs_roundedSigned_sub_le {x : ℚ} (hx : 2 ^ (-1022 : ℤ) ≤ x) : |roundedSigned x - x| ≤ x / 2 ^ 53 := by
  have hpos : 0 < x := lt_of_lt_of_le (by positivity) hx
  rw [roundedSigned, if_pos hpos]
  exact abs_rounded_sub_le hx

/-! ## Numbers that are doubles -/

/-- A multiple of a power of two with as many binary digits as a double has at most. -/
structure FitsGrid (q : ℚ) (t : ℤ) : Prop where
  multiple : ∃ k : ℤ, q = k * 2 ^ t
  lt : |q| < 2 ^ (53 + t)
  ge : -1074 ≤ t

namespace FitsGrid

variable {q : ℚ} {t : ℤ}

theorem neg (h : FitsGrid q t) : FitsGrid (-q) t := by
  obtain ⟨⟨k, hk⟩, hlt, hge⟩ := h
  refine ⟨⟨-k, ?_⟩, by rwa [abs_neg], hge⟩
  rw [hk, Int.cast_neg, neg_mul]

private theorem rounded_eq (h : FitsGrid q t) (hq : 0 < q) : rounded q = q := by
  obtain ⟨⟨k, hk⟩, hlt, hge⟩ := h
  rw [abs_of_pos hq] at hlt
  have hlog : Int.log 2 q < 53 + t := (Int.lt_zpow_iff_log_lt (by norm_num) hq).mp (by exact_mod_cast hlt)
  have hgrid : gridExponent q ≤ t := by
    unfold gridExponent
    omega
  have hpow : (2 : ℚ) ^ t = 2 ^ (t - gridExponent q).toNat * 2 ^ gridExponent q := by
    rw [← zpow_natCast, ← zpow_add₀ (by norm_num)]
    congr 1
    omega
  have hpos : (2 : ℚ) ^ gridExponent q ≠ 0 := by positivity
  have hint : q / 2 ^ gridExponent q = ((k * 2 ^ (t - gridExponent q).toNat : ℤ) : ℚ) := by
    rw [div_eq_iff hpos, Int.cast_mul, Int.cast_pow, Int.cast_ofNat, mul_assoc, ← hpow]
    exact hk
  rw [rounded, hint, nearestEven_intCast, ← hint, div_mul_cancel₀ q hpos]

/-- Such a number is not rounded. -/
theorem roundedSigned_eq (h : FitsGrid q t) : roundedSigned q = q := by
  unfold roundedSigned
  rcases lt_trichotomy q 0 with hq | rfl | hq
  · rw [if_neg hq.not_gt, if_pos hq, h.neg.rounded_eq (neg_pos.mpr hq), neg_neg]
  · simp
  · rw [if_pos hq, h.rounded_eq hq]

/-- Rounding moves a multiple of such a number by a small part of it, however small it is. -/
theorem abs_roundedSigned_mul_sub_le (h : FitsGrid q t) (k : ℤ) (hpos : 0 ≤ k * q) :
    |roundedSigned (k * q) - k * q| ≤ k * q / 2 ^ 53 := by
  rcases le_or_gt (2 ^ (-1022 : ℤ)) (k * q) with hlarge | hsmall
  · exact abs_roundedSigned_sub_le hlarge
  · -- the least doubles are equally far apart, so that their multiples are doubles again
    have hfits : FitsGrid (k * q) (-1074) := by
      obtain ⟨⟨j, hj⟩, -, hge⟩ := h
      refine ⟨⟨k * (j * 2 ^ (t + 1074).toNat), ?_⟩, ?_, le_rfl⟩
      · have hpow : (2 : ℚ) ^ t = 2 ^ (t + 1074).toNat * 2 ^ (-1074 : ℤ) := by
          rw [← zpow_natCast, ← zpow_add₀ (by norm_num), Int.toNat_of_nonneg (by omega), add_neg_cancel_right]
        rw [hj, hpow, Int.cast_mul, Int.cast_mul, Int.cast_pow, Int.cast_ofNat, mul_assoc, mul_assoc]
      · rw [abs_of_nonneg hpos]
        exact hsmall.trans_le (zpow_le_zpow_right₀ (by norm_num) (by norm_num))
    rw [hfits.roundedSigned_eq, sub_self, abs_zero]
    positivity

private theorem exists_int (h : FitsGrid q t) (ht : 0 ≤ t) : ∃ n : ℤ, q = n := by
  obtain ⟨⟨k, hk⟩, -, -⟩ := h
  refine ⟨k * 2 ^ t.toNat, ?_⟩
  rw [hk, Int.cast_mul, Int.cast_pow, Int.cast_ofNat, ← zpow_natCast, Int.toNat_of_nonneg ht]

private theorem nearestEven_cast (h : FitsGrid q t) (ht : 0 ≤ t) : (Number.nearestEven q : ℚ) = q := by
  obtain ⟨n, rfl⟩ := h.exists_int ht
  rw [nearestEven_intCast]

theorem intCast {n : ℤ} (hn : |(n : ℚ)| < 2 ^ 53) : FitsGrid n 0 :=
  ⟨⟨n, by rw [zpow_zero, mul_one]⟩, by exact_mod_cast hn, by norm_num⟩

/-- An integer that such a number is brought to is such a number too, and is in the range that it is in. -/
theorem next (h : FitsGrid q t) {n : ℤ} (hn : |q - n| ≤ 1) (hwhole : ∀ m : ℤ, q = m → n = m) :
    (∃ u, FitsGrid n u) ∧ (|q| < 2 ^ 63 → |n| < 2 ^ 63) := by
  rcases le_or_gt 0 t with ht | ht
  · obtain ⟨m, rfl⟩ := h.exists_int ht
    rw [hwhole m rfl]
    exact ⟨⟨t, h⟩, fun hlt => by exact_mod_cast hlt⟩
  · -- a number that is not whole has fewer digits before the point
    have hq : |q| < 2 ^ (52 : ℤ) := h.lt.trans_le (zpow_le_zpow_right₀ (by norm_num) (by omega))
    have htri := abs_sub_abs_le_abs_sub (n : ℚ) q
    rw [abs_sub_comm] at htri
    have hsmall : |(n : ℚ)| < 2 ^ 53 := by
      norm_num at hq ⊢
      linarith
    refine ⟨⟨0, .intCast hsmall⟩, fun _ => ?_⟩
    have hint : |n| < 2 ^ 53 := by exact_mod_cast hsmall
    omega

theorem nearestEven (h : FitsGrid q t) : ∃ u, FitsGrid (Number.nearestEven q) u := by
  refine (h.next ((abs_sub_nearestEven q).trans (by norm_num)) ?_).1
  rintro m rfl
  exact nearestEven_intCast m

/-- Taking away the closest integer leaves as many digits. -/
theorem sub_nearestEven (h : FitsGrid q t) : FitsGrid (q - Number.nearestEven q) t := by
  have hle : |q - Number.nearestEven q| ≤ |q| := by simpa using abs_sub_nearestEven_le q 0
  refine ⟨?_, hle.trans_lt h.lt, h.ge⟩
  obtain ⟨k, hk⟩ := h.multiple
  rcases le_or_gt 0 t with ht | ht
  · exact ⟨0, by rw [h.nearestEven_cast ht, sub_self, Int.cast_zero, zero_mul]⟩
  · refine ⟨k - Number.nearestEven q * 2 ^ (-t).toNat, ?_⟩
    have hpow : ((2 : ℚ) ^ (-t).toNat) * 2 ^ t = 1 := by
      rw [← zpow_natCast, ← zpow_add₀ (by norm_num), Int.toNat_of_nonneg (by omega), neg_add_cancel,
        zpow_zero]
    rw [Int.cast_sub, Int.cast_mul, Int.cast_pow, Int.cast_ofNat, sub_mul, mul_assoc, hpow, mul_one, ← hk]

end FitsGrid

/-- What is finite is a zero, or its digits are canonical. -/
theorem finite_cases {u : UnpackedFloat} {q : ℚ} (hu : IsFinite u)
    (hx : unpackedPoint? u = some (ofRational q)) : (∃ s, u = .zero s ∧ q = 0) ∨
      ∃ s m e hm, u = .finite s m e hm ∧ Canonical m e ∧ q = (s.apply m : ℤ) * 2 ^ e := by
  cases u with
  | notANumber => exact hu.elim
  | infinity s => exact hu.elim
  | zero s => exact .inl ⟨s, rfl, by simpa [unpackedPoint?] using hx.symm⟩
  | finite s m e hm => exact .inr ⟨s, m, e, hm, rfl, hu, by simpa [unpackedPoint?] using hx.symm⟩

theorem exists_fitsGrid {x : Float} {q : ℚ} (h : point? x = some (ofRational q)) : ∃ t, FitsGrid q t := by
  rcases finite_cases (isFinite_toModel h) h with ⟨s, -, rfl⟩ | ⟨s, m, e, hm, -, ⟨hlt, hge, -⟩, rfl⟩
  · exact ⟨0, ⟨0, by simp⟩, by norm_num, by norm_num⟩
  · refine ⟨e, ⟨_, rfl⟩, ?_, hge⟩
    have hp : (0 : ℚ) < 2 ^ e := by positivity
    have hmant : |((s.apply m : ℤ) : ℚ)| < 2 ^ (53 : ℤ) := by
      have : (m : ℚ) < 2 ^ (53 : ℤ) := by exact_mod_cast hlt
      cases s <;> simpa [Sign.apply] using this
    rw [abs_mul, abs_of_pos hp, zpow_add₀ (by norm_num)]
    gcongr

theorem clamped_of_abs_lt {q : ℚ} (h : |q| < 2 ^ (1024 : ℤ)) : clamped q = ofRational q := by
  obtain ⟨hlo, hhi⟩ := abs_lt.mp h
  rw [clamped, if_neg hhi.not_ge, if_neg hlo.not_ge]

theorem eq_of_clamped {p q : ℚ} (h : clamped p = ofRational q) : p = q := by
  unfold clamped at h
  split_ifs at h
  · exact absurd h (ofRational_lt_top q).ne'
  · exact absurd h (bot_lt_ofRational q).ne
  · exact ofRational_inj.mp h

theorem clamped_of_abs_le {q : ℚ} (h : |q| ≤ 2 ^ 64) : clamped q = ofRational q := by
  refine clamped_of_abs_lt (h.trans_lt ?_)
  rw [← zpow_natCast]
  exact zpow_lt_zpow_right₀ (by norm_num) (by norm_num)

/-! ## Operations -/

section

variable {u v : UnpackedFloat} {x y : Float} {p q : ℚ}

private theorem point_neg (s : Sign) (m : ℕ) (e : ℤ) :
    (((-s).apply m : ℤ) : ℚ) * 2 ^ e = -((s.apply m : ℤ) * 2 ^ e) := by
  cases s
  · show ((m : ℤ) : ℚ) * 2 ^ e = -(((-(m : ℤ) : ℤ) : ℚ) * 2 ^ e)
    push_cast
    ring
  · show ((-(m : ℤ) : ℤ) : ℚ) * 2 ^ e = -(((m : ℤ) : ℚ) * 2 ^ e)
    push_cast
    ring

private theorem sub_finite (hu : IsFinite u) (hv : IsFinite v)
    (hx : unpackedPoint? u = some (ofRational p)) (hy : unpackedPoint? v = some (ofRational q)) :
    IsFinite (UnpackedFloat.sub Format.binary64 u v) ∧
    unpackedPoint? (UnpackedFloat.sub Format.binary64 u v) =
      some (ofRational (roundedSigned (p - q))) := by
  rcases finite_cases hu hx with ⟨s, rfl, rfl⟩ | ⟨s, m, e, hm, rfl, -, hp⟩ <;>
    rcases finite_cases hv hy with ⟨r, rfl, rfl⟩ | ⟨r, n, f, hn, rfl, -, hq⟩
  · cases s <;> cases r <;> exact ⟨trivial, by simp [roundedSigned]; rfl⟩
  · have hneg : unpackedPoint? (.finite (-r) n f hn) = some (ofRational (-q)) := by
      rw [unpackedPoint?, point_neg, hq]
    have hfinite : IsFinite (.finite (-r) n f hn) := hv
    rw [zero_sub, roundedSigned_point hfinite hneg]
    exact ⟨hfinite, hneg⟩
  · rw [sub_zero, roundedSigned_point hu hx]
    exact ⟨hu, hx⟩
  · have hdiff : ((s.apply (decreaseExponent m e (min e f)).1 -
        r.apply (decreaseExponent n f (min e f)).1 : ℤ) : ℚ) * 2 ^ min e f = p - q := by
      rw [Int.cast_sub, sub_mul, apply_shift s m (min_le_left e f), apply_shift r n (min_le_right e f), hp, hq]
    rw [← hdiff]
    exact normalize_finite _ _

/-- The difference of finite doubles is their exact difference, rounded once. -/
theorem point?_sub_of_finite (hx : point? x = some (ofRational p)) (hy : point? y = some (ofRational q)) :
    point? (x - y) = some (clamped (roundedSigned (p - q))) := by
  obtain ⟨hf, hp⟩ := sub_finite (isFinite_toModel hx) (isFinite_toModel hy) hx hy
  exact unpackedPoint_pack hf hp

theorem point?_abs_of_finite (hx : point? x = some (ofRational p)) :
    point? x.abs = some (clamped |p|) := by
  have hf : IsFinite x.toModel.unpack.abs ∧ unpackedPoint? x.toModel.unpack.abs = some (ofRational |p|) := by
    rcases finite_cases (isFinite_toModel hx) hx with ⟨s, hu, rfl⟩ | ⟨s, m, e, hm, hu, hcanonical, rfl⟩ <;>
      rw [hu]
    · exact ⟨trivial, by simp [UnpackedFloat.abs, unpackedPoint?]⟩
    · refine ⟨hcanonical, ?_⟩
      have hpos : (0 : ℚ) < 2 ^ e := by positivity
      cases s <;> simp [UnpackedFloat.abs, unpackedPoint?, Sign.apply, abs_mul, abs_of_pos hpos]
  exact unpackedPoint_pack hf.1 hf.2

theorem roundedSigned_apply (s : Sign) {z : ℚ} (hz : 0 < z) :
    roundedSigned ((s.apply 1 : ℤ) * z) = (s.apply 1 : ℤ) * rounded z := by
  cases s <;> simp [Sign.apply, roundedSigned, hz, hz.not_gt]

private theorem mul_canonical {m n : ℕ} {e f : ℤ} (hm : 0 < m) (hn : 0 < n) (hc : Canonical m e)
    (hd : Canonical n f) : e + f ≤ gridExponent (((m * n : ℕ) : ℚ) * 2 ^ (e + f)) := by
  rw [gridExponent, log_mul_zpow (Nat.mul_pos hm hn)]
  have hlog : ∀ {k : ℕ}, 2 ^ 52 ≤ k → 0 < m * n → k ≤ m * n → 52 ≤ (m * n).log2 := fun hk h0 hle =>
    (Nat.le_log2 h0.ne').mpr (hk.trans hle)
  have hpos := Nat.mul_pos hm hn
  rcases hc.full with h | h
  · have := hlog h hpos (Nat.le_mul_of_pos_right m hn)
    omega
  · rcases hd.full with h' | h'
    · have := hlog h' hpos (Nat.le_mul_of_pos_left n hm)
      omega
    · omega

private theorem apply_mul (s r : Sign) : (s * r).apply 1 = s.apply 1 * r.apply 1 := by
  cases s <;> cases r <;> rfl

private theorem point_mul (s r : Sign) (m n : ℕ) (e f : ℤ) :
    ((s.apply m : ℤ) : ℚ) * 2 ^ e * ((r.apply n : ℤ) * 2 ^ f) =
      ((s * r).apply 1 : ℤ) * (((m * n : ℕ) : ℚ) * 2 ^ (e + f)) := by
  rw [apply_cast s m, apply_cast r n, apply_mul, zpow_add₀ (by norm_num)]
  push_cast
  ring

private theorem mul_finite (hu : IsFinite u) (hv : IsFinite v)
    (hx : unpackedPoint? u = some (ofRational p)) (hy : unpackedPoint? v = some (ofRational q)) :
    IsFinite (UnpackedFloat.mul Format.binary64 u v) ∧
    unpackedPoint? (UnpackedFloat.mul Format.binary64 u v) =
      some (ofRational (roundedSigned (p * q))) := by
  rcases finite_cases hu hx with ⟨s, rfl, rfl⟩ | ⟨s, m, e, hm, rfl, hc, rfl⟩ <;>
    rcases finite_cases hv hy with ⟨r, rfl, rfl⟩ | ⟨r, n, f, hn, rfl, hd, rfl⟩
  case inr.inr =>
    have hround := roundWithAccuracy_exact (Nat.mul_pos hm hn) (s * r) (mul_canonical hm hn hc hd)
    have hpos := Nat.mul_pos hm hn
    rw [point_mul, roundedSigned_apply _ (by positivity)]
    exact hround
  all_goals exact ⟨trivial, by simp [roundedSigned]; rfl⟩

/-- The product of finite doubles is their exact product, rounded once. -/
theorem point?_mul_of_finite (hx : point? x = some (ofRational p)) (hy : point? y = some (ofRational q)) :
    point? (x * y) = some (clamped (roundedSigned (p * q))) := by
  obtain ⟨hf, hp⟩ := mul_finite (isFinite_toModel hx) (isFinite_toModel hy) hx hy
  exact unpackedPoint_pack hf hp

private theorem point_neg_of_finite (hx : point? x = some (ofRational p)) :
    point? x.neg = some (clamped (-p)) := by
  have hf : IsFinite x.toModel.unpack.neg ∧ unpackedPoint? x.toModel.unpack.neg = some (ofRational (-p)) := by
    rcases finite_cases (isFinite_toModel hx) hx with ⟨s, hu, rfl⟩ | ⟨s, m, e, hm, hu, hcanonical, rfl⟩ <;>
      rw [hu]
    · exact ⟨trivial, by simp [UnpackedFloat.neg, unpackedPoint?]⟩
    · exact ⟨hcanonical, by rw [UnpackedFloat.neg, unpackedPoint?, point_neg]⟩
  exact unpackedPoint_pack hf.1 hf.2

private theorem point_neg_infinity {s : Sign} (hx : x.toModel.unpack = .infinity s) :
    point? x.neg = unpackedPoint? (.infinity (-s)) := by
  change unpackedPoint? (Float.Model.unpack (.pack x.toModel.unpack.neg)) = _
  rw [hx, UnpackedFloat.neg, unpack_pack_infinity]

/-- Negation is exact, past the range of doubles as well. -/
theorem point?_neg (hx : point? x = some (clamped p)) : point? x.neg = some (clamped (-p)) := by
  unfold clamped at hx
  split_ifs at hx with hge hle
  · have hneg : ¬ (2 : ℚ) ^ (1024 : ℤ) ≤ -p :=
      not_le.mpr ((neg_lt_zero.mpr (range_pos.trans_le hge)).trans range_pos)
    rw [point_neg_infinity (unpack_of_top hx), clamped, if_neg hneg, if_pos (neg_le_neg hge)]
    rfl
  · rw [point_neg_infinity (unpack_of_bot hx), clamped, if_pos (le_neg_of_le_neg hle)]
    rfl
  · exact point_neg_of_finite hx

theorem roundedSigned_neg (z : ℚ) : roundedSigned (-z) = -roundedSigned z := by
  unfold roundedSigned
  rcases lt_trichotomy z 0 with hz | rfl | hz
  · simp [hz, hz.not_gt]
  · simp
  · simp [hz, hz.not_gt]

/-! ## Integers -/

private theorem point?_toFloat {n : ℕ} (hn : n < 2 ^ 53) :
    point? n.toUInt64.toFloat = some (clamped (roundedSigned n)) := by
  have hvalue : (((n.toUInt64.toNat : ℕ) : ℤ) : ℚ) * 2 ^ (0 : ℤ) = n := by
    rw [zpow_zero, mul_one, Nat.toUInt64, UInt64.toNat_ofNat', Nat.mod_eq_of_lt (by omega)]
    rfl
  obtain ⟨hf, hp⟩ := normalize_finite (n.toUInt64.toNat : ℕ) 0
  rw [hvalue] at hp
  exact unpackedPoint_pack hf hp

private theorem ofNat_of_lt {n : ℕ} (hn : n < 2 ^ 53) :
    Float.ofNat n = n.toUInt64.toFloat * 1.0 := by
  have hfast : n < 2 ^ 53 ∧ 0 ≤ 22 := ⟨hn, Nat.zero_le _⟩
  change Float.ofScientific n false 0 = _
  unfold Float.ofScientific
  rw [dif_pos hfast]
  rfl

private theorem ofNat_of_ge {n : ℕ} (hn : 2 ^ 53 ≤ n) :
    Float.ofNat n =
      .ofModel (.pack (roundWithAccuracy Format.binary64 .positive (n <<< 53 * 1) (-53 + 0) .exact)) := by
  have hslow : ¬ (n < 2 ^ 53 ∧ 0 ≤ 22) := fun h => absurd h.1 (by omega)
  have hne : n ≠ 0 := by omega
  have hhuge : ¬ (0 : ℤ) > 2 ^ 11 := by norm_num
  have htiny : ¬ (0 : ℤ) < -(2 ^ 11 + (n.log2 : ℤ)) := by omega
  change Float.ofScientific n false 0 = _
  unfold Float.ofScientific
  rw [dif_neg hslow]
  change Float.ofModel (.pack (UnpackedFloat.ofScientific Format.binary64 n 0)) = _
  rw [UnpackedFloat.ofScientific, dif_neg hne, if_neg hhuge, if_neg htiny, if_pos le_rfl]
  rfl

private theorem point_one : point? (1.0 : Float) = some (ofRational 1) := by
  have hu : (1.0 : Float).toModel.unpack = .finite .positive (2 ^ 52) (-52) (by norm_num) := by rfl
  rw [point?, hu, unpackedPoint?]
  norm_num [Sign.apply]

private theorem point_roundWithAccuracy {m : ℕ} {e : ℤ} {q : ℚ} (hm : 0 < m) (hq : (m : ℚ) * 2 ^ e = q)
    (he : e ≤ gridExponent q) :
    point? (.ofModel (.pack (roundWithAccuracy Format.binary64 .positive m e .exact))) =
      some (clamped (roundedSigned q)) := by
  have hpos : 0 < q := by
    rw [← hq]
    positivity
  obtain ⟨hf, hp⟩ := roundWithAccuracy_exact hm .positive (hq ▸ he)
  rw [hq, ← roundedSigned_apply .positive hpos, Sign.apply, Int.cast_one, one_mul] at hp
  exact unpackedPoint_pack hf hp

private theorem shifted_cast (n : ℕ) : ((n <<< 53 * 1 : ℕ) : ℚ) * 2 ^ (-53 + 0 : ℤ) = n := by
  rw [Nat.shiftLeft_eq]
  push_cast
  rw [mul_one, mul_assoc]
  norm_num

private theorem shifted_gridExponent (n : ℕ) : (-53 + 0 : ℤ) ≤ gridExponent n := by
  have hlog : (0 : ℤ) ≤ Int.log 2 (n : ℚ) := by
    rw [Int.log_natCast]
    exact Int.natCast_nonneg _
  unfold gridExponent
  omega

private theorem point?_ofNat_of_ge {n : ℕ} (hn : 2 ^ 53 ≤ n) :
    point? (Float.ofNat n) = some (clamped (roundedSigned n)) := by
  have hpos : 0 < n <<< 53 * 1 := by
    rw [Nat.shiftLeft_eq]
    omega
  rw [ofNat_of_ge hn]
  exact point_roundWithAccuracy hpos (shifted_cast n) (shifted_gridExponent n)

theorem point?_ofNat (n : ℕ) : point? (Float.ofNat n) = some (clamped (roundedSigned n)) := by
  rcases lt_or_ge n (2 ^ 53) with hn | hn
  · have hfits : FitsGrid n 0 := .intCast (n := n) (by exact_mod_cast hn)
    have hsmall : |(n : ℚ)| < 2 ^ (1024 : ℤ) := by
      refine hfits.lt.trans_le (zpow_le_zpow_right₀ (by norm_num) (by norm_num))
    have hpoint := point?_toFloat hn
    rw [hfits.roundedSigned_eq, clamped_of_abs_lt hsmall] at hpoint
    rw [ofNat_of_lt hn, point?_mul_of_finite hpoint point_one, mul_one]
  · exact point?_ofNat_of_ge hn

/-- An integer as a double is the integer, rounded once. -/
theorem point?_ofInt (n : ℤ) : point? (Float.ofInt n) = some (clamped (roundedSigned n)) := by
  cases n with
  | ofNat n => exact point?_ofNat n
  | negSucc n =>
    rw [Int.cast_negSucc, roundedSigned_neg]
    exact point?_neg (point?_ofNat (n + 1))

end

/-! ## Signs -/

/-- The value is not below zero, if there is one. -/
private def Nonneg (u : UnpackedFloat) : Prop := ∀ a ∈ unpackedPoint? u, ofRational 0 ≤ a

private theorem Nonneg.sign_infinity {s : Sign} (h : Nonneg (.infinity s)) : s = .positive := by
  cases s with
  | positive => rfl
  | negative => exact absurd (h ⊥ rfl) (bot_lt_ofRational 0).not_ge

private theorem Nonneg.sign_finite {s : Sign} {m : ℕ} {e : ℤ} {hm : 0 < m}
    (h : Nonneg (.finite s m e hm)) : s = .positive := by
  cases s with
  | positive => rfl
  | negative =>
    have hpos : (0 : ℚ) < m * 2 ^ e := by positivity
    have hvalue := ofRational_le.mp (h _ rfl)
    rw [apply_cast, Sign.apply, Int.cast_neg, Int.cast_one, neg_one_mul] at hvalue
    exact absurd hpos (not_lt.mpr (neg_nonneg.mp hvalue))

private theorem nonneg_zero (s : Sign) : Nonneg (.zero s) := by
  rintro _ ⟨⟩
  exact le_rfl

private theorem nonneg_infinity : Nonneg (.infinity .positive) := by
  rintro _ ⟨⟩
  exact le_top

private theorem nonneg_finite (m : ℕ) (e : ℤ) (hm : 0 < m) : Nonneg (.finite .positive m e hm) := by
  rintro _ ⟨⟩
  refine ofRational_le.mpr ?_
  rw [Sign.apply]
  positivity

private theorem nonneg_notANumber : Nonneg .notANumber := by
  rintro _ ⟨⟩

private theorem nonneg_unpack {b : BitVec Format.binary64.numBits}
    (hb : unpackSign b = Sign.positive.toBitVec) : Nonneg (UnpackedFloat.unpack Format.binary64 b) := by
  unfold UnpackedFloat.unpack
  simp only [hb, Sign.ofBitVec_toBitVec]
  split_ifs
  · exact nonneg_infinity
  · exact nonneg_notANumber
  · exact nonneg_zero _
  · exact nonneg_finite _ _ _
  · exact nonneg_finite _ _ _

/-- Packing loses digits, but not the sign. -/
private theorem nonneg_pack {u : UnpackedFloat} (hu : Nonneg u) :
    Nonneg (Float.Model.unpack (.pack u)) := by
  change Nonneg (UnpackedFloat.unpack Format.binary64 (UnpackedFloat.pack Format.binary64 u))
  cases u with
  | notANumber => exact hu
  | zero s => cases s <;> exact hu
  | infinity s =>
    obtain rfl := hu.sign_infinity
    exact hu
  | finite s m e hm =>
    obtain rfl := hu.sign_finite
    refine nonneg_unpack ?_
    unfold UnpackedFloat.pack packedInfinity
    dsimp only
    split_ifs <;> rw [unpackSign_packComponents]

private theorem nonneg_roundWithAccuracy (m : ℕ) (e : ℤ) (a : Accuracy) :
    Nonneg (roundWithAccuracy Format.binary64 .positive m e a) := by
  unfold roundWithAccuracy
  dsimp only
  split_ifs
  · exact nonneg_zero _
  · exact nonneg_finite _ _ _

private theorem Nonneg.div {u v : UnpackedFloat} (hu : Nonneg u) (hv : Nonneg v) (hz : ∀ s, v ≠ .zero s) :
    Nonneg (UnpackedFloat.div Format.binary64 u v) := by
  cases v with
  | notANumber => cases u <;> exact nonneg_notANumber
  | zero s => exact absurd rfl (hz s)
  | infinity r =>
    cases u with
    | notANumber => exact nonneg_notANumber
    | infinity s => exact nonneg_notANumber
    | _ => exact nonneg_zero _
  | finite r n f hn =>
    obtain rfl := hv.sign_finite
    cases u with
    | notANumber => exact nonneg_notANumber
    | zero s => exact nonneg_zero _
    | infinity s =>
      obtain rfl := hu.sign_infinity
      exact nonneg_infinity
    | finite s m e hm =>
      obtain rfl := hu.sign_finite
      exact nonneg_roundWithAccuracy _ _ _

section

variable {x y : Float}

private theorem point_zero : point? 0 = some (ofRational 0) := by rfl

private theorem nonneg_of_le (hx : 0 ≤ x) : Nonneg x.toModel.unpack := by
  obtain ⟨a, ha, b, hb, hab⟩ := le_iff_point.mp hx
  cases point_zero.symm.trans ha
  intro c hc
  cases Option.mem_unique hb hc
  exact hab

private theorem unpack_ne_zero (hx : 0 < x) (s : Sign) : x.toModel.unpack ≠ .zero s := by
  intro hu
  obtain ⟨a, ha, b, hb, hab⟩ := lt_iff_point.mp hx
  cases point_zero.symm.trans ha
  rw [point?, hu] at hb
  cases hb
  exact hab.false

private theorem nonneg_div (hx : 0 ≤ x) (hy : 0 < y) : Nonneg (x / y).toModel.unpack :=
  nonneg_pack ((nonneg_of_le hx).div (nonneg_of_le (Double.le_of_lt hy)) (unpack_ne_zero hy))

/-- The quotient of a number that is not below zero and a positive one is not below zero. -/
theorem rational_div_nonneg (hx : 0 ≤ x) (hy : 0 < y) : 0 ≤ rational (x / y) := by
  rw [rational]
  cases hq : rational? (x / y) with
  | none => exact le_rfl
  | some q => exact ofRational_le.mp (nonneg_div hx hy _ (rational?_eq_some.mp hq))

theorem div_nonneg_of_number (hx : 0 ≤ x) (hy : 0 < y) (hn : ¬ (x / y).isNaN) : 0 ≤ x / y := by
  obtain ⟨a, ha⟩ := Double.exists_point hn
  exact le_iff_point.mpr ⟨_, point_zero, a, ha, nonneg_div hx hy a ha⟩

private theorem unpack_div (x y : Float) : (x / y).toModel.unpack =
    Float.Model.unpack (.pack (UnpackedFloat.div Format.binary64 x.toModel.unpack y.toModel.unpack)) := rfl

private theorem rational_eq_zero (h : x.toModel.unpack = .notANumber ∨ ∃ s, x.toModel.unpack = .zero s) :
    rational x = 0 := by
  rw [rational, rational?]
  rcases h with h | ⟨s, h⟩ <;> rw [h] <;> rfl

/-- Zero divided by a number is zero or no number. -/
theorem rational_zero_div (x : Float) : rational (0 / x) = 0 := by
  have hzero : (0 : Float).toModel.unpack = .zero .positive := by rfl
  refine rational_eq_zero ?_
  rw [unpack_div, hzero]
  cases x.toModel.unpack with
  | notANumber => exact .inl rfl
  | zero s => cases s <;> exact .inl rfl
  | infinity s => cases s <;> exact .inr ⟨_, rfl⟩
  | finite s m e hm =>
    simp only [UnpackedFloat.div]
    cases s <;> exact .inr ⟨_, rfl⟩

/-- What is divided by infinity is nothing. -/
theorem rational_div_top (x : Float) (hy : point? y = some ⊤) : rational (x / y) = 0 := by
  refine rational_eq_zero ?_
  rw [unpack_div, unpack_of_top hy]
  cases x.toModel.unpack with
  | notANumber => exact .inl rfl
  | infinity s => exact .inl (by simp only [UnpackedFloat.div]; rfl)
  | zero s => cases s <;> exact .inr ⟨_, rfl⟩
  | finite s m e hm =>
    simp only [UnpackedFloat.div]
    cases s <;> exact .inr ⟨_, rfl⟩

/-- Nothing times infinity is no number. -/
theorem isNaN_zero_mul_top (hy : point? y = some ⊤) : (Float.ofInt 0 * y).isNaN := by
  have hzero : (Float.ofInt 0).toModel.unpack = .zero .positive := by rfl
  change (Float.Model.unpack (.pack (UnpackedFloat.mul Format.binary64
    (Float.ofInt 0).toModel.unpack y.toModel.unpack))).isNaN = true
  rw [hzero, unpack_of_top hy]
  rfl

private theorem clamped_nonneg {q : ℚ} (hq : 0 ≤ q) : ofRational 0 ≤ clamped q := by
  rw [← clamped_of_abs_lt (q := 0) (by rw [abs_zero]; exact range_pos)]
  exact clamped_mono hq

theorem exists_rational_of_pos (hx : 0 < x) (htop : point? x ≠ some ⊤) :
    ∃ q, point? x = some (ofRational q) ∧ 0 < q := by
  obtain ⟨a, ha, b, hb, hab⟩ := lt_iff_point.mp hx
  cases point_zero.symm.trans ha
  rcases line_cases b with rfl | rfl | ⟨q, rfl⟩
  · exact absurd hab not_lt_bot
  · exact absurd hb htop
  · exact ⟨q, hb, ofRational_lt.mp hab⟩

private theorem point_top_mul (hy : point? y = some ⊤) (hx : 0 < x) (htop : point? x ≠ some ⊤) :
    point? (y * x) = some ⊤ := by
  obtain ⟨q, hq, -⟩ := exists_rational_of_pos hx htop
  have hsign := nonneg_of_le (Double.le_of_lt hx)
  have hfinite := isFinite_toModel hq
  have hne := unpack_ne_zero hx
  change unpackedPoint? (Float.Model.unpack (.pack (UnpackedFloat.mul Format.binary64
    y.toModel.unpack x.toModel.unpack))) = some ⊤
  rw [unpack_of_top hy]
  generalize x.toModel.unpack = u at hsign hfinite hne
  cases u with
  | notANumber => exact hfinite.elim
  | infinity s => exact hfinite.elim
  | zero s => exact absurd rfl (hne s)
  | finite s m e hm =>
    obtain rfl := hsign.sign_finite
    simp only [UnpackedFloat.mul]
    rfl

/-- A count of units of finite length takes no less than no time. -/
theorem ofInt_mul_nonneg {n : ℤ} (hn : 0 ≤ n) (hx : 0 < x) (htop : point? x ≠ some ⊤) :
    0 ≤ Float.ofInt n * x := by
  obtain ⟨q, hq, hpos⟩ := exists_rational_of_pos hx htop
  have hr : 0 ≤ roundedSigned n := by
    have := roundedSigned_mono (x := 0) (y := n) (by exact_mod_cast hn)
    simpa [roundedSigned] using this
  have hcount := point?_ofInt n
  rw [clamped] at hcount
  split_ifs at hcount with hge hle
  · exact le_iff_point.mpr ⟨_, point_zero, ⊤, point_top_mul hcount hx htop, le_top⟩
  · exact absurd hr (not_le.mpr (hle.trans_lt (neg_lt_zero.mpr range_pos)))
  · refine le_iff_point.mpr ⟨_, point_zero, _, point?_mul_of_finite hcount hq, clamped_nonneg ?_⟩
    have hprod : roundedSigned 0 ≤ roundedSigned (roundedSigned n * q) :=
      roundedSigned_mono (mul_nonneg hr hpos.le)
    simpa [roundedSigned] using hprod

end

/-! ## What is no number stays none -/

section

variable {x : Float}

theorem unpack_of_isNaN (h : x.isNaN) : x.toModel.unpack = .notANumber := by
  change x.toModel.unpack.isNaN = true at h
  generalize x.toModel.unpack = u at h
  cases u <;> first | rfl | cases h

theorem isNaN_sub (y : Float) (h : x.isNaN) : (x - y).isNaN := by
  have hsub : UnpackedFloat.sub Format.binary64 x.toModel.unpack y.toModel.unpack = .notANumber := by
    rw [unpack_of_isNaN h]
    cases y.toModel.unpack <;> simp [UnpackedFloat.sub]
  change (Float.Model.unpack (.pack (UnpackedFloat.sub Format.binary64
    x.toModel.unpack y.toModel.unpack))).isNaN = true
  rw [hsub]
  rfl

theorem isNaN_div (y : Float) (h : x.isNaN) : (x / y).isNaN := by
  have hdiv : UnpackedFloat.div Format.binary64 x.toModel.unpack y.toModel.unpack = .notANumber := by
    rw [unpack_of_isNaN h]
    cases y.toModel.unpack <;> simp [UnpackedFloat.div]
  change (Float.Model.unpack (.pack (UnpackedFloat.div Format.binary64
    x.toModel.unpack y.toModel.unpack))).isNaN = true
  rw [hdiv]
  rfl

theorem not_isFinite_of_isNaN (h : x.isNaN) : x.isFinite = false := by
  change x.toModel.unpack.isFinite = false
  rw [unpack_of_isNaN h]
  rfl

end

end ShotTiming.Number
