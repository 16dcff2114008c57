import Mathlib
import ShotTiming.Number.Exact

/-!
# The order of doubles

A double that is not NaN is a point of the rational line with two ends, and the comparisons of
doubles are those of the line. What is unpacked from a double is in its one canonical form: the
mantissa has its full width unless the exponent is the least one.
-/
namespace ShotTiming.Number
open Float.Model Float.Model.UnpackedFloat

/-- The rational line with an end on either side. -/
abbrev Line := WithBot (WithTop ℚ)

def ofRational (q : ℚ) : Line := ((q : WithTop ℚ) : Line)

@[simp] theorem ofRational_lt {p q : ℚ} : ofRational p < ofRational q ↔ p < q := by
  simp [ofRational]

@[simp] theorem ofRational_le {p q : ℚ} : ofRational p ≤ ofRational q ↔ p ≤ q := by
  simp [ofRational]

@[simp] theorem ofRational_inj {p q : ℚ} : ofRational p = ofRational q ↔ p = q := by
  simp [ofRational]

theorem bot_lt_ofRational (q : ℚ) : (⊥ : Line) < ofRational q := WithBot.bot_lt_coe _

theorem ofRational_lt_top (q : ℚ) : ofRational q < (⊤ : Line) :=
  WithBot.coe_lt_coe.mpr (WithTop.coe_lt_top q)

def unpackedPoint? : UnpackedFloat → Option Line
  | .infinity .positive => some ⊤
  | .infinity .negative => some ⊥
  | .notANumber => none
  | .zero _ => some (ofRational 0)
  | .finite s m e _ => some (ofRational ((s.apply m : ℤ) * (2 : ℚ) ^ e))

/-- The place of a double on the line; NaN has none. -/
def point? (x : Float) : Option Line := unpackedPoint? x.toModel.unpack

/-- The only form that unpacking gives to the magnitude of a finite double. -/
structure Canonical (m : ℕ) (e : ℤ) : Prop where
  mantissa_lt : m < 2 ^ 53
  exponent_ge : -1074 ≤ e
  full : 2 ^ 52 ≤ m ∨ e = -1074

theorem Canonical.lt_of_exponent_lt {m n : ℕ} {e f : ℤ} (hm : Canonical m e) (hn : Canonical n f)
    (h : e < f) : (m : ℚ) * 2 ^ e < n * 2 ^ f := by
  have hn' : (2 : ℚ) ^ (52 : ℕ) ≤ n := by
    have := hn.full.resolve_right (by have := hm.exponent_ge; omega)
    exact_mod_cast this
  have hm' : (m : ℚ) < 2 ^ (53 : ℕ) := by exact_mod_cast hm.mantissa_lt
  have hp : (2 : ℚ) ^ (e + 1) ≤ 2 ^ f := zpow_le_zpow_right₀ (by norm_num) (by omega)
  calc (m : ℚ) * 2 ^ e < 2 ^ (53 : ℕ) * 2 ^ e := by gcongr
    _ = 2 ^ (52 : ℕ) * 2 ^ (e + 1) := by rw [zpow_add₀ (by norm_num)]; ring
    _ ≤ n * 2 ^ f := by gcongr

/-- Canonical magnitudes compare by exponent, then by mantissa. -/
theorem Canonical.lt_iff {m n : ℕ} {e f : ℤ} (hm : Canonical m e) (hn : Canonical n f) :
    (m : ℚ) * 2 ^ e < n * 2 ^ f ↔ e < f ∨ e = f ∧ m < n := by
  rcases lt_trichotomy e f with h | rfl | h
  · simp [h, hm.lt_of_exponent_lt hn h]
  · have : (0 : ℚ) < 2 ^ e := by positivity
    simp [this]
  · have hlt := hn.lt_of_exponent_lt hm h
    simp only [not_lt.mpr hlt.le, false_iff]
    omega

/-- Finite values in canonical form; the other values have only one form. -/
def IsCanonical : UnpackedFloat → Prop
  | .finite _ m e _ => Canonical m e
  | _ => True

theorem isCanonical_unpack (b : BitVec Format.binary64.numBits) :
    IsCanonical (UnpackedFloat.unpack Format.binary64 b) := by
  unfold UnpackedFloat.unpack
  simp only
  split_ifs with h₁ h₂ h₃ h₄
  · trivial
  · trivial
  · trivial
  · have hm := (unpackMantissa b).isLt
    refine ⟨?_, ?_, .inr ?_⟩
    · simp at hm ⊢
      omega
    · simp [h₃, Format.exponentBias]
    · simp [h₃, Format.exponentBias]
  · have hm := (unpackMantissa b).isLt
    have he : 0 < (unpackExponent b).toNat := by
      rw [Nat.pos_iff_ne_zero]
      exact fun h => h₃ (BitVec.eq_of_toNat_eq h)
    have ha : (1#1 ++ unpackMantissa b).toNat = 2 ^ 52 + (unpackMantissa b).toNat := by
      rw [BitVec.toNat_append, ← Nat.shiftLeft_add_eq_or_of_lt hm]
      simp [Nat.shiftLeft_eq]
    refine ⟨?_, ?_, .inl ?_⟩
    · rw [ha]
      simp at hm ⊢
      omega
    · simp [Format.exponentBias]
      omega
    · rw [ha]
      omega

/-- Comparing exponents, then mantissas, compares the magnitudes. -/
theorem Canonical.compare_eq {m n : ℕ} {e f : ℤ} (hm : Canonical m e) (hn : Canonical n f) :
    (compare e f).then (compare m n) = compare ((m : ℚ) * 2 ^ e) (n * 2 ^ f) := by
  rcases lt_trichotomy e f with h | rfl | h
  · rw [compare_lt_iff_lt.mpr h, compare_lt_iff_lt.mpr ((hm.lt_iff hn).mpr (.inl h))]
    rfl
  · rw [compare_eq_iff_eq.mpr rfl, Ordering.eq_then]
    rcases lt_trichotomy m n with h | rfl | h
    · rw [compare_lt_iff_lt.mpr h, compare_lt_iff_lt.mpr ((hm.lt_iff hn).mpr (.inr ⟨rfl, h⟩))]
    · rw [compare_eq_iff_eq.mpr rfl, compare_eq_iff_eq.mpr rfl]
    · rw [compare_gt_iff_gt.mpr h, compare_gt_iff_gt.mpr ((hn.lt_iff hm).mpr (.inr ⟨rfl, h⟩))]
  · rw [compare_gt_iff_gt.mpr h, compare_gt_iff_gt.mpr ((hn.lt_iff hm).mpr (.inl h))]
    rfl

section Compare

variable (p q : ℚ)

private theorem compare_ofRational : compare (ofRational p) (ofRational q) = compare p q := by
  rcases lt_trichotomy p q with h | rfl | h
  · rw [compare_lt_iff_lt.mpr h, compare_lt_iff_lt.mpr (ofRational_lt.mpr h)]
  · rw [compare_eq_iff_eq.mpr rfl, compare_eq_iff_eq.mpr rfl]
  · rw [compare_gt_iff_gt.mpr h, compare_gt_iff_gt.mpr (ofRational_lt.mpr h)]

private theorem compare_bot_ofRational : compare (⊥ : Line) (ofRational q) = .lt :=
  compare_lt_iff_lt.mpr (bot_lt_ofRational q)

private theorem compare_ofRational_bot : compare (ofRational q) (⊥ : Line) = .gt :=
  compare_gt_iff_gt.mpr (bot_lt_ofRational q)

private theorem compare_ofRational_top : compare (ofRational q) (⊤ : Line) = .lt :=
  compare_lt_iff_lt.mpr (ofRational_lt_top q)

private theorem compare_top_ofRational : compare (⊤ : Line) (ofRational q) = .gt :=
  compare_gt_iff_gt.mpr (ofRational_lt_top q)

private theorem compare_bot_top : compare (⊥ : Line) ⊤ = .lt := compare_lt_iff_lt.mpr bot_lt_top

private theorem compare_top_bot : compare (⊤ : Line) ⊥ = .gt := compare_gt_iff_gt.mpr bot_lt_top

private theorem compare_neg : compare (-p) (-q) = (compare p q).swap := by
  rcases lt_trichotomy p q with h | rfl | h
  · rw [compare_lt_iff_lt.mpr h, compare_gt_iff_gt.mpr (neg_lt_neg h)]
    rfl
  · rw [compare_eq_iff_eq.mpr rfl, compare_eq_iff_eq.mpr rfl]
    rfl
  · rw [compare_gt_iff_gt.mpr h, compare_lt_iff_lt.mpr (neg_lt_neg h)]
    rfl

private theorem compare_signs {m n : ℕ} (hm : 0 < m) (hn : 0 < n) (e f : ℤ) :
    compare (-((m : ℚ) * 2 ^ e)) (n * 2 ^ f) = .lt ∧
    compare ((m : ℚ) * 2 ^ e) (-(n * 2 ^ f)) = .gt := by
  have hm' : (0 : ℚ) < m * 2 ^ e := by positivity
  have hn' : (0 : ℚ) < n * 2 ^ f := by positivity
  exact ⟨compare_lt_iff_lt.mpr (by linarith), compare_gt_iff_gt.mpr (by linarith)⟩

private theorem compare_zero {m : ℕ} (hm : 0 < m) (e : ℤ) :
    compare (0 : ℚ) (m * 2 ^ e) = .lt ∧ compare ((m : ℚ) * 2 ^ e) 0 = .gt ∧
    compare (0 : ℚ) (-(m * 2 ^ e)) = .gt ∧ compare (-((m : ℚ) * 2 ^ e)) 0 = .lt := by
  have hm' : (0 : ℚ) < m * 2 ^ e := by positivity
  exact ⟨compare_lt_iff_lt.mpr hm', compare_gt_iff_gt.mpr hm', compare_gt_iff_gt.mpr (by linarith),
    compare_lt_iff_lt.mpr (by linarith)⟩

end Compare

/-- Doubles compare like their places on the line. -/
theorem compare_eq_of_canonical {u v : UnpackedFloat} (hu : IsCanonical u) (hv : IsCanonical v) :
    u.compare v =
      (unpackedPoint? u).bind fun x => (unpackedPoint? v).map fun y => compare x y := by
  cases u with
  | notANumber => rfl
  | infinity s =>
    cases v with
    | notANumber => cases s <;> rfl
    | infinity r =>
      cases s <;> cases r <;>
        simp [UnpackedFloat.compare, unpackedPoint?, compare_bot_top, compare_top_bot]
          <;> rfl
    | zero r =>
      cases s <;> simp [UnpackedFloat.compare, unpackedPoint?, compare_bot_ofRational, compare_top_ofRational]
    | finite r n f h =>
      cases s <;> simp [UnpackedFloat.compare, unpackedPoint?, compare_bot_ofRational, compare_top_ofRational]
  | zero s =>
    cases v with
    | notANumber => rfl
    | infinity r =>
      cases r <;> simp [UnpackedFloat.compare, unpackedPoint?, compare_ofRational_bot, compare_ofRational_top]
    | zero r => simp [UnpackedFloat.compare, unpackedPoint?]
    | finite r n f h =>
      cases r <;> simp [UnpackedFloat.compare, unpackedPoint?, Sign.apply, compare_ofRational,
        compare_zero h f]
  | finite s m e h =>
    cases v with
    | notANumber => rfl
    | infinity r =>
      cases r <;> simp [UnpackedFloat.compare, unpackedPoint?, compare_ofRational_bot, compare_ofRational_top]
    | zero r =>
      cases s <;> simp [UnpackedFloat.compare, unpackedPoint?, Sign.apply, compare_ofRational,
        compare_zero h e]
    | finite r n f h' =>
      have hc := Canonical.compare_eq hu hv
      cases s <;> cases r <;>
        simp [UnpackedFloat.compare, unpackedPoint?, Sign.apply, compare_ofRational, compare_neg,
          compare_signs h h' e f, hc]

theorem isCanonical_unpack_toModel (x : Float) : IsCanonical x.toModel.unpack :=
  isCanonical_unpack _

private theorem compare_point (x y : Float) :
    x.toModel.unpack.compare y.toModel.unpack =
      (point? x).bind fun a => (point? y).map fun b => compare a b :=
  compare_eq_of_canonical (isCanonical_unpack_toModel x) (isCanonical_unpack_toModel y)

/-! ## Comparisons of doubles -/

theorem lt_iff_point {x y : Float} :
    x < y ↔ ∃ a ∈ point? x, ∃ b ∈ point? y, a < b := by
  change decide (_ = true) = true ↔ _
  rw [decide_eq_true_iff]
  change (x.toModel.unpack.compare y.toModel.unpack == some .lt) = true ↔ _
  rw [compare_point]
  cases point? x <;> cases point? y <;> simp [compare_lt_iff_lt]

theorem le_iff_point {x y : Float} :
    x ≤ y ↔ ∃ a ∈ point? x, ∃ b ∈ point? y, a ≤ b := by
  change decide (_ = true) = true ↔ _
  rw [decide_eq_true_iff]
  change ((x.toModel.unpack.compare y.toModel.unpack).any (·.isLE)) = true ↔ _
  rw [compare_point]
  cases point? x <;> cases point? y <;>
    simp [← Ordering.ne_gt_iff_isLE, compare_le_iff_le]

theorem beq_iff_point {x y : Float} :
    (x == y) = true ↔ ∃ a ∈ point? x, a ∈ point? y := by
  change (x.toModel.unpack.compare y.toModel.unpack == some .eq) = true ↔ _
  rw [compare_point]
  cases point? x with
  | none => simp
  | some a =>
    cases point? y with
    | none => simp
    | some b => simpa [compare_eq_iff_eq] using eq_comm

theorem isNaN_iff_point {x : Float} : x.isNaN = true ↔ point? x = none := by
  change x.toModel.unpack.isNaN = true ↔ unpackedPoint? x.toModel.unpack = none
  cases x.toModel.unpack with
  | infinity s => cases s <;> simp [UnpackedFloat.isNaN, unpackedPoint?]
  | _ => simp [UnpackedFloat.isNaN, unpackedPoint?]

namespace Double

variable {x y z : Float}

theorem lt_trans (h : x < y) (h' : y < z) : x < z := by
  rw [lt_iff_point] at *
  obtain ⟨a, ha, b, hb, hab⟩ := h
  obtain ⟨b', hb', c, hc, hbc⟩ := h'
  cases Option.mem_unique hb hb'
  exact ⟨a, ha, c, hc, hab.trans hbc⟩

theorem lt_irrefl (x : Float) : ¬ x < x := by
  rw [lt_iff_point]
  rintro ⟨a, ha, b, hb, h⟩
  cases Option.mem_unique ha hb
  exact h.false

theorem lt_asymm (h : x < y) : ¬ y < x := fun h' => lt_irrefl x (lt_trans h h')

theorem not_le_of_lt (h : x < y) : ¬ y ≤ x := by
  obtain ⟨a, ha, b, hb, hab⟩ := lt_iff_point.mp h
  rw [le_iff_point]
  rintro ⟨b', hb', a', ha', hba⟩
  cases Option.mem_unique ha ha'
  cases Option.mem_unique hb hb'
  exact absurd hab (not_lt.mpr hba)

theorem le_of_lt (h : x < y) : x ≤ y := by
  obtain ⟨a, ha, b, hb, hab⟩ := lt_iff_point.mp h
  exact le_iff_point.mpr ⟨a, ha, b, hb, hab.le⟩

theorem lt_of_le_of_lt (h : x ≤ y) (h' : y < z) : x < z := by
  obtain ⟨a, ha, b, hb, hab⟩ := le_iff_point.mp h
  obtain ⟨b', hb', c, hc, hbc⟩ := lt_iff_point.mp h'
  cases Option.mem_unique hb hb'
  exact lt_iff_point.mpr ⟨a, ha, c, hc, hab.trans_lt hbc⟩

theorem le_trans (h : x ≤ y) (h' : y ≤ z) : x ≤ z := by
  obtain ⟨a, ha, b, hb, hab⟩ := le_iff_point.mp h
  obtain ⟨b', hb', c, hc, hbc⟩ := le_iff_point.mp h'
  cases Option.mem_unique hb hb'
  exact le_iff_point.mpr ⟨a, ha, c, hc, hab.trans hbc⟩

theorem not_isNaN_of_le (h : x ≤ y) : ¬ x.isNaN := by
  obtain ⟨a, ha, -⟩ := le_iff_point.mp h
  rw [isNaN_iff_point]
  exact fun hn => nomatch hn.symm.trans ha

theorem not_isNaN_of_ge (h : x ≤ y) : ¬ y.isNaN := by
  obtain ⟨a, -, b, hb, -⟩ := le_iff_point.mp h
  rw [isNaN_iff_point]
  exact fun hn => nomatch hn.symm.trans hb

theorem le_refl (h : ¬ x.isNaN) : x ≤ x := by
  rw [isNaN_iff_point] at h
  obtain ⟨a, ha⟩ := Option.ne_none_iff_exists'.mp h
  exact le_iff_point.mpr ⟨a, ha, a, ha, le_rfl⟩

theorem not_isNaN_of_lt (h : x < y) : ¬ y.isNaN := not_isNaN_of_ge (le_of_lt h)

theorem exists_point (h : ¬ x.isNaN) : ∃ a, a ∈ point? x := by
  rw [isNaN_iff_point] at h
  exact Option.ne_none_iff_exists'.mp h

theorem not_beq_of_lt (h : x < y) : ¬ (x == y) = true := by
  obtain ⟨a, ha, b, hb, hab⟩ := lt_iff_point.mp h
  rw [beq_iff_point]
  rintro ⟨c, hc, hc'⟩
  cases Option.mem_unique ha hc
  cases Option.mem_unique hb hc'
  exact hab.false

theorem beq_symm (h : (x == y) = true) : (y == x) = true := by
  obtain ⟨a, ha, hb⟩ := beq_iff_point.mp h
  exact beq_iff_point.mpr ⟨a, hb, ha⟩

theorem le_of_beq (h : (x == y) = true) : x ≤ y := by
  obtain ⟨a, ha, hb⟩ := beq_iff_point.mp h
  exact le_iff_point.mpr ⟨a, ha, a, hb, le_rfl⟩

theorem lt_of_beq_of_lt (h : (x == y) = true) (h' : y < z) : x < z := by
  obtain ⟨a, ha, hb⟩ := beq_iff_point.mp h
  obtain ⟨b, hb', c, hc, hbc⟩ := lt_iff_point.mp h'
  cases Option.mem_unique hb hb'
  exact lt_iff_point.mpr ⟨a, ha, c, hc, hbc⟩

/-- Of numbers that are level in neither direction, one comes first. -/
theorem beq_of_not_lt (hx : ¬ x.isNaN) (hy : ¬ y.isNaN) (h : ¬ x < y) (h' : ¬ y < x) :
    (x == y) = true := by
  obtain ⟨a, ha⟩ := exists_point hx
  obtain ⟨b, hb⟩ := exists_point hy
  have hab : ¬ a < b := fun hlt => h (lt_iff_point.mpr ⟨a, ha, b, hb, hlt⟩)
  have hba : ¬ b < a := fun hlt => h' (lt_iff_point.mpr ⟨b, hb, a, ha, hlt⟩)
  have he : a = b := le_antisymm (not_lt.mp hba) (not_lt.mp hab)
  exact beq_iff_point.mpr ⟨a, ha, he ▸ hb⟩

/-- Two numbers can be compared. -/
theorem not_lt_iff (hx : ¬ x.isNaN) (hy : ¬ y.isNaN) : ¬ x < y ↔ y ≤ x := by
  obtain ⟨a, ha⟩ := exists_point hx
  obtain ⟨b, hb⟩ := exists_point hy
  rw [lt_iff_point, le_iff_point]
  constructor
  · intro h
    exact ⟨b, hb, a, ha, not_lt.mp fun hab => h ⟨a, ha, b, hb, hab⟩⟩
  · rintro ⟨b', hb', a', ha', hba⟩ ⟨a'', ha'', b'', hb'', hab⟩
    cases Option.mem_unique ha' ha''
    cases Option.mem_unique hb' hb''
    exact absurd hab (not_lt.mpr hba)

/-- Among numbers, not coming later is transitive. -/
theorem not_lt_trans (hy : ¬ y.isNaN) (h : ¬ y < x) (h' : ¬ z < y) : ¬ z < x := by
  intro hzx
  obtain ⟨c, hc, a, ha, hca⟩ := lt_iff_point.mp hzx
  obtain ⟨b, hb⟩ := exists_point hy
  have hba : ¬ b < a := fun hlt => h (lt_iff_point.mpr ⟨b, hb, a, ha, hlt⟩)
  have hcb : ¬ c < b := fun hlt => h' (lt_iff_point.mpr ⟨c, hc, b, hb, hlt⟩)
  exact absurd hca (not_lt.mpr ((not_lt.mp hba).trans (not_lt.mp hcb)))

end Double

end ShotTiming.Number
