import Mathlib.Data.List.Perm.Basic
import ShotTiming.Sorted

/-!
# Sorting and searching are right

Sorting permutes a list into ascending order as soon as its members are ordered weakly, whatever the
order does elsewhere, and leaves what is level as it was. Halving finds where a condition that holds on a first part ends.
-/
namespace ShotTiming.Sorted

variable {α : Type} {isBefore : α → α → Bool}

/-- What sorting needs to know about its members: no two come before each other, and being level or
later carries over. -/
structure WeakOrder (isBefore : α → α → Bool) (s : α → Prop) : Prop where
  asymm : ∀ a b, s a → s b → isBefore a b → ¬ isBefore b a
  trans : ∀ a b c, s a → s b → s c → ¬ isBefore b a → ¬ isBefore c b → ¬ isBefore c a

/-- No member comes before one that stands in front of it. -/
def Ascending (isBefore : α → α → Bool) (xs : List α) : Prop := xs.Pairwise fun a b => ¬ isBefore b a

theorem insertDescending_perm (x : α) (xs : List α) : (insertDescending isBefore x xs).Perm (x :: xs) := by
  induction xs with
  | nil => rfl
  | cons y ys ih =>
    unfold insertDescending
    split
    · exact (ih.cons y).trans (List.Perm.swap x y ys)
    · rfl

private theorem foldl_perm (xs acc : List α) :
    (xs.foldl (fun sorted x => insertDescending isBefore x sorted) acc).Perm (xs ++ acc) := by
  induction xs generalizing acc with
  | nil => rfl
  | cons x xs ih =>
    refine (ih _).trans ?_
    exact ((insertDescending_perm x acc).append_left xs).trans List.perm_middle

theorem sort_perm (xs : List α) : (sort isBefore xs).Perm xs :=
  (List.reverse_perm _).trans (by simpa using foldl_perm xs [])

@[simp] theorem mem_sort {xs : List α} {a : α} : a ∈ sort isBefore xs ↔ a ∈ xs := (sort_perm xs).mem_iff

/-- What stands in front comes before or is level, and of what is level it was in front already. -/
def Stable (isBefore : α → α → Bool) (R : α → α → Prop) (a b : α) : Prop :=
  ¬ isBefore b a ∧ (isBefore a b ∨ R a b)

private theorem insertDescending_pairwise {s : α → Prop} {R : α → α → Prop} (h : WeakOrder isBefore s)
    {x : α} {xs : List α} (hx : s x) (hxs : ∀ y ∈ xs, s y) (hR : ∀ y ∈ xs, R y x)
    (hp : xs.Pairwise fun a b => Stable isBefore R b a) :
    (insertDescending isBefore x xs).Pairwise fun a b => Stable isBefore R b a := by
  induction xs with
  | nil => simp [insertDescending]
  | cons y ys ih =>
    obtain ⟨hy, hys⟩ := List.pairwise_cons.mp hp
    have hsy := hxs y (by simp)
    unfold insertDescending
    split
    · rename_i hb
      refine List.pairwise_cons.mpr
        ⟨?_, ih (fun z hz => hxs z (by simp [hz])) (fun z hz => hR z (by simp [hz])) hys⟩
      intro z hz
      rcases List.mem_cons.mp ((insertDescending_perm x ys).mem_iff.mp hz) with rfl | hz
      · exact ⟨h.asymm _ _ hx hsy hb, .inl hb⟩
      · exact hy z hz
    · rename_i hb
      refine List.pairwise_cons.mpr ⟨fun z hz => ⟨?_, .inr (hR z hz)⟩, hp⟩
      rcases List.mem_cons.mp hz with rfl | hz'
      · exact hb
      · exact h.trans z y x (hxs z hz) hsy hx (hy z hz').1 hb

private theorem foldl_pairwise {s : α → Prop} {R : α → α → Prop} (h : WeakOrder isBefore s)
    (xs acc : List α) (hxs : ∀ y ∈ xs, s y) (hacc : ∀ y ∈ acc, s y) (hR : xs.Pairwise R)
    (hlater : ∀ y ∈ acc, ∀ x ∈ xs, R y x) (hp : acc.Pairwise fun a b => Stable isBefore R b a) :
    (xs.foldl (fun sorted x => insertDescending isBefore x sorted) acc).Pairwise
      fun a b => Stable isBefore R b a := by
  induction xs generalizing acc with
  | nil => exact hp
  | cons x xs ih =>
    obtain ⟨hRx, hRxs⟩ := List.pairwise_cons.mp hR
    have hx := hxs x (by simp)
    have hmem : ∀ y ∈ insertDescending isBefore x acc, y = x ∨ y ∈ acc := fun y hy =>
      List.mem_cons.mp ((insertDescending_perm x acc).mem_iff.mp hy)
    have hins := insertDescending_pairwise h hx hacc (fun y hy => hlater y hy x (by simp)) hp
    refine ih _ (fun y hy => hxs y (by simp [hy])) (fun y hy => ?_) hRxs (fun y hy z hz => ?_) hins
    · rcases hmem y hy with rfl | hy
      · exact hx
      · exact hacc y hy
    · rcases hmem y hy with rfl | hy
      · exact hRx z hz
      · exact hlater y hy z (by simp [hz])

/-- Sorting a weakly ordered list keeps the order of what is level. -/
theorem stable_sort {s : α → Prop} {R : α → α → Prop} (h : WeakOrder isBefore s) {xs : List α}
    (hxs : ∀ y ∈ xs, s y) (hR : xs.Pairwise R) :
    (sort isBefore xs).Pairwise (Stable isBefore R) := by
  unfold sort
  rw [List.pairwise_reverse]
  exact foldl_pairwise h xs [] hxs (by simp) hR (by simp) .nil

/-- A weakly ordered list is sorted into ascending order. -/
theorem ascending_sort {s : α → Prop} (h : WeakOrder isBefore s) {xs : List α}
    (hxs : ∀ y ∈ xs, s y) : Ascending isBefore (sort isBefore xs) :=
  (stable_sort (R := fun _ _ => True) h hxs (by simp [List.pairwise_iff_getElem])).imp And.left

/-! ## Searching -/

/-- The condition holds on a first part only. -/
def Initial (holds : α → Bool) (xs : Array α) : Prop :=
  ∀ i j (hi : i < xs.size) (hj : j < xs.size), i ≤ j → holds xs[j] → holds xs[i]

section

variable {holds : α → Bool} {xs : Array α} {first length : Nat}

private theorem search_of_holds (half : Nat) (hl : length ≠ 0) (hd : half = length / 2)
    (h : xs[first + half]?.any holds) :
    search holds xs first length = search holds xs (first + half + 1) (length - half - 1) := by
  subst hd
  rw [search, if_neg hl]
  exact if_pos h

private theorem search_of_fails (half : Nat) (hl : length ≠ 0) (hd : half = length / 2)
    (h : ¬ xs[first + half]?.any holds) :
    search holds xs first length = search holds xs first half := by
  subst hd
  rw [search, if_neg hl]
  exact if_neg h

/-- A search ends in its range, whatever the condition. -/
private theorem search_bounds (holds : α → Bool) (xs : Array α) (first length : Nat) :
    first ≤ search holds xs first length ∧ search holds xs first length ≤ first + length := by
  induction first, length using search.induct holds xs with
  | case1 first =>
    rw [search, if_pos rfl]
    exact ⟨Nat.le_refl _, Nat.le_refl _⟩
  | case2 first length hlen half hhalf ih =>
    rw [search_of_holds half hlen rfl hhalf]
    omega
  | case3 first length hlen half hhalf ih =>
    rw [search_of_fails half hlen rfl hhalf]
    omega

private theorem search_spec (h : Initial holds xs) (hl : first + length ≤ xs.size) :
    ∀ i (hi : i < xs.size), first ≤ i → i < first + length →
      (holds xs[i] ↔ i < search holds xs first length) := by
  induction first, length using search.induct holds xs with
  | case1 first => exact fun i hi h₁ h₂ => absurd h₂ (by omega)
  | case2 first length hlen half hhalf ih =>
    have hm : first + half < xs.size := by omega
    have hh : holds xs[first + half] := by simpa [hm] using hhalf
    have hbounds := search_bounds holds xs (first + half + 1) (length - half - 1)
    rw [search_of_holds half hlen rfl hhalf]
    intro i hi hge hlt
    by_cases hi' : first + half + 1 ≤ i
    · exact ih (by omega) i hi hi' (by omega)
    · exact iff_of_true (h i _ hi hm (by omega) hh) (by omega)
  | case3 first length hlen half hhalf ih =>
    have hm : first + half < xs.size := by omega
    have hh : ¬ holds xs[first + half] := by simpa [hm] using hhalf
    have hbounds := search_bounds holds xs first half
    rw [search_of_fails half hlen rfl hhalf]
    intro i hi hge hlt
    by_cases hi' : i < first + half
    · exact ih (by omega) i hi hge hi'
    · exact iff_of_false (fun hc => hh (h _ i hm hi (by omega) hc)) (by omega)

/-- The condition holds exactly in front of the split. -/
theorem holds_iff_lt_split (h : Initial holds xs) {i : Nat} (hi : i < xs.size) :
    holds xs[i] ↔ i < split holds xs :=
  search_spec h (by omega) i hi (by omega) (by omega)

theorem split_le_size (holds : α → Bool) (xs : Array α) : split holds xs ≤ xs.size := by
  have hbound := (search_bounds holds xs 0 xs.size).2
  rwa [Nat.zero_add] at hbound

/-- A condition that holds for more leads further, also among members that are in no order. -/
private theorem search_mono {more : α → Bool} (h : ∀ a, holds a → more a) :
    search holds xs first length ≤ search more xs first length := by
  induction first, length using search.induct holds xs with
  | case1 first => simp [search]
  | case2 first length hlen half hhalf ih =>
    have hmore : xs[first + half]?.any more := by
      obtain ⟨a, ha, hp⟩ := (Option.any_eq_true _ _).mp hhalf
      exact (Option.any_eq_true _ _).mpr ⟨a, ha, h a hp⟩
    rw [search_of_holds half hlen rfl hhalf, search_of_holds half hlen rfl hmore]
    exact ih
  | case3 first length hlen half hhalf ih =>
    rw [search_of_fails half hlen rfl hhalf]
    by_cases hmore : xs[first + half]?.any more
    · have hleft := (search_bounds holds xs first half).2
      have hright := (search_bounds more xs (first + half + 1) (length - half - 1)).1
      rw [search_of_holds half hlen rfl hmore]
      omega
    · rw [search_of_fails half hlen rfl hmore]
      exact ih

theorem split_mono {more : α → Bool} (h : ∀ a, holds a → more a) : split holds xs ≤ split more xs :=
  search_mono h

end

/-- The split is the number of members that satisfy the condition. -/
theorem split_eq_countP {holds : α → Bool} {xs : Array α} (h : Initial holds xs) :
    split holds xs = xs.toList.countP holds := by
  have hle := split_le_size holds xs
  generalize hk : split holds xs = k at hle
  have hfront : (xs.toList.take k).countP holds = k := by
    have hall : ∀ a ∈ xs.toList.take k, holds a := by
      intro a ha
      obtain ⟨i, hi, rfl⟩ := List.mem_iff_getElem.mp ha
      have hlt : i < k ∧ i < xs.size := by simpa [Nat.lt_min] using hi
      rw [List.getElem_take, Array.getElem_toList]
      exact (holds_iff_lt_split h hlt.2).mpr (hk ▸ hlt.1)
    rw [List.countP_eq_length.mpr hall, List.length_take, Array.length_toList, Nat.min_eq_left hle]
  have hback : (xs.toList.drop k).countP holds = 0 := by
    refine List.countP_eq_zero.mpr fun a ha => ?_
    obtain ⟨i, hi, rfl⟩ := List.mem_iff_getElem.mp ha
    have hlt : i < xs.size - k := by simpa using hi
    rw [List.getElem_drop, Array.getElem_toList, holds_iff_lt_split h (by omega)]
    omega
  rw [← List.take_append_drop k xs.toList, List.countP_append, hfront, hback, Nat.add_zero]

end ShotTiming.Sorted
