import Mathlib.Data.List.Chain
import ShotTiming.Compile.Timing
import ShotTiming.Proofs.Number.Order
import ShotTiming.Proofs.Shot.Traversal
import ShotTiming.Proofs.Sorted

/-! # The orders of waits and of output instructions

Waits that have a time are sorted into strictly rising times unless two of them have the same one;
the instructions of an output are sorted by segment, tick and creation.
-/
namespace ShotTiming.Shot
open Number Sorted

variable {s : Shot} {a b : Nat}

/-! ## Waits -/

/-- An instruction that is there, at a time that can be compared. -/
def IsTimely (s : Shot) (id : Nat) : Prop := ∃ i, s.instruction? id = some i ∧ ¬ i.time.isNaN

theorem isEarlier_iff {i j : Instruction} (hi : s.instruction? a = some i)
    (hj : s.instruction? b = some j) : s.isEarlier a b ↔ i.time < j.time := by
  simp [isEarlier, hi, hj]

theorem isSimultaneous_iff {i j : Instruction} (hi : s.instruction? a = some i)
    (hj : s.instruction? b = some j) : s.isSimultaneous a b ↔ (i.time == j.time) := by
  simp [isSimultaneous, hi, hj]

theorem weakOrder_isEarlier : WeakOrder s.isEarlier s.IsTimely where
  asymm := by
    rintro a b ⟨i, hi, -⟩ ⟨j, hj, -⟩ h
    rw [isEarlier_iff hi hj] at h
    rw [isEarlier_iff hj hi]
    exact Double.lt_asymm h
  trans := by
    rintro a b c ⟨i, hi, -⟩ ⟨j, hj, hn⟩ ⟨k, hk, -⟩ h h'
    rw [isEarlier_iff hj hi] at h
    rw [isEarlier_iff hk hj] at h'
    rw [isEarlier_iff hk hi]
    exact Double.not_lt_trans hn h h'

theorem not_isEarlier_self : ¬ s.isEarlier a a := by
  cases h : s.instruction? a with
  | none => simp [isEarlier, h]
  | some i =>
    rw [isEarlier_iff h h]
    exact Double.lt_irrefl _

theorem isSimultaneous_symm (h : s.isSimultaneous a b) : s.isSimultaneous b a := by
  cases ha : s.instruction? a <;> cases hb : s.instruction? b <;>
    simp only [isSimultaneous, ha, hb, Bool.false_eq_true] at h
  exact (isSimultaneous_iff hb ha).mpr (Double.beq_symm h)

theorem not_isSimultaneous_of_isEarlier (h : s.isEarlier a b) : ¬ s.isSimultaneous a b := by
  cases ha : s.instruction? a <;> cases hb : s.instruction? b <;>
    simp only [isEarlier, ha, hb, decide_eq_true_eq, Bool.false_eq_true] at h
  rw [isSimultaneous_iff ha hb]
  exact Double.not_beq_of_lt h

/-- What comes after one of two instructions at the same time comes after the other. -/
theorem isEarlier_of_isSimultaneous {c : Nat} (hs : s.isSimultaneous a b) (h : s.isEarlier b c) :
    s.isEarlier a c := by
  cases ha : s.instruction? a <;> cases hb : s.instruction? b <;> cases hc : s.instruction? c <;>
    simp only [isSimultaneous, isEarlier, ha, hb, hc, decide_eq_true_eq, Bool.false_eq_true] at hs h
  exact (isEarlier_iff ha hc).mpr (Double.lt_of_beq_of_lt hs h)

theorem isEarlier_trans {c : Nat} (ha : s.IsTimely a) (hb : s.IsTimely b) (hc : s.IsTimely c)
    (h : s.isEarlier a b) (h' : s.isEarlier b c) : s.isEarlier a c := by
  obtain ⟨i, hi, -⟩ := ha
  obtain ⟨j, hj, -⟩ := hb
  obtain ⟨k, hk, -⟩ := hc
  rw [isEarlier_iff hi hj] at h
  rw [isEarlier_iff hj hk] at h'
  rw [isEarlier_iff hi hk]
  exact Double.lt_trans h h'

/-- Neighbours in ascending order that do not clash rise strictly. -/
private theorem rising_of_firstClash? {ids : List Nat} (ht : ∀ id ∈ ids, s.IsTimely id)
    (hasc : Ascending s.isEarlier ids) (hc : s.firstClash? ids = none) :
    ids.Pairwise fun a b => s.isEarlier a b := by
  induction ids with
  | nil => exact .nil
  | cons a ids ih =>
    cases ids with
    | nil => exact List.pairwise_singleton _ a
    | cons b rest =>
      obtain ⟨hab, hrest⟩ := List.pairwise_cons.mp hasc
      have hclash : ¬ s.isSimultaneous a b ∧ s.firstClash? (b :: rest) = none := by
        simp only [firstClash?] at hc
        split at hc
        · cases hc
        · exact ⟨by assumption, hc⟩
      have hrise := ih (fun id h => ht id (by simp [h])) hrest hclash.2
      have hlt : s.isEarlier a b := by
        obtain ⟨i, hi, hin⟩ := ht a (by simp)
        obtain ⟨j, hj, hjn⟩ := ht b (by simp)
        rw [isEarlier_iff hi hj]
        have hnot := hab b (by simp)
        rw [isEarlier_iff hj hi] at hnot
        by_contra hij
        exact hclash.1 ((isSimultaneous_iff hi hj).mpr (Double.beq_of_not_lt hin hjn hij hnot))
      refine List.pairwise_cons.mpr ⟨fun c hc' => ?_, hrise⟩
      rcases List.mem_cons.mp hc' with rfl | hc'
      · exact hlt
      · exact isEarlier_trans (ht a (by simp)) (ht b (by simp)) (ht c (by simp [hc'])) hlt
          ((List.pairwise_cons.mp hrise).1 c hc')

/-- A clash is between neighbours, and there is none in front of them. -/
theorem firstClash?_eq_some {ids : List Nat} (h : s.firstClash? ids = some (a, b)) :
    ∃ xs ys, ids = xs ++ a :: b :: ys ∧ s.isSimultaneous a b ∧ s.firstClash? (xs ++ [a]) = none := by
  induction ids with
  | nil => cases h
  | cons c ids ih =>
    cases ids with
    | nil => cases h
    | cons d rest =>
      simp only [firstClash?] at h
      split at h
      · cases h
        exact ⟨[], rest, rfl, by assumption, rfl⟩
      · rename_i hcd
        obtain ⟨xs, ys, he, hs, hnone⟩ := ih h
        refine ⟨c :: xs, ys, by rw [he, List.cons_append], hs, ?_⟩
        cases xs with
        | nil =>
          cases he
          simp [firstClash?, hcd]
        | cons x xs =>
          cases he
          simpa [firstClash?, hcd] using hnone

theorem sortedWaits_perm : s.sortedWaits.Perm s.ownInstructions.toList := sort_perm _

/-- The sorted waits rise strictly if none clash. -/
theorem rising_sortedWaits (ht : ∀ id ∈ s.ownInstructions, s.IsTimely id)
    (hc : s.firstClash? s.sortedWaits = none) : s.sortedWaits.Pairwise fun a b => s.isEarlier a b := by
  have ht' : ∀ id ∈ s.ownInstructions.toList, s.IsTimely id := fun id h => ht id (by simpa using h)
  refine rising_of_firstClash? (fun id h => ht' id (mem_sort.mp h)) ?_ hc
  exact ascending_sort weakOrder_isEarlier ht'

/-- Of waits that rise strictly, no two have the same time. -/
theorem not_isSimultaneous_of_rising {ids : List Nat} (h : ids.Pairwise fun a b => s.isEarlier a b)
    (ha : a ∈ ids) (hb : b ∈ ids) (hne : a ≠ b) : ¬ s.isSimultaneous a b := by
  have hsymm : Std.Symm fun x y => s.isEarlier x y ∨ s.isEarlier y x := ⟨fun _ _ => Or.symm⟩
  have hor := (h.imp (S := fun x y => s.isEarlier x y ∨ s.isEarlier y x) .inl).forall ha hb hne
  intro hs
  rcases hor with h | h
  · exact not_isSimultaneous_of_isEarlier h hs
  · exact not_isSimultaneous_of_isEarlier h (isSimultaneous_symm hs)

/-- There is a clash exactly if two different waits have the same time. -/
theorem firstClash?_sortedWaits (ht : ∀ id ∈ s.ownInstructions, s.IsTimely id)
    (hn : s.ownInstructions.toList.Nodup) :
    s.firstClash? s.sortedWaits ≠ none ↔
      ∃ a ∈ s.ownInstructions, ∃ b ∈ s.ownInstructions, a ≠ b ∧ s.isSimultaneous a b := by
  have hmem : ∀ id, id ∈ s.sortedWaits ↔ id ∈ s.ownInstructions := fun id => by
    rw [sortedWaits_perm.mem_iff, Array.mem_toList_iff]
  constructor
  · intro h
    obtain ⟨⟨a, b⟩, hab⟩ := Option.ne_none_iff_exists'.mp h
    obtain ⟨xs, ys, he, hs, -⟩ := firstClash?_eq_some hab
    have hnd : s.sortedWaits.Nodup := sortedWaits_perm.nodup_iff.mpr hn
    refine ⟨a, (hmem a).mp (by simp [he]), b, (hmem b).mp (by simp [he]), fun hab => ?_, hs⟩
    rw [he, List.nodup_append] at hnd
    simpa [hab] using hnd.2.1
  · rintro ⟨a, ha, b, hb, hne, hs⟩ hc
    exact not_isSimultaneous_of_rising (rising_sortedWaits ht hc) ((hmem a).mpr ha) ((hmem b).mpr hb)
      hne hs

/-! ## The first two waits at the same time -/

def IsWait (s : Shot) (id : Nat) : Prop := s.instructionKind? id = some .wait

/-- Two different waits have the same time. -/
structure Twins (s : Shot) (a b : Nat) : Prop where
  left : s.IsWait a
  right : s.IsWait b
  ne : a ≠ b
  same : s.isSimultaneous a b

/-- The two lowest-numbered waits at the smallest time that two waits have. -/
structure FirstTwins (s : Shot) (a b : Nat) : Prop extends Twins s a b where
  lt : a < b
  lowest : ∀ c, s.Twins a c → b ≤ c
  smallest : ∀ c d, s.Twins c d → ¬ s.isEarlier c a

/-- Where the waits are in order, and of the same time in order of creation, the first clash is between
the first twins. -/
theorem firstTwins_of_firstClash? {ids : List Nat} (hids : ∀ id, id ∈ ids ↔ s.IsWait id)
    (ht : ∀ id ∈ ids, s.IsTimely id) (hstable : ids.Pairwise (Stable s.isEarlier (· < ·)))
    (hc : s.firstClash? ids = some (a, b)) : s.FirstTwins a b := by
  obtain ⟨xs, ys, rfl, hsame, hnone⟩ := firstClash?_eq_some hc
  obtain ⟨-, hback, -⟩ := List.pairwise_append.mp hstable
  obtain ⟨ha, hback⟩ := List.pairwise_cons.mp hback
  obtain ⟨hb, -⟩ := List.pairwise_cons.mp hback
  -- The waits up to the first of the two rise strictly.
  have hsub : (xs ++ [a]).Sublist (xs ++ a :: b :: ys) := by simp
  have hrise : (xs ++ [a]).Pairwise fun c d => s.isEarlier c d :=
    rising_of_firstClash? (fun id h => ht id (hsub.subset h)) ((hstable.sublist hsub).imp And.left) hnone
  have hearly : ∀ c ∈ xs, s.isEarlier c a := fun c h =>
    (List.pairwise_append.mp hrise).2.2 c h a (by simp)
  have hlate : ∀ c, c = a ∨ c = b ∨ c ∈ ys → ¬ s.isEarlier c a := by
    rintro c (rfl | hc)
    · exact not_isEarlier_self
    · exact (ha c (List.mem_cons.mpr hc)).1
  have hcases : ∀ {c}, s.IsWait c → c ∈ xs ∨ c = a ∨ c = b ∨ c ∈ ys := fun {c} h => by
    simpa [List.mem_append, List.mem_cons] using (hids c).mpr h
  have hlt : a < b :=
    (ha b (by simp)).2.resolve_left fun he => not_isSimultaneous_of_isEarlier he hsame
  refine ⟨⟨(hids a).mp (by simp), (hids b).mp (by simp), Nat.ne_of_lt hlt, hsame⟩, hlt, ?_, ?_⟩
  · intro c hac
    rcases hcases hac.right with hx | rfl | rfl | hy
    · exact absurd (isSimultaneous_symm hac.same) (not_isSimultaneous_of_isEarlier (hearly c hx))
    · exact absurd rfl hac.ne
    · exact Nat.le_refl _
    · refine Nat.le_of_lt ((hb c hy).2.resolve_left fun he => ?_)
      exact not_isSimultaneous_of_isEarlier (isEarlier_of_isSimultaneous hsame he) hac.same
  · intro c d hcd he
    have hc : c ∈ xs := (hcases hcd.left).resolve_right fun h => hlate c h he
    have hd : d ∈ xs := (hcases hcd.right).resolve_right fun h =>
      hlate d h (isEarlier_of_isSimultaneous (isSimultaneous_symm hcd.same) he)
    exact not_isSimultaneous_of_rising hrise (by simp [hc]) (by simp [hd]) hcd.ne hcd.same

/-! ## Instructions of an output -/

theorem isPlacedBefore_iff {i j : Instruction} (hi : s.instruction? a = some i)
    (hj : s.instruction? b = some j) : s.isPlacedBefore a b ↔
      i.timing.isBefore j.timing ∨ (¬ j.timing.isBefore i.timing ∧ a < b) := by
  simp [isPlacedBefore, hi, hj]

theorem Timing.isBefore_iff {t u : Timing} :
    t.isBefore u ↔ t.segment < u.segment ∨ (t.segment = u.segment ∧ t.ticks < u.ticks) := by
  simp [Timing.isBefore]

theorem weakOrder_isPlacedBefore :
    WeakOrder s.isPlacedBefore fun id => ∃ i, s.instruction? id = some i where
  asymm := by
    rintro a b ⟨i, hi⟩ ⟨j, hj⟩ h
    rw [isPlacedBefore_iff hi hj] at h
    rw [isPlacedBefore_iff hj hi]
    simp only [Timing.isBefore_iff] at h ⊢
    omega
  trans := by
    rintro a b c ⟨i, hi⟩ ⟨j, hj⟩ ⟨k, hk⟩ h h'
    rw [isPlacedBefore_iff hj hi] at h
    rw [isPlacedBefore_iff hk hj] at h'
    rw [isPlacedBefore_iff hk hi]
    simp only [Timing.isBefore_iff] at h h' ⊢
    omega

/-! ## Sorting all outputs -/

theorem isPlacedBefore_sortOutput (id : Nat) : (s.sortOutput id).isPlacedBefore = s.isPlacedBefore := rfl

private theorem foldl_sortOutput {ids : List Nat} (hn : ids.Nodup) (s : Shot) (k : Nat) :
    (ids.foldl sortOutput s).device? k = (s.device? k).map fun d =>
      if k ∈ ids then
        { d with instructions := (Sorted.sort s.isPlacedBefore d.instructions.toList).toArray }
      else d := by
  induction ids generalizing s with
  | nil => simp
  | cons id ids ih =>
    obtain ⟨hid, hnd⟩ := List.nodup_cons.mp hn
    rw [List.foldl_cons, ih hnd, isPlacedBefore_sortOutput, sortOutput, device?_setDevice]
    by_cases hk : k = id
    · subst hk
      simp [hid, Function.comp_def]
    · simp [hk]

/-- Sorting the outputs changes nothing but the order of their instructions. -/
theorem device?_sortOutputs (hs : s.DevicesLinked) (k : Nat) :
    s.sortOutputs.device? k = (s.device? k).map fun d =>
      if d.kind.isOutput then
        { d with instructions := (Sorted.sort s.isPlacedBefore d.instructions.toList).toArray }
      else d := by
  rw [sortOutputs, foldl_sortOutput hs.nodup_outputs]
  cases hd : s.device? k with
  | none => rfl
  | some d =>
    have : k ∈ s.outputs ↔ d.kind.isOutput := by
      rw [hs.mem_outputs, kind?, hd]
      simp
    simp [this]

end ShotTiming.Shot
