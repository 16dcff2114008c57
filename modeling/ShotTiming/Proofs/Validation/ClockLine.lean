import Mathlib.Data.List.Pairwise
import ShotTiming.Proofs.Sorted
import ShotTiming.Validation.ClockLine

/-! # The tick check of a clock line against its definition

Sorted pulses only have to be compared with their neighbours, and the pulses of a line are far enough
apart exactly if no neighbours are too close.
-/
namespace ShotTiming.Pulse
open Sorted

variable {period : Int} {a b : Pulse} {ps : List Pulse}

/-- Two pulses of a segment at different ticks leave a period between them. -/
def Apart (period : Int) (a b : Pulse) : Prop :=
  a.segment = b.segment → a.tick < b.tick → a.tick + period ≤ b.tick

theorem isBefore_iff : isBefore a b ↔
    a.segment < b.segment ∨ (a.segment = b.segment ∧
      (a.tick < b.tick ∨ (a.tick = b.tick ∧ a.entry.id < b.entry.id))) := by
  simp [isBefore]

theorem weakOrder_isBefore : WeakOrder isBefore fun _ : Pulse => True where
  asymm a b _ _ h := by
    rw [isBefore_iff] at *
    omega
  trans a b c _ _ _ h h' := by
    rw [isBefore_iff] at *
    omega

theorem tooClose_iff (h : ¬ isBefore b a) : tooClose period a b ↔ ¬ Apart period a b := by
  rw [isBefore_iff] at h
  simp only [tooClose, Apart, Bool.and_eq_true, beq_iff_eq, bne_iff_ne, decide_eq_true_eq]
  omega

theorem closeNeighbours_cons :
    closeNeighbours period (a :: b :: ps) =
      (if tooClose period a b then [(a, b)] else []) ++ closeNeighbours period (b :: ps) := by
  simp only [closeNeighbours, List.tail_cons, List.zip_cons_cons, List.filter_cons]
  split <;> rfl

/-- A pulse between two others that is apart from both keeps them apart. -/
theorem apart_trans {c : Pulse} (hba : ¬ isBefore b a) (hcb : ¬ isBefore c b)
    (hab : Apart period a b) (hbc : Apart period b c) : Apart period a c := by
  rw [isBefore_iff] at hba hcb
  intro hseg hlt
  have hsb : a.segment = b.segment := by omega
  by_cases ht : a.tick < b.tick
  · have := hab hsb ht
    omega
  · have := hbc (hsb.symm.trans hseg) (by omega)
    omega

/-- In order, pulses are apart as soon as neighbours are. -/
theorem closeNeighbours_eq_nil (h : Ascending isBefore ps) :
    closeNeighbours period ps = [] ↔ ps.Pairwise (Apart period) := by
  induction ps with
  | nil => simp [closeNeighbours]
  | cons a ps ih =>
    cases ps with
    | nil => simp [closeNeighbours]
    | cons b ps =>
      obtain ⟨ha, hrest⟩ := List.pairwise_cons.mp h
      have hab : tooClose period a b ↔ _ := tooClose_iff (ha b (by simp))
      have hnil : (if tooClose period a b then [(a, b)] else []) = [] ↔ Apart period a b := by
        by_cases ht : tooClose period a b
        · simp [ht, hab.mp ht]
        · simpa [ht] using Classical.not_not.mp (mt hab.mpr ht)
      rw [closeNeighbours_cons, List.append_eq_nil_iff, hnil, ih hrest]
      constructor
      · rintro ⟨hb, hpair⟩
        refine List.pairwise_cons.mpr ⟨fun c hc => ?_, hpair⟩
        rcases List.mem_cons.mp hc with rfl | hc
        · exact hb
        · exact apart_trans (ha b (by simp)) ((List.pairwise_cons.mp hrest).1 c hc) hb
            ((List.pairwise_cons.mp hpair).1 c hc)
      · intro hpair
        obtain ⟨hall, hpair⟩ := List.pairwise_cons.mp hpair
        exact ⟨hall b (by simp), hpair⟩

/-- Whether pulses are apart does not depend on their order. -/
theorem pairwise_apart_iff (h : Ascending isBefore ps) :
    ps.Pairwise (Apart period) ↔ ∀ a ∈ ps, ∀ b ∈ ps, Apart period a b := by
  constructor
  · intro hp a ha b hb
    have hboth : ps.Pairwise fun x y => Apart period x y ∧ Apart period y x := by
      refine (h.and hp).imp fun {x y} hxy => ⟨hxy.2, fun hs hlt => ?_⟩
      have := hxy.1
      rw [isBefore_iff] at this
      omega
    by_cases he : a = b
    · subst he
      exact fun _ hlt => absurd hlt (Int.lt_irrefl _)
    · have hsymm : Std.Symm fun x y : Pulse => Apart period x y ∧ Apart period y x :=
        ⟨fun _ _ => And.symm⟩
      exact (hboth.forall ha hb he).1
  · exact fun hall => List.pairwise_of_forall_mem_list hall

/-- The findings on the pulses of some instructions are void exactly if no ramp is sampled within a
period and all pulses at starts and ends are apart. -/
theorem findings_eq_nil {line : Nat} {es : List Entry} :
    findings line period es = [] ↔
      (∀ e ∈ es, ¬ e.timing.isSampledWithin period) ∧
        ∀ a ∈ es.flatMap ofEntry, ∀ b ∈ es.flatMap ofEntry, Apart period a b := by
  have hsort : Ascending isBefore (sort isBefore (es.flatMap ofEntry)) :=
    ascending_sort weakOrder_isBefore fun _ _ => trivial
  rw [findings, List.append_eq_nil_iff, List.map_eq_nil_iff, List.filter_eq_nil_iff]
  refine and_congr_right fun _ => ?_
  split
  · refine iff_of_true rfl fun a _ b _ _ hlt => ?_
    omega
  · rw [List.map_eq_nil_iff, closeNeighbours_eq_nil hsort, pairwise_apart_iff hsort]
    simp only [mem_sort]

end ShotTiming.Pulse
