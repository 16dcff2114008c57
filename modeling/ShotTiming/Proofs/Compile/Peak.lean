import ShotTiming.Compile.Limits
import ShotTiming.Proofs.Number.Order
import ShotTiming.Proofs.Session.Clocks

/-! # The largest of some values

A device is made with values that are numbers, and of numbers one is the largest. The first device that
has it is its holder, unless the start value is as large.
-/
namespace ShotTiming
open Number

/-- What the values of some equipment are checked for when a device is made. -/
structure Equipment.Usable (e : Equipment) : Prop where
  minimumTrigger : ∀ x, e.minimumTrigger? = some x → 0 ≤ x
  minimumPeriod : ∀ x, e.minimumPeriod? = some x → 0 ≤ x
  source : ∀ c, e.source? = some c → 0 < c.timebase ∧ 0 ≤ c.minimumWait

theorem Equipment.usable_of_check {e : Equipment} {owner : String} (h : e.check owner = .ok ()) :
    e.Usable := by
  have hleast : ∀ {x : Float} {f : UseFault},
      (if 0 ≤ x then Except.ok () else .error f) = .ok () ↔ 0 ≤ x := by
    intro x f
    by_cases hx : 0 ≤ x <;> simp [hx]
  cases e with
  | triggerableDevice m | pseudoclockDevice m =>
    have hm : 0 ≤ m := hleast.mp h
    constructor <;> simp [minimumTrigger?, minimumPeriod?, source?, hm]
  | clockableDevice m p =>
    obtain ⟨⟨⟩, hm, hp⟩ := bind_eq_ok.mp h
    constructor <;> simp [minimumTrigger?, minimumPeriod?, source?, hleast.mp hm, hleast.mp hp]
  | pseudoclock c =>
    have ht : 0 < c.timebase := by
      by_contra hneg
      simp [Equipment.check, hneg, throw, throwThe, MonadExceptOf.throw, bind, Except.bind] at h
    simp only [Equipment.check, ht, decide_true, Bool.not_true, Bool.false_eq_true, if_false] at h
    obtain ⟨⟨⟩, hw, hp⟩ := bind_eq_ok.mp h
    constructor <;> simp [minimumTrigger?, minimumPeriod?, source?, ht, hleast.mp hw, hleast.mp hp]
  | _ => constructor <;> simp [minimumTrigger?, minimumPeriod?, source?]

theorem Shot.Clocked.usable_equipment {s : Shot} (hs : s.Clocked) {id : Nat} {d : Device}
    (hd : s.device? id = some d) : d.equipment.Usable := by
  have hcheck : (s.device? id).map (fun d => d.equipment.check d.name) =
      some (d.equipment.check d.name) := congrArg _ hd
  exact Equipment.usable_of_check (hs.usable hcheck)

namespace Peak

/-- The start value if no device has more, otherwise the largest value and the first device that has
it. -/
inductive Tops (value? : Nat → Option Float) (ids : List Nat) (start : Peak) : Peak → Prop
  | start (h : ∀ id ∈ ids, ∀ x, value? id = some x → x ≤ start.value) : Tops value? ids start start
  | first {before after : List Nat} {id : Nat} {x : Float} (split : ids = before ++ id :: after)
    (has : value? id = some x) (exceeds : start.value < x)
    (before : ∀ k ∈ before, ∀ y, value? k = some y → y < x)
    (after : ∀ k ∈ after, ∀ y, value? k = some y → y ≤ x) : Tops value? ids start ⟨x, some id⟩

variable {value? : Nat → Option Float} {ids : List Nat} {start p : Peak}

/-- A device without a value changes nothing. -/
theorem Tops.skip (h : Tops value? ids start p) {id : Nat} (hx : value? id = none) :
    Tops value? (ids ++ [id]) start p := by
  have hnone : ∀ {ks : List Nat} {P : Float → Prop}, (∀ k ∈ ks, ∀ y, value? k = some y → P y) →
      ∀ k ∈ ks ++ [id], ∀ y, value? k = some y → P y := by
    intro ks P hks k hk y hy
    rcases List.mem_append.mp hk with hk | hk
    · exact hks k hk y hy
    · rw [List.mem_singleton.mp hk, hx] at hy
      cases hy
  cases h with
  | start h => exact .start (hnone h)
  | first split has exceeds before after =>
    exact .first (by rw [split]; simp) has exceeds before (hnone after)

/-- One more device holds the peak if it has more than all others. -/
theorem Tops.snoc (h : Tops value? ids start p) (hs : ¬ start.value.isNaN) {id : Nat} {x : Float}
    (hx : value? id = some x) (hnan : ¬ x.isNaN) :
    Tops value? (ids ++ [id]) start (if p.value < x then ⟨x, some id⟩ else p) := by
  have hmore : ∀ {ks : List Nat} {z : Float}, ¬ z.isNaN → ¬ z < x →
      (∀ k ∈ ks, ∀ y, value? k = some y → y ≤ z) →
      ∀ k ∈ ks ++ [id], ∀ y, value? k = some y → y ≤ z := by
    intro ks z hz hle hks k hk y hy
    rcases List.mem_append.mp hk with hk | hk
    · exact hks k hk y hy
    · rw [List.mem_singleton.mp hk, hx] at hy
      cases hy
      exact (Double.not_lt_iff hz hnan).mp hle
  have hlast : ids ++ [id] = ids ++ id :: [] := rfl
  cases h with
  | start h =>
    by_cases hlt : start.value < x
    · rw [if_pos hlt]
      refine .first hlast hx hlt (fun k hk y hy => ?_) (by simp)
      exact Double.lt_of_le_of_lt (h k hk y hy) hlt
    · rw [if_neg hlt]
      exact .start (hmore hs hlt h)
  | @first before after k z split has exceeds hbefore hafter =>
    by_cases hlt : z < x
    · rw [if_pos hlt]
      refine .first hlast hx (Double.lt_trans exceeds hlt) (fun j hj y hy => ?_) (by simp)
      rw [split, List.mem_append, List.mem_cons] at hj
      rcases hj with hj | rfl | hj
      · exact Double.lt_trans (hbefore j hj y hy) hlt
      · cases has.symm.trans hy
        exact hlt
      · exact Double.lt_of_le_of_lt (hafter j hj y hy) hlt
    · rw [if_neg hlt]
      have hz := Double.not_isNaN_of_lt exceeds
      exact .first (by rw [split]; simp) has exceeds hbefore (hmore hz hlt hafter)

theorem Tops.bound (h : Tops value? ids start p) {id : Nat} (hid : id ∈ ids) {x : Float}
    (hx : value? id = some x) : x ≤ p.value := by
  cases h with
  | start h => exact h id hid x hx
  | first split has exceeds before after =>
    rw [split, List.mem_append, List.mem_cons] at hid
    rcases hid with hid | rfl | hid
    · exact Double.le_of_lt (before id hid x hx)
    · cases has.symm.trans hx
      exact Double.le_refl (Double.not_isNaN_of_lt exceeds)
    · exact after id hid x hx

theorem Tops.attained (h : Tops value? ids start p) :
    p = start ∨ start.value < p.value ∧ ∃ id ∈ ids, value? id = some p.value := by
  cases h with
  | start => exact .inl rfl
  | first split has exceeds => exact .inr ⟨exceeds, _, by simp [split], has⟩

theorem Tops.nonneg (h : Tops value? ids start p) (hs : 0 ≤ start.value) : 0 ≤ p.value := by
  rcases h.attained with rfl | ⟨hlt, -⟩
  · exact hs
  · exact Double.le_of_lt (Double.lt_of_le_of_lt hs hlt)

private theorem over_append (values more : List (Nat × Float)) :
    start.over (values ++ more) = (start.over values).over more := List.foldl_append

/-- The walk along some devices finds the peak of their values, if these are numbers. -/
theorem tops_over (value? : Nat → Option Float) (ids : List Nat) (hs : ¬ start.value.isNaN)
    (hv : ∀ id ∈ ids, ∀ x, value? id = some x → ¬ x.isNaN) :
    Tops value? ids start (Peak.over start (ids.filterMap fun id => (value? id).map fun x => (id, x))) := by
  induction ids using List.reverseRecOn with
  | nil => exact .start (by simp)
  | append_singleton ids id ih =>
    have hpeak := ih fun k hk => hv k (by simp [hk])
    rw [List.filterMap_append, over_append]
    cases hx : value? id with
    | none =>
      have hlast : [id].filterMap (fun id => (value? id).map fun x => (id, x)) = [] := by simp [hx]
      rw [hlast]
      exact hpeak.skip hx
    | some x =>
      have hlast : [id].filterMap (fun id => (value? id).map fun x => (id, x)) = [(id, x)] := by
        simp [hx]
      rw [hlast]
      exact hpeak.snoc hs hx (hv id (by simp) x hx)

end Peak
end ShotTiming
