import Mathlib.Algebra.Group.Nat.Defs
import ShotTiming.Calls

/-! # The record of calls

Two calls have different keys unless node and operation are the same, so that entering a call marks
it and nothing else.
-/
namespace ShotTiming

theorem NodeType.code_toNat_lt (t : NodeType) : t.code.toNat < 4 := by cases t <;> decide

theorem NodeType.code_toNat_inj {t u : NodeType} (h : t.code.toNat = u.code.toNat) : t = u := by
  revert h
  cases t <;> cases u <;> decide

theorem Operation.code_toNat_lt (o : Operation) : o.code.toNat < 16 := by cases o <;> decide

theorem Operation.code_toNat_inj {o p : Operation} (h : o.code.toNat = p.code.toNat) : o = p := by
  revert h
  cases o <;> cases p <;> decide

theorem NodeRef.key_toNat (r : NodeRef) :
    r.key.toNat = r.type.code.toNat * 2 ^ 32 + r.id.toNat := by
  have ht := r.type.code_toNat_lt
  have hid := r.id.toNat_lt
  rw [NodeRef.key, UInt64.toNat_or, UInt64.toNat_shiftLeft, UInt32.toNat_toUInt64]
  have hs : r.type.code.toNat <<< ((32 : UInt64).toNat % 64) % 2 ^ 64 = r.type.code.toNat <<< 32 := by
    rw [show (32 : UInt64).toNat % 64 = 32 from rfl, Nat.shiftLeft_eq]
    omega
  rw [hs, ← Nat.shiftLeft_add_eq_or_of_lt hid, Nat.shiftLeft_eq]

theorem callKey_toNat (r : NodeRef) (o : Operation) :
    (callKey r o).toNat = o.code.toNat * 2 ^ 40 + (r.type.code.toNat * 2 ^ 32 + r.id.toNat) := by
  have ho := o.code_toNat_lt
  have ht := r.type.code_toNat_lt
  have hid := r.id.toNat_lt
  rw [callKey, UInt64.toNat_or, UInt64.toNat_shiftLeft, NodeRef.key_toNat, Nat.or_comm]
  have hs : o.code.toNat <<< ((40 : UInt64).toNat % 64) % 2 ^ 64 = o.code.toNat <<< 40 := by
    rw [show (40 : UInt64).toNat % 64 = 40 from rfl, Nat.shiftLeft_eq]
    omega
  rw [hs, ← Nat.shiftLeft_add_eq_or_of_lt (by omega), Nat.shiftLeft_eq]

/-- A key tells the node and the operation apart from all others. -/
theorem callKey_inj {r q : NodeRef} {o p : Operation} :
    callKey r o = callKey q p ↔ r = q ∧ o = p := by
  constructor
  · intro h
    have hk := congrArg UInt64.toNat h
    rw [callKey_toNat, callKey_toNat] at hk
    have := r.type.code_toNat_lt
    have := q.type.code_toNat_lt
    have := r.id.toNat_lt
    have := q.id.toNat_lt
    have ho : o = p := Operation.code_toNat_inj (by omega)
    have ht : r.type = q.type := NodeType.code_toNat_inj (by omega)
    have hid : r.id = q.id := UInt32.toNat_inj.mp (by omega)
    cases r
    cases q
    simp_all
  · rintro ⟨rfl, rfl⟩
    rfl

theorem Node.ref_inj {n m : Node} (hn : ∀ id, n = .device id ∨ n = .instruction id → id < arenaCapacity)
    (hm : ∀ id, m = .device id ∨ m = .instruction id → id < arenaCapacity) (h : n.ref = m.ref) :
    n = m := by
  have key : ∀ {a b : Nat}, a < arenaCapacity → b < arenaCapacity →
      UInt32.ofNat a = UInt32.ofNat b → a = b := by
    intro a b ha hb hab
    have := congrArg UInt32.toNat hab
    simp only [UInt32.toNat_ofNat', arenaCapacity] at this ha hb
    omega
  cases n <;> cases m <;> simp_all [Node.ref]
  · exact key hn hm h
  · exact key hn hm h

theorem Node.device_ref_inj {a b : Nat} (ha : a < arenaCapacity) (hb : b < arenaCapacity)
    (h : (Node.device a).ref = (Node.device b).ref) : a = b :=
  Node.device.inj (Node.ref_inj (by simpa using ha) (by simpa using hb) h)

theorem Node.instruction_ref_inj {a b : Nat} (ha : a < arenaCapacity) (hb : b < arenaCapacity)
    (h : (Node.instruction a).ref = (Node.instruction b).ref) : a = b :=
  Node.instruction.inj (Node.ref_inj (by simpa using ha) (by simpa using hb) h)

namespace Calls

variable {c c' : Calls} {r q : NodeRef} {o p : Operation}

/-- The record with one more call in it. -/
def mark (c : Calls) (r : NodeRef) (o : Operation) : Calls :=
  { c with made := c.made.insert (callKey r o) }

/-- The record with the call of some nodes in it. -/
def markAll (c : Calls) (rs : List NodeRef) (o : Operation) : Calls :=
  rs.foldl (fun c r => c.mark r o) c

@[simp] theorem phase_mark : (c.mark r o).phase = c.phase := rfl

theorem called_mark : (c.mark r o).called q p ↔ c.called q p ∨ (q = r ∧ p = o) := by
  rw [mark, called, Std.TreeSet.contains_insert, Bool.or_eq_true, beq_iff_eq,
    Std.LawfulEqCmp.compare_eq_iff_eq, callKey_inj, called, or_comm]
  simp only [eq_comm (a := r), eq_comm (a := o)]

@[simp] theorem markAll_nil : c.markAll [] o = c := rfl

theorem markAll_cons (rs : List NodeRef) : c.markAll (r :: rs) o = (c.mark r o).markAll rs o := rfl

@[simp] theorem phase_markAll (rs : List NodeRef) : (c.markAll rs o).phase = c.phase := by
  induction rs generalizing c with
  | nil => rfl
  | cons r rs ih => rw [markAll_cons, ih, phase_mark]

theorem called_markAll {rs : List NodeRef} :
    (c.markAll rs o).called q p ↔ c.called q p ∨ (q ∈ rs ∧ p = o) := by
  induction rs generalizing c with
  | nil => simp
  | cons r rs ih =>
    rw [markAll_cons, ih, called_mark, List.mem_cons, or_and_right, or_assoc]

/-- What entering a call comes to when it is allowed. -/
theorem enter_eq_ok :
    c.enter r o = .ok c' ↔ o.phase = c.phase ∧
      (if o.isOnce then c.called r o = false ∧ c' = c.mark r o else c' = c) := by
  unfold enter allows
  by_cases hph : o.phase = c.phase
  · by_cases ho : o.isOnce
    · by_cases hc : c.called r o
      · simp [hph, ho, hc]
      · simp [hph, ho, hc, eq_comm (b := c'), mark]
    · simp [hph, ho, eq_comm (b := c')]
  · simp [hph]

/-- The first call of an operation that happens once. -/
theorem enter_of_fresh (hp : o.phase = c.phase) (ho : o.isOnce) (hc : c.called r o = false) :
    c.enter r o = .ok (c.mark r o) :=
  enter_eq_ok.mpr ⟨hp, by simp [ho, hc]⟩

/-- A call is taken in its phase, but one that happens once for the first time only. -/
theorem exists_enter_eq_ok :
    (∃ c', c.enter r o = .ok c') ↔ o.phase = c.phase ∧ (o.isOnce → ¬ c.called r o) := by
  simp only [enter_eq_ok]
  by_cases ho : o.isOnce <;> simp [ho]

theorem phase_of_enter (h : c.enter r o = .ok c') : c'.phase = c.phase := by
  have := (enter_eq_ok.mp h).2
  split at this
  · rw [this.2, phase_mark]
  · rw [this]

/-- Entering a call marks it, if it is one that happens once, and nothing else. -/
theorem called_of_enter (h : c.enter r o = .ok c') :
    c'.called q p ↔ c.called q p ∨ (q = r ∧ p = o ∧ o.isOnce) := by
  have := (enter_eq_ok.mp h).2
  split at this
  · rename_i ho
    rw [this.2, called_mark]
    simp [ho]
  · rename_i ho
    simp [this, ho]

theorem called_mono (h : c.enter r o = .ok c') (hc : c.called q p) : c'.called q p :=
  (called_of_enter h).mpr (.inl hc)

theorem advance?_eq_some :
    c.advance? = some c' ↔ c.phase.next? = some c'.phase ∧ c'.made = c.made := by
  cases c with
  | mk phase made =>
    cases c'
    cases h : phase.next? <;> simp [advance?, h, eq_comm]

/-- What no node has had, all may be asked for. -/
theorem missing?_eq_none :
    c.missing? r = none ↔
      ∀ o : Operation, o.phase = c.phase → o.isOnce → o.isRequiredOn r.type → c.called r o := by
  simp only [missing?, List.find?_eq_none, allows]
  constructor
  · intro h o hp ho hr
    have := h o (Named.mem_all o)
    simpa [hp, ho, hr] using this
  · intro h o _
    have := h o
    by_cases hp : o.phase = c.phase <;> by_cases ho : o.isOnce <;> by_cases hr : o.isRequiredOn r.type <;>
      simp_all

end Calls

end ShotTiming
