import Mathlib.Data.List.Pairwise
import ShotTiming.Proofs.Shot.WellFormed
import ShotTiming.Validation.Output

/-! # Entries of the arena -/
namespace ShotTiming

/-- The instruction of an entry has its place in the arena of a shot. -/
def Entry.IsIn (e : Entry) (s : Shot) : Prop := s.instruction? e.id = some e.instruction

def Entry.IsTimed (e : Entry) : Prop := e.instruction.kind.isTimed

def Entry.IsOn (e : Entry) (id : Nat) : Prop := e.instruction.owner = some (.device id)

/-- The order of the instructions of an output: by segment, tick and number. -/
def Entry.StandsBefore (a b : Entry) : Prop :=
  a.timing.segment < b.timing.segment ∨ (a.timing.segment = b.timing.segment ∧
    (a.timing.ticks < b.timing.ticks ∨ (a.timing.ticks = b.timing.ticks ∧ a.id < b.id)))

instance (a b : Entry) : Decidable (a.StandsBefore b) := inferInstanceAs (Decidable (_ ∨ _))

namespace Shot

variable {s : Shot}

theorem eq_of_id {a b : Entry} (ha : a.IsIn s) (hb : b.IsIn s) (h : a.id = b.id) : a = b := by
  obtain ⟨id, i⟩ := a
  obtain ⟨id', j⟩ := b
  cases h
  cases Option.some_inj.mp (ha.symm.trans hb)
  rfl

theorem ref_subject {e : Entry} (he : e.IsIn s) : (s.subject e.node).ref = e.node.ref := by
  have hin : s.instruction? e.id = some e.instruction := he
  simp [subject, Entry.node, hin]

theorem mem_entries {ids : List Nat} {e : Entry} : e ∈ s.entries ids ↔ e.id ∈ ids ∧ e.IsIn s := by
  simp only [entries, List.mem_filterMap, Option.map_eq_some_iff, Entry.IsIn]
  constructor
  · rintro ⟨id, hid, i, hi, rfl⟩
    exact ⟨hid, hi⟩
  · rintro ⟨hid, hi⟩
    exact ⟨e.id, hid, e.instruction, hi, rfl⟩

theorem mem_timedEntries {ids : List Nat} {e : Entry} :
    e ∈ s.timedEntries ids ↔ e.id ∈ ids ∧ e.IsIn s ∧ e.IsTimed := by
  rw [timedEntries, List.mem_filter, mem_entries, and_assoc]
  rfl

theorem forall_isIn {P : Entry → Prop} :
    (∀ e : Entry, e.IsIn s → P e) ↔ ∀ e ∈ s.entries (List.range s.instructions.size), P e := by
  constructor
  · exact fun h e he => h e (mem_entries.mp he).2
  · exact fun h e he => h e (mem_entries.mpr ⟨List.mem_range.mpr (instruction?_eq_some he), he⟩)

theorem WellFormed.mem_entries_of (hs : s.WellFormed) {id : Nat} {e : Entry} :
    e ∈ s.entries (s.instructionsOf (.device id)) ↔ e.IsIn s ∧ e.IsOn id := by
  rw [mem_entries, hs.instructions.mem_instructionsOf, owner?]
  constructor
  · rintro ⟨ho, hin⟩
    rw [hin] at ho
    exact ⟨hin, ho⟩
  · rintro ⟨hin, ho⟩
    rw [hin]
    exact ⟨ho, hin⟩

/-- A relation of entries that holds in the order of their numbers. -/
theorem pairwise_entries {ids : List Nat} {r : Nat → Nat → Prop} {R : Entry → Entry → Prop}
    (h : ids.Pairwise r)
    (hR : ∀ a b : Entry, a.IsIn s → b.IsIn s → r a.id b.id → R a b) : (s.entries ids).Pairwise R := by
  refine List.pairwise_filterMap.mpr (h.imp fun {k l} hkl a ha b hb => ?_)
  obtain ⟨i, hi, rfl⟩ := Option.map_eq_some_iff.mp ha
  obtain ⟨j, hj, rfl⟩ := Option.map_eq_some_iff.mp hb
  exact hR _ _ hi hj hkl

end Shot
end ShotTiming
