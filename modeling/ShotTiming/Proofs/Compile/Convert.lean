import Mathlib.Data.List.Basic
import ShotTiming.Proofs.Compile.Steps
import ShotTiming.Proofs.Calls
import ShotTiming.Proofs.Shot.Placed

/-! # Timing instructions one after another

As the place of an instruction does not depend on the others, the instructions of a list can be timed in
any order. One by one, the run ends at the first that has no place; together, it goes through all of them
and lists those that have none.
-/
namespace ShotTiming

namespace Shot

/-- The shot after the conversion of some instructions, however each of them went. -/
def timedOn (s : Shot) (waits : Array Float) (ids : List Nat) : Shot :=
  { s with
    calls := s.calls.markAll (ids.map fun id => (Node.instruction id).ref) .convertTiming
    instructions := s.instructions.mapIdx fun id i => if id ∈ ids then s.placed waits i else i }

/-- Why an instruction has no place among some waits, if it has none. -/
def misfit? (s : Shot) (waits : Array Float) (id : Nat) : Option Misplaced :=
  (s.instruction? id).bind fun i =>
    match s.placing waits i with
    | .ok .. => none
    | .error b _ => some (s.misplaced id i b)

variable {s : Shot} {waits : Array Float}

theorem misfit?_eq_none {id : Nat} {i : Instruction} (hi : s.instruction? id = some i) :
    s.misfit? waits id = none ↔ s.Fits waits i := by
  rw [misfit?, hi, Option.bind_some, Fits]
  cases s.placing waits i with
  | ok u t => simp
  | error b t => simp

theorem instruction?_timedOn (ids : List Nat) (id : Nat) :
    (s.timedOn waits ids).instruction? id =
      (s.instruction? id).map fun i => if id ∈ ids then s.placed waits i else i := by
  simp [timedOn, instruction?]

/-- Timing some instructions makes no difference to whether another one has a place. -/
theorem misfit?_timedOn {ids : List Nat} {k : Nat} (h : k ∉ ids) :
    (s.timedOn waits ids).misfit? waits k = s.misfit? waits k := by
  have hi : (s.timedOn waits ids).instruction? k = s.instruction? k := by
    simp [instruction?_timedOn, h]
  have hsubject : (s.timedOn waits ids).subject (.instruction k) = s.subject (.instruction k) := by
    rw [subject, subject, hi]
    rfl
  have hmisplaced : (s.timedOn waits ids).misplaced k = s.misplaced k := by
    funext i b
    rw [misplaced, hsubject]
    rfl
  rw [misfit?, hi, hmisplaced]
  rfl

@[simp] theorem timedOn_nil : s.timedOn waits [] = s := by
  have hi : (s.instructions.mapIdx fun id i => if id ∈ [] then s.placed waits i else i) =
      s.instructions := by
    refine Array.ext (by simp) fun k h₁ h₂ => ?_
    simp
  unfold timedOn
  rw [hi]
  rfl

theorem timedOn_cons {id : Nat} {ids : List Nat} (h : id ∉ ids) :
    (s.timedOn waits [id]).timedOn waits ids = s.timedOn waits (id :: ids) := by
  have hi : (s.timedOn waits [id]).instructions.mapIdx
        (fun k i => if k ∈ ids then s.placed waits i else i) =
      s.instructions.mapIdx fun k i => if k ∈ id :: ids then s.placed waits i else i := by
    refine Array.ext (by simp [timedOn]) fun k h₁ h₂ => ?_
    simp only [timedOn, Array.getElem_mapIdx, List.mem_cons]
    by_cases hk : k = id
    · simp [hk, h]
    · simp [hk]
  have hall : (s.timedOn waits [id]).timedOn waits ids =
      { s with
        calls := s.calls.markAll ((id :: ids).map fun id => (Node.instruction id).ref) .convertTiming
        instructions := (s.timedOn waits [id]).instructions.mapIdx
          fun k i => if k ∈ ids then s.placed waits i else i } := rfl
  rw [hall, hi]
  rfl

end Shot

namespace Compile
open Shot

variable {waits : Array Float} {p : Progress}

/-- A call of the conversion that has not been made, for each of some instructions that are there. -/
structure Ready (s : Shot) (ids : List Nat) : Prop where
  phase : s.phase = .convertTiming
  fresh : ∀ id ∈ ids, s.calls.called (Node.instruction id).ref .convertTiming = false
  there : ∀ id ∈ ids, id < s.instructions.size
  fit : s.instructions.size ≤ arenaCapacity
  nodup : ids.Nodup

theorem Ready.single {s : Shot} {id : Nat} {ids : List Nat} (h : Ready s ids) (hid : id ∈ ids) :
    Ready s [id] where
  phase := h.phase
  fresh k hk := h.fresh k (List.mem_singleton.mp hk ▸ hid)
  there k hk := h.there k (List.mem_singleton.mp hk ▸ hid)
  fit := h.fit
  nodup := by simp

theorem Ready.head {s : Shot} {id : Nat} {ids : List Nat} (h : Ready s (id :: ids)) : Ready s [id] :=
  h.single (by simp)

theorem Ready.tail {s : Shot} {id : Nat} {ids : List Nat} (h : Ready s (id :: ids)) :
    Ready (s.timedOn waits [id]) ids where
  phase := (Calls.phase_markAll _).trans h.phase
  fresh k hk := by
    have hne : k ≠ id := fun he => (List.nodup_cons.mp h.nodup).1 (he ▸ hk)
    have hold := h.fresh k (by simp [hk])
    have hlt : ∀ j ∈ id :: ids, j < arenaCapacity := fun j hj => Nat.lt_of_lt_of_le (h.there j hj) h.fit
    rw [← Bool.not_eq_true] at hold ⊢
    intro hc
    rcases Calls.called_markAll.mp hc with hc | ⟨hc, -⟩
    · exact hold hc
    · have hr := List.mem_singleton.mp hc
      exact hne (Node.instruction_ref_inj (hlt k (by simp [hk])) (hlt id (by simp)) hr)
  there k hk := by simpa [timedOn] using h.there k (by simp [hk])
  fit := by simpa [timedOn] using h.fit
  nodup := (List.nodup_cons.mp h.nodup).2

/-- Once some instructions are timed, the others may still be. -/
theorem Ready.rest {s : Shot} {pre post : List Nat} (h : Ready s (pre ++ post)) :
    Ready (s.timedOn waits pre) post := by
  induction pre generalizing s with
  | nil =>
    rw [timedOn_nil]
    exact h
  | cons k pre ih =>
    have h' : Ready s (k :: (pre ++ post)) := h
    have hnot : k ∉ pre := fun hk => (List.nodup_cons.mp h'.nodup).1 (by simp [hk])
    rw [← timedOn_cons hnot]
    exact ih h'.tail

private theorem setInstruction_marked (s : Shot) (waits : Array Float) (id : Nat) :
    ({ s with calls := s.calls.mark (Node.instruction id).ref .convertTiming }).setInstruction id
      (s.placed waits) = s.timedOn waits [id] := by
  have hmodify : s.instructions.modify id (s.placed waits) =
      s.instructions.mapIdx fun k j => if k ∈ [id] then s.placed waits j else j := by
    refine Array.ext_getElem? fun k => ?_
    rw [Array.getElem?_modify, Array.getElem?_mapIdx]
    by_cases hk : id = k
    · simp [hk]
    · simp [hk, Ne.symm hk]
  unfold setInstruction timedOn
  dsimp only
  rw [hmodify]
  rfl

/-- One instruction, once it may be timed. -/
theorem run_convert (waits : Array Float) {id : Nat} (h : Ready p.shot [id]) :
    (convert id waits).run p =
      match p.shot.misfit? waits id with
      | none => .ok () ⟨p.shot.timedOn waits [id], p.messages⟩
      | some m => .error (.quantisation (.single m)) ⟨p.shot.timedOn waits [id], p.messages⟩ := by
  obtain ⟨i, hi⟩ := exists_instruction (h.there id (by simp))
  have henter := Calls.enter_of_fresh (r := (Node.instruction id).ref) (o := .convertTiming)
    h.phase.symm rfl (h.fresh id (by simp))
  rw [run_convert_entered hi henter, setInstruction_marked, misfit?, hi, Option.bind_some]
  cases p.shot.placing waits i <;> rfl

/-- Timing one after another goes through if every instruction has a place. -/
theorem run_forM_convert {ids : List Nat} (h : Ready p.shot ids)
    (hfit : ∀ id ∈ ids, p.shot.misfit? waits id = none) :
    (ids.forM fun id => convert id waits).run p = .ok ⟨⟩ ⟨p.shot.timedOn waits ids, p.messages⟩ := by
  induction ids generalizing p with
  | nil =>
    rw [timedOn_nil]
    rfl
  | cons id ids ih =>
    have hnot := (List.nodup_cons.mp h.nodup).1
    have hrest := ih (p := ⟨p.shot.timedOn waits [id], p.messages⟩) h.tail fun k hk => by
      rw [misfit?_timedOn (by simpa using ne_of_mem_of_not_mem hk hnot)]
      exact hfit k (by simp [hk])
    rw [run_forM_cons, run_convert waits h.head, hfit id (by simp)]
    dsimp only
    rw [hrest, timedOn_cons hnot]

/-- Otherwise it ends at the first instruction that has none. -/
theorem run_forM_convert_misfit {pre post : List Nat} {id : Nat} {m : Misplaced}
    (h : Ready p.shot (pre ++ id :: post)) (hfit : ∀ k ∈ pre, p.shot.misfit? waits k = none)
    (hm : p.shot.misfit? waits id = some m) :
    ((pre ++ id :: post).forM fun id => convert id waits).run p =
      .error (.quantisation (.single m)) ⟨p.shot.timedOn waits (pre ++ [id]), p.messages⟩ := by
  induction pre generalizing p with
  | nil =>
    rw [List.nil_append, run_forM_cons, run_convert waits h.head, hm]
    rfl
  | cons k pre ih =>
    have h' : Ready p.shot (k :: (pre ++ id :: post)) := h
    have hnot := (List.nodup_cons.mp h'.nodup).1
    have hsame : ∀ j ∈ pre ++ id :: post,
        (p.shot.timedOn waits [k]).misfit? waits j = p.shot.misfit? waits j := fun j hj =>
      misfit?_timedOn (by simpa using ne_of_mem_of_not_mem hj hnot)
    have hrest := ih (p := ⟨p.shot.timedOn waits [k], p.messages⟩) h'.tail
      (fun j hj => (hsame j (by simp [hj])).trans (hfit j (by simp [hj])))
      ((hsame id (by simp)).trans hm)
    have hnot' : k ∉ pre ++ [id] := by
      simp only [List.mem_append, List.mem_cons, not_or] at hnot
      simp [hnot]
    rw [List.cons_append, run_forM_cons, run_convert waits h'.head, hfit k (by simp)]
    dsimp only
    rw [hrest, timedOn_cons hnot']
    rfl

theorem run_convertEach_cons (waits : Array Float) (id : Nat) (ids : List Nat) :
    (convertEach waits (id :: ids)).run p =
      match (convert id waits).run p with
      | .ok _ q => (convertEach waits ids).run q
      | .error (.quantisation (.single m)) q =>
        match (convertEach waits ids).run
          { q with messages := q.messages.push ⟨.error, m.message ++ "\n"⟩ } with
        | .ok others t => .ok (m :: others) t
        | .error e t => .error e t
      | .error e q => .error e q := by
  simp only [convertEach, EStateM.run_bind, run_tryCatch]
  cases (convert id waits).run p with
  | ok u q =>
    simp only [EStateM.run_pure]
    cases h : (convertEach waits ids).run q <;> simp
  | error e q =>
    cases e with
    | quantisation f =>
      cases f with
      | single m =>
        simp only [EStateM.run_bind, run_say, EStateM.run_pure]
        cases h : (convertEach waits ids).run
          { q with messages := q.messages.push ⟨.error, m.message ++ "\n"⟩ } <;> simp
      | batch first others => rfl
    | _ => rfl

/-- What the log says about an instruction that has no place. -/
def misfitMessage (m : Misplaced) : Message := ⟨.error, m.message ++ "\n"⟩

/-- Timing all together passes over the instructions that have no place, and lists them. -/
theorem run_convertEach (waits : Array Float) {ids : List Nat} (h : Ready p.shot ids) :
    (convertEach waits ids).run p = .ok (ids.filterMap (p.shot.misfit? waits))
      ⟨p.shot.timedOn waits ids,
        p.messages ++ ((ids.filterMap (p.shot.misfit? waits)).map misfitMessage).toArray⟩ := by
  induction ids generalizing p with
  | nil =>
    rw [timedOn_nil]
    rfl
  | cons id ids ih =>
    have hnot := (List.nodup_cons.mp h.nodup).1
    have hsame : ids.filterMap ((p.shot.timedOn waits [id]).misfit? waits) =
        ids.filterMap (p.shot.misfit? waits) := by
      apply List.filterMap_congr
      exact fun k hk => misfit?_timedOn (by simpa using ne_of_mem_of_not_mem hk hnot)
    rw [run_convertEach_cons, run_convert waits h.head]
    cases hm : p.shot.misfit? waits id with
    | none =>
      dsimp only
      rw [ih (p := ⟨p.shot.timedOn waits [id], p.messages⟩) h.tail, List.filterMap_cons_none hm]
      simp only [hsame, timedOn_cons hnot]
    | some m =>
      dsimp only
      rw [ih (p := ⟨p.shot.timedOn waits [id], p.messages.push ⟨.error, m.message ++ "\n"⟩⟩) h.tail,
        List.filterMap_cons_some hm]
      simp [hsame, timedOn_cons hnot, misfitMessage]

/-- Timing together refuses all instructions that have no place at once. -/
theorem run_convertTogether (waits : Array Float) {ids : List Nat} (h : Ready p.shot ids) :
    (convertTogether waits ids).run p =
      match ids.filterMap (p.shot.misfit? waits) with
      | [] => .ok () ⟨p.shot.timedOn waits ids, p.messages⟩
      | first :: others => .error (.quantisation (.batch first others)) ⟨p.shot.timedOn waits ids,
          p.messages ++ ((first :: others).map misfitMessage).toArray⟩ := by
  rw [convertTogether, EStateM.run_bind, run_convertEach waits h]
  cases ids.filterMap (p.shot.misfit? waits) <;> rfl

/-- Both ways of timing end well if every instruction has a place, and in a quantisation fault
otherwise. -/
theorem run_conversion (waits : Array Float) {ids : List Nat} (h : Ready p.shot ids) (together : Bool) :
    let conversion : Compile Unit :=
      if together then convertTogether waits ids else ids.forM fun id => convert id waits
    ((∀ id ∈ ids, ∀ i, p.shot.instruction? id = some i → p.shot.Fits waits i) ∧
        conversion.run p = .ok () ⟨p.shot.timedOn waits ids, p.messages⟩) ∨
      ((∃ id ∈ ids, ∃ i, p.shot.instruction? id = some i ∧ ¬ p.shot.Fits waits i) ∧
        ∃ f q, conversion.run p = .error (.quantisation f) q) := by
  intro conversion
  cases hm : ids.filterMap (p.shot.misfit? waits) with
  | nil =>
    have hnone := List.filterMap_eq_nil_iff.mp hm
    refine .inl ⟨fun id hid i hi => (misfit?_eq_none hi).mp (hnone id hid), ?_⟩
    cases together with
    | false => exact run_forM_convert h hnone
    | true =>
      have hrun := run_convertTogether waits h
      rwa [hm] at hrun
  | cons first others =>
    obtain ⟨pre, id, post, rfl, hpre, hid, -⟩ := List.filterMap_eq_cons_iff.mp hm
    obtain ⟨i, hi⟩ := exists_instruction (h.there id (by simp))
    refine .inr ⟨⟨id, by simp, i, hi, fun hf => ?_⟩, ?_⟩
    · rw [(misfit?_eq_none hi).mpr hf] at hid
      cases hid
    · cases together with
      | false => exact ⟨_, _, run_forM_convert_misfit h hpre hid⟩
      | true =>
        have hrun := run_convertTogether waits h
        rw [hm] at hrun
        exact ⟨_, _, hrun⟩

end Compile

end ShotTiming
