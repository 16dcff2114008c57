import ShotTiming.Proofs.Compile.Settled
import ShotTiming.Proofs.Compile.Verdict

/-! # The outcomes of a stop

A stop of a shot of plain devices ends in one of five ways. Which one, and what it leaves behind, is
decided by questions asked in a fixed order: whether an instruction is late, whether two waits have the
same time, whether every instruction has a place on its clock, and whether the report is empty.
-/
namespace ShotTiming

namespace Shot

/-- The lowest-numbered instruction that does not start by a time. -/
structure FirstLate (s : Shot) (time : Float) (id : Nat) : Prop where
  late : ∃ i, s.instruction? id = some i ∧ ¬ i.time ≤ time
  lowest : ∀ k < id, ∀ i, s.instruction? k = some i → i.time ≤ time

/-- Another state of a shot has the same instructions, of which none has been converted or called for its
conversion. -/
structure LeavesUntimed (s s' : Shot) : Prop where
  same : s'.instructions = s.instructions
  unconverted : ∀ id i, s'.instruction? id = some i → i.converted = false
  not_called : ∀ id, s'.calls.called (Node.instruction id).ref .convertTiming = false

variable {s : Shot} {time : Float} {a b id : Nat}

theorem firstLate_of_firstAfter? (h : s.firstAfter? time = some id) : s.FirstLate time id := by
  rw [firstAfter?, List.find?_range_eq_some] at h
  obtain ⟨hlate, -, hbefore⟩ := h
  refine ⟨?_, fun k hk i hi => ?_⟩
  · obtain ⟨i, hi, hn⟩ := (Option.any_eq_true _ _).mp hlate
    exact ⟨i, hi, by simpa using hn⟩
  · simpa [hi] using hbefore k hk

/-- The waits of a shot of plain devices are its own instructions. -/
theorem WellFormed.mem_own_iff (hs : s.WellFormed) (ht : s.KeepsTables) :
    id ∈ s.ownInstructions ↔ s.IsWait id := by
  rw [hs.instructions.mem_own, IsWait]
  cases hi : s.instruction? id with
  | none => simp [owner?, instructionKind?, hi]
  | some i => simpa [owner?, instructionKind?, hi] using (hs.isWait_iff ht hi).symm

theorem WellFormed.waitsApart_iff (hs : s.WellFormed) (ht : s.KeepsTables) :
    s.WaitsApart ↔ ∀ a b, ¬ s.Twins a b := by
  simp only [WaitsApart, hs.mem_own_iff ht]
  constructor
  · exact fun h a b hab => h a hab.left b hab.right hab.ne hab.same
  · exact fun h a ha b hb hne hsame => h a b ⟨ha, hb, hne, hsame⟩

/-- The waits that a stop refuses are the first twins. -/
theorem Stoppable.firstTwins (hs : s.Stoppable) (ht : s.KeepsTables) (hend : s.EndsBy time)
    (hown : (s.instructionsOf .shot).Pairwise (· < ·))
    (hc : s.firstClash? s.sortedWaits = some (a, b)) : s.FirstTwins a b := by
  have htimely := isTimely_of_endsBy hs.wellFormed hend
  have hmem : ∀ id, id ∈ s.sortedWaits ↔ id ∈ s.ownInstructions := fun id => by
    rw [sortedWaits_perm.mem_iff, Array.mem_toList_iff]
  refine firstTwins_of_firstClash? (fun id => ?_) (fun id h => htimely id ((hmem id).mp h)) ?_ hc
  · rw [hmem, hs.wellFormed.mem_own_iff ht]
  · exact Sorted.stable_sort weakOrder_isEarlier (fun id h => htimely id (by simpa using h)) hown

/-- Collecting the waits touches no instruction. -/
theorem Stoppable.leavesUntimed (hs : s.Stoppable) (time : Float) :
    s.LeavesUntimed (s.stopped time).orderedWaits where
  same := rfl
  unconverted id i hi := (hs.untimed id i hi).1
  not_called _ := hs.not_called _ (o := .convertTiming) (by decide)

end Shot

namespace Compile
open Shot

/-- The ways in which a stop ends, and what each leaves behind. -/
inductive Ending (p : Progress) (time : Float) : EStateM.Result Fault Progress Unit → Prop
  | late {id : Nat} : p.shot.FirstLate time id →
    Ending p time (.error (.structural
      (.stopBeforeEnd time p.shot.title (p.shot.subject (.instruction id)))) p)
  | clash {a b : Nat} {q : Progress} : p.shot.EndsBy time → p.shot.FirstTwins a b →
    q.shot.phase = .convertTiming → p.shot.LeavesUntimed q.shot →
    Ending p time (.error (.structural (.duplicateWait (p.shot.subject (.instruction a))
      (p.shot.subject (.instruction b)))) q)
  | misfit {f : QuantisationFault} {q : Progress} : p.shot.EndsBy time →
    (∀ a b, ¬ p.shot.Twins a b) → ¬ p.shot.AllFit → q.shot.phase = .convertTiming →
    Ending p time (.error (.quantisation f) q)
  | refused {q : Progress} : p.shot.EndsBy time → (∀ a b, ¬ p.shot.Twins a b) → p.shot.AllFit →
    q.shot.report.isEmpty = false → q.shot.phase = .checkInstructions →
    Ending p time (.error (.invalid q.shot.report) q)
  | compiled {q : Progress} : p.shot.EndsBy time → (∀ a b, ¬ p.shot.Twins a b) → p.shot.AllFit →
    q.shot.report.isEmpty → q.shot.phase = .checkInstructions → Ending p time (.ok () q)

variable {p q : Progress} {time : Float} {raw : Bool}

/-- The verdict on a timed shot goes by its report. -/
private theorem ending_of_resolve (hs : p.shot.Stoppable) (hp : p.shot.IsPlain)
    (ht : p.shot.EndsBy time) (hw : p.shot.WaitsApart) (hf : p.shot.AllFit) :
    Ending p time ((stop time).run p) := by
  obtain ⟨messages, hrun⟩ := run_resolve_fit hs ht hw hf
  have hplain := (sameLinks_of_resolve hs hrun).isPlain hp
  have htwins := (hs.wellFormed.waitsApart_iff hp.keepsTables).mp hw
  have hreport := report_checked (p.shot.stopped time).timed.advanced
  rw [allFindings_advanced] at hreport
  have hphase : (p.shot.stopped time).timed.advanced.checked.phase = .checkInstructions := by
    rw [phase_checked]
    rfl
  rw [run_stop_of_resolve hrun]
  have hjudge := run_judge (resolved_of_run hs hrun).2 hplain.checksAll
  rw [← hreport] at hjudge
  generalize (p.shot.stopped time).timed.advanced.checked = final at hjudge hphase
  rcases hjudge with ⟨hempty, m, hjudge⟩ | ⟨hfull, m, hjudge⟩
  · rw [hjudge]
    exact .compiled ht htwins hf hempty hphase
  · rw [hjudge]
    exact .refused (q := ⟨final, m⟩) ht htwins hf (by simpa using hfull) hphase

/-- A stop of a shot of plain devices ends in one of the five ways, whatever the time. -/
theorem ending_of_stop (h : p.shot.Reachable raw) (hp : p.shot.IsPlain)
    (ha : p.shot.phase = .addInstructions) (time : Float) : Ending p time ((stop time).run p) := by
  have hs := h.grown.stoppable ha
  by_cases ht : p.shot.EndsBy time
  · by_cases hw : p.shot.WaitsApart
    · by_cases hf : p.shot.AllFit
      · exact ending_of_resolve hs hp ht hw hf
      · obtain ⟨f, q, hrun⟩ := run_resolve_misfit hs ht hw hf
        have hphase := phase_after_resolve hs ht
        rw [after, hrun] at hphase
        rw [run_stop_of_error hrun]
        exact .misfit ht ((hs.wellFormed.waitsApart_iff hp.keepsTables).mp hw) hf hphase
    · obtain ⟨a, b, messages, hclash, hrun⟩ := run_resolve_clash hs ht hw
      rw [run_stop_of_error hrun]
      exact .clash ht (hs.firstTwins hp.keepsTables ht h.grown.own_increasing hclash) rfl
        (hs.leavesUntimed time)
  · obtain ⟨id, hid, hrun⟩ := run_resolve_late hs ht
    rw [run_stop_of_error hrun]
    exact .late (firstLate_of_firstAfter? hid)

/-- The nodes that a fault names. -/
private def blamed : EStateM.Result Fault Progress Unit → Option (NodeRef × NodeRef)
  | .ok .. => none
  | .error e _ => some (e.node, e.otherNode)

/-- Of four waits at two times, the two lowest-numbered ones at the smaller time are refused. -/
theorem ending_of_twins : ∃ p : Progress, p.shot.Reachable false ∧ p.shot.IsPlain ∧
    p.shot.phase = .addInstructions ∧ Ending p 50 ((stop 50).run p) ∧
    blamed ((stop 50).run p) = some ((Node.instruction 1).ref, (Node.instruction 3).ref) := by
  let cs := Session.bench ++ [
    .addInstruction 0 (.shot 0) (.wait 20 "a") {}, .addInstruction 0 (.shot 0) (.wait 10 "b") {},
    .addInstruction 0 (.shot 0) (.wait 20 "c") {}, .addInstruction 0 (.shot 0) (.wait 10 "d") {}]
  have hrun : ((Session.script cs).shot? 0).any fun s => s.IsPlain ∧ s.phase = .addInstructions ∧
      blamed ((stop 50).run ⟨s, #[]⟩) =
        some ((Node.instruction 1).ref, (Node.instruction 3).ref) := by decide +kernel
  obtain ⟨s, hs, hp⟩ := (Option.any_eq_true _ _).mp hrun
  obtain ⟨hplain, hphase, hblamed⟩ := of_decide_eq_true hp
  have hr : s.Reachable false := reachable_of_script (by decide) hs
  exact ⟨⟨s, #[]⟩, hr, hplain, hphase, ending_of_stop (p := ⟨s, #[]⟩) hr hplain hphase 50, hblamed⟩

end Compile
end ShotTiming
