import ShotTiming.Proofs.Compile.Settled
import ShotTiming.Proofs.Session

/-! # The lists of a compiled shot

A conversion reorders the lists of the outputs and does nothing else to any list. Afterwards the waits and
the lists of all outputs are a complete account of the instructions.
-/
namespace ShotTiming

private theorem flatMap_filter {α β : Type} {xs : List α} {keep : α → Bool} {f : α → List β}
    (h : ∀ a ∈ xs, keep a = false → f a = []) : (xs.filter keep).flatMap f = xs.flatMap f := by
  induction xs with
  | nil => rfl
  | cons a xs ih =>
    have hrest := ih fun b hb => h b (List.mem_cons_of_mem a hb)
    cases ha : keep a with
    | true => simp [ha, hrest]
    | false => simp [ha, hrest, h a List.mem_cons_self ha]

theorem Device.acceptedInstructions_eq_empty {d : Device} (h : d.kind.isOutput = false) :
    d.acceptedInstructions = .empty := by
  have hkind : d.kind.acceptedInstructions = .empty := by
    revert h
    cases d.kind <;> simp [DeviceKind.isOutput, DeviceKind.acceptedInstructions]
  simp [Device.acceptedInstructions, h, hkind]

namespace Shot

/-- The instructions of every output are those it had before, by segment, tick and number; the shot lists
its own as they were created. Each instruction is a wait or on the list of one output, once. -/
structure Arranges (s s' : Shot) : Prop where
  outputs : ∀ id k, s'.kind? id = some k → k.isOutput →
    (s'.instructionsOf (.device id)).Perm (s.instructionsOf (.device id)) ∧
      (s'.entries (s'.instructionsOf (.device id))).Pairwise Entry.StandsBefore
  own : s'.instructionsOf .shot = s.instructionsOf .shot ∧
    (s'.instructionsOf .shot).Pairwise (· < ·)
  instructions : s'.instructions.size = s.instructions.size
  once : (s'.waits.toList ++ s'.outputs.flatMap fun id => s'.instructionsOf (.device id)).Perm
    (List.range s'.instructions.size)

variable {s : Shot} {id p : Nat}

/-- Below the shot, instructions stand on outputs, whatever else an output may have been made to take. -/
theorem WellFormed.isOutput_of_owner (hs : s.WellFormed) (ho : s.owner? id = some (.device p)) :
    (s.device? p).any (·.kind.isOutput) := by
  obtain ⟨i, hi⟩ := exists_instruction (lt_of_owner? ho)
  have hkind : s.instructionKind? id = some i.kind := by simp [instructionKind?, hi]
  have hacc := hs.accepting.instruction hkind ho
  obtain ⟨d, hd⟩ := exists_device (isBefore_of_takes hacc)
  have htakes : d.acceptedInstructions.contains i.kind := by simpa [acceptedInstructions, hd] using hacc
  rw [hd, Option.any_some]
  by_contra hnot
  rw [Device.acceptedInstructions_eq_empty (Bool.eq_false_of_not_eq_true hnot)] at htakes
  cases htakes

/-- The shot and its outputs have every instruction, each once. -/
theorem WellFormed.listed_perm (hs : s.WellFormed) :
    (s.instructionsOf .shot ++ s.outputs.flatMap fun id => s.instructionsOf (.device id)).Perm
      (List.range s.instructions.size) := by
  have hflat : (s.outputs.flatMap fun id => s.instructionsOf (.device id)) =
      (s.descendants .shot true).flatMap fun id => s.instructionsOf (.device id) := by
    refine flatMap_filter fun p _ hp => List.eq_nil_iff_forall_not_mem.mpr fun id hid => ?_
    rw [hs.isOutput_of_owner (hs.instructions.mem_instructionsOf.mp hid)] at hp
    cases hp
  rw [hflat]
  exact hs.descendantInstructions_perm

end Shot

namespace Compile
open Shot

variable {p q : Progress} {raw : Bool}

/-- A conversion that ends well loses no instruction, doubles none, and moves none to another list. -/
theorem arranges_of_convertTiming (h : p.shot.Reachable raw) (hq : convertTiming.run p = .ok () q) :
    p.shot.Arranges q.shot := by
  have hw := h.grown.wellFormed
  obtain ⟨hphase, hclash, hfit, hshot⟩ := timed_of_convertTiming hw hq
  have hsettled := hw.settled_timed hphase hclash hfit
  have hlinks := sameLinks_timed hw
  have hown : p.shot.timed.instructionsOf .shot = p.shot.instructionsOf .shot :=
    congrArg Array.toList ownInstructions_timed
  rw [hshot]
  constructor
  case outputs =>
    intro id k hk ho
    exact ⟨hlinks.listed (.device id), hsettled.inOrder.sorted id k hk ho⟩
  case own => exact ⟨hown, hown ▸ h.grown.own_increasing⟩
  case instructions => exact hlinks.instructions_size
  case once => exact (hsettled.waits.append_right _).trans hsettled.wellFormed.listed_perm

/-- Values on two outputs, those of one of them in the wrong order, and a wait. -/
private def shuffled : List Command := Session.bench ++ [
  .issue (.device 0 5) (.constant 20 1) {},
  .addInstruction 0 (.shot 0) (.wait 15 "w") {},
  .issue (.device 0 4) (.constant 5 1) {},
  .issue (.device 0 5) (.constant 10 1) {},
  .issue (.device 0 5) (.constant 10 0) {},
  .nextPhase 0]

theorem arranges_of_shuffled : ∃ p q : Progress, p.shot.Reachable false ∧
    convertTiming.run p = .ok () q ∧ p.shot.Arranges q.shot ∧
    p.shot.instructionsOf (.device 5) = [0, 3, 4] ∧ q.shot.instructionsOf (.device 5) = [3, 4, 0] := by
  have hrun : ((Session.script shuffled).shot? 0).any fun s =>
      isOk (convertTiming.run ⟨s, #[]⟩) ∧ s.instructionsOf (.device 5) = [0, 3, 4] ∧
      (after convertTiming ⟨s, #[]⟩).shot.instructionsOf (.device 5) = [3, 4, 0] := by decide +kernel
  obtain ⟨s, hs, hp⟩ := (Option.any_eq_true _ _).mp hrun
  obtain ⟨hok, hbefore, hafter⟩ := of_decide_eq_true hp
  have hr : s.Reachable false := reachable_of_script (by decide) hs
  obtain ⟨q, hq⟩ := exists_of_isOk hok
  rw [after, hq] at hafter
  exact ⟨⟨s, #[]⟩, q, hr, hq, arranges_of_convertTiming hr hq, hbefore, hafter⟩

end Compile
end ShotTiming
