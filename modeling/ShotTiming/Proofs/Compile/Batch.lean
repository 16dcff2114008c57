import ShotTiming.Proofs.Session
import ShotTiming.Proofs.Compile.Settled
import ShotTiming.Proofs.Validation.Entries

/-! # Stopping at the first misplaced instruction, or reporting all of them

The two modes of the conversion agree: what each instruction comes to is what it comes to alone, and the
modes differ only in where they stop.
-/
namespace ShotTiming

namespace Shot

/-- The shot with all misplaced instructions reported together, or not. -/
def batched (s : Shot) (batch : Bool) : Shot := { s with settings := { s.settings with batch } }

/-- A shot before its conversion: nothing is converted or marked, and the waits are at different times. -/
structure Unstarted (s : Shot) : Prop where
  phase : s.phase = .convertTiming
  timely : ∀ w : Entry, w.IsIn s → w.instruction.kind = .wait → ¬ w.instruction.time.isNaN
  apart : ∀ a b : Entry, a.IsIn s → b.IsIn s → a.instruction.kind = .wait → b.instruction.kind = .wait →
    a.id ≠ b.id → ¬ (a.instruction.time == b.instruction.time) = true
  unconverted : ∀ e : Entry, e.IsIn s → e.instruction.converted = false
  unmarked : ∀ e : Entry, e.IsIn s → s.calls.called e.node.ref .convertTiming = false

variable {s : Shot}

theorem unstarted_iff : s.Unstarted ↔ s.phase = .convertTiming ∧
    let all := s.entries (List.range s.instructions.size)
    (∀ w ∈ all, w.instruction.kind = .wait → ¬ w.instruction.time.isNaN) ∧
    (∀ a ∈ all, ∀ b ∈ all, a.instruction.kind = .wait → b.instruction.kind = .wait →
      a.id ≠ b.id → ¬ (a.instruction.time == b.instruction.time) = true) ∧
    ∀ e ∈ all, e.instruction.converted = false ∧ s.calls.called e.node.ref .convertTiming = false := by
  simp only [← forall_isIn]
  constructor
  · exact fun h => ⟨h.phase, h.timely, fun a ha b hb => h.apart a b ha hb,
      fun e he => ⟨h.unconverted e he, h.unmarked e he⟩⟩
  · exact fun ⟨hp, ht, ha, hf⟩ => ⟨hp, ht, fun a b hia hib => ha a hia b hib,
      fun e he => (hf e he).1, fun e he => (hf e he).2⟩

instance : Decidable s.Unstarted := decidable_of_iff' _ unstarted_iff

/-- The shot after a conversion that came to some of its instructions, however each of them went. -/
def tried (s : Shot) (batch : Bool) (ids : List Nat) : Shot :=
  (s.batched batch).orderedWaits.timedOn s.sortedTimes ids

theorem instruction?_tried (batch : Bool) (ids : List Nat) (id : Nat) :
    (s.tried batch ids).instruction? id =
      (s.instruction? id).map fun i => if id ∈ ids then s.placed s.sortedTimes i else i :=
  instruction?_timedOn (s := (s.batched batch).orderedWaits) ids id

theorem waitTimes_tried (batch : Bool) (ids : List Nat) :
    (s.tried batch ids).waitTimes = s.sortedTimes :=
  (sameLinks_timedOn (s := (s.batched batch).orderedWaits) _ _).timesOf _

theorem misfit?_batched (batch : Bool) : (s.batched batch).orderedWaits.misfit? = s.misfit? := rfl

theorem sortOutputs_batched (batch : Bool) : (s.batched batch).sortOutputs = s.sortOutputs.batched batch := by
  have hfold : ∀ (ids : List Nat) (s : Shot),
      ids.foldl sortOutput (s.batched batch) = (ids.foldl sortOutput s).batched batch := by
    intro ids
    induction ids with
    | nil => exact fun _ => rfl
    | cons id ids ih => exact fun s => ih (s.sortOutput id)
  exact hfold s.outputs s

/-- Such a shot may be converted in either mode. -/
theorem Unstarted.firstClash? (h : s.Unstarted) (hs : s.WellFormed) (batch : Bool) :
    (s.batched batch).firstClash? (s.batched batch).sortedWaits = none := by
  have hwait : ∀ {id}, id ∈ s.ownInstructions →
      ∃ i, (⟨id, i⟩ : Entry).IsIn s ∧ i.kind = .wait := by
    intro id hid
    have ho := hs.instructions.mem_own.mp hid
    obtain ⟨i, hi⟩ := exists_instruction (lt_of_owner? ho)
    exact ⟨i, hi, hs.isWait_of_own hi (by simpa [owner?, hi] using ho)⟩
  have hnone : s.firstClash? s.sortedWaits = none := by
    refine (hs.firstClash?_eq_none fun id hid => ?_).mpr fun a ha b hb hne => ?_
    · obtain ⟨i, hi, hk⟩ := hwait hid
      exact ⟨i, hi, h.timely ⟨id, i⟩ hi hk⟩
    · obtain ⟨i, hi, hki⟩ := hwait ha
      obtain ⟨j, hj, hkj⟩ := hwait hb
      have hi' : s.instruction? a = some i := hi
      have hj' : s.instruction? b = some j := hj
      simpa [isSimultaneous, hi', hj'] using h.apart ⟨a, i⟩ ⟨b, j⟩ hi hj hki hkj hne
  have hsame : (s.batched batch).isSimultaneous = s.isSimultaneous := rfl
  exact (firstClash?_congr hsame s.sortedWaits).trans hnone

end Shot

namespace Compile
open Shot

variable {p q : Progress} {id : Nat} {m : Misplaced}

/-- The conversion in one of its modes. -/
def convertIn (batch : Bool) (p : Progress) : EStateM.Result Fault Progress Unit :=
  convertTiming.run ⟨p.shot.batched batch, p.messages⟩

/-- The conversion of one instruction alone, among the waits of the shot. -/
def convertAlone (p : Progress) (id : Nat) : EStateM.Result Fault Progress Unit :=
  (convert id p.shot.sortedTimes).run p

/-- The instructions that cannot be converted alone, in the order of the tree, and why. -/
def misses (p : Progress) : List (Nat × Misplaced) :=
  (p.shot.descendantInstructions .shot true).filterMap fun id =>
    match convertAlone p id with
    | .error (.quantisation (.single m)) _ => some (id, m)
    | _ => none

/-- An instruction is as its conversion alone leaves it. -/
def AsAlone (p q : Progress) (id : Nat) : Prop :=
  q.shot.instruction? id = (after (convert id p.shot.sortedTimes) p).shot.instruction? id

/-- A conversion that converted what stands before an instruction and did not come to what stands
behind it. -/
structure StoppedAt (p q : Progress) (id : Nat) (pre post : List Nat) : Prop where
  order : p.shot.descendantInstructions .shot true = pre ++ id :: post
  converted : ∀ e : Entry, e.IsIn q.shot → (e.instruction.converted ↔ e.id ∈ pre)
  alone : ∀ k ∈ pre ++ [id], AsAlone p q k
  untouched : ∀ k ∈ post, q.shot.instruction? k = p.shot.instruction? k ∧
    q.shot.calls.called (Node.instruction k).ref .convertTiming = false
  waits : q.shot.waitTimes = p.shot.sortedTimes
  messages : q.messages = p.messages

/-- A conversion that converted all it could and logged the rest. -/
structure WentThrough (p q : Progress) : Prop where
  converted : ∀ e : Entry, e.IsIn q.shot → (e.instruction.converted ↔ e.id ∉ (misses p).map Prod.fst)
  alone : ∀ k ∈ p.shot.descendantInstructions .shot true, AsAlone p q k
  waits : q.shot.waitTimes = p.shot.sortedTimes
  messages : q.messages = p.messages ++
    ((misses p).map fun n => misfitMessage n.2).toArray

/-- The fault of all misplaced instructions together. -/
structure ListsMisses (p : Progress) (f : QuantisationFault) (id : Nat) : Prop where
  code : f.code = 3
  node : f.node = (Node.instruction id).ref
  message : f.message = toString (misses p).length ++ " instruction(s) cannot be quantised:" ++
    String.join ((misses p).map fun n => "\n  " ++ n.2.message)

/-- What the two modes of the conversion have in common. -/
structure ModesAgree (p : Progress) : Prop where
  /-- Nothing is misplaced. -/
  fitting : misses p = [] → ∃ (s : Shot) (messages : Array Message),
    convertIn false p = .ok () ⟨s.batched false, messages⟩ ∧
    convertIn true p = .ok () ⟨s.batched true, messages⟩
  /-- One mode stops at the first that is misplaced. -/
  first : ∀ id m others, misses p = (id, m) :: others → ∃ (q : Progress) (pre post : List Nat),
    convertIn false p = .error (.quantisation (.single m)) q ∧
    (QuantisationFault.single m).node = (Node.instruction id).ref ∧ StoppedAt p q id pre post
  /-- The other one goes through, and lists them all. -/
  all : ∀ id m others, misses p = (id, m) :: others → ∃ (f : QuantisationFault) (q : Progress),
    convertIn true p = .error (.quantisation f) q ∧ ListsMisses p f id ∧ WentThrough p q

section

variable (hs : p.shot.WellFormed) (hu : p.shot.Unstarted)
include hs hu

private theorem ready_of_unstarted : Ready p.shot (p.shot.descendantInstructions .shot true) where
  phase := hu.phase
  fresh id hid := by
    obtain ⟨i, hi⟩ := exists_instruction (hs.mem_allInstructions.mp hid)
    exact hu.unmarked ⟨id, i⟩ hi
  there id hid := hs.mem_allInstructions.mp hid
  fit := hs.instructions_fit
  nodup := hs.nodup_descendantInstructions .shot true

/-- The mode makes no difference to what may be converted. -/
private theorem ready_batched (batch : Bool) :
    Ready (p.shot.batched batch).orderedWaits (p.shot.descendantInstructions .shot true) :=
  have h := ready_of_unstarted hs hu
  ⟨h.phase, h.fresh, h.there, h.fit, h.nodup⟩

private theorem run_alone (hid : id ∈ p.shot.descendantInstructions .shot true) :
    convertAlone p id =
      match p.shot.misfit? p.shot.sortedTimes id with
      | none => .ok () ⟨p.shot.timedOn p.shot.sortedTimes [id], p.messages⟩
      | some m => .error (.quantisation (.single m))
          ⟨p.shot.timedOn p.shot.sortedTimes [id], p.messages⟩ :=
  run_convert p.shot.sortedTimes ((ready_of_unstarted hs hu).single hid)

/-- What misses the grid alone is what has no place. -/
private theorem misses_eq : misses p = (p.shot.descendantInstructions .shot true).filterMap fun id =>
    (p.shot.misfit? p.shot.sortedTimes id).map fun m => (id, m) := by
  apply List.filterMap_congr
  intro id hid
  rw [run_alone hs hu hid]
  cases p.shot.misfit? p.shot.sortedTimes id <;> rfl

/-- Conversions do not get in each other's way. -/
private theorem asAlone_of_tried {batch : Bool} {ids : List Nat} {messages : Array Message}
    (hids : id ∈ p.shot.descendantInstructions .shot true) (hid : id ∈ ids) :
    AsAlone p ⟨p.shot.tried batch ids, messages⟩ id := by
  have hrun := run_alone hs hu hids
  rw [convertAlone] at hrun
  have hafter : (after (convert id p.shot.sortedTimes) p).shot = p.shot.timedOn p.shot.sortedTimes [id] := by
    rw [after, hrun]
    cases p.shot.misfit? p.shot.sortedTimes id <;> rfl
  rw [AsAlone, hafter, instruction?_tried, instruction?_timedOn]
  simp [hid]

omit hs in
/-- Of the instructions that a conversion comes to, those that have a place are converted. -/
private theorem converted_of_tried {batch : Bool} {ids : List Nat} {e : Entry}
    (he : e.IsIn (p.shot.tried batch ids)) :
    e.instruction.converted ↔ e.id ∈ ids ∧ p.shot.misfit? p.shot.sortedTimes e.id = none := by
  rw [Entry.IsIn, instruction?_tried] at he
  obtain ⟨i, hi, hplaced⟩ := Option.map_eq_some_iff.mp he
  have hfresh := hu.unconverted ⟨e.id, i⟩ hi
  rw [misfit?_eq_none hi, ← hplaced]
  split
  · rename_i hmem
    rw [converted_placed _ hfresh]
    simp [hmem]
  · rename_i hmem
    have hfalse : ¬ i.converted = true := by simpa using hfresh
    simp [hmem, hfalse]

private theorem convertIn_eq (batch : Bool) :
    convertIn batch p =
      match ((if batch then convertTogether p.shot.sortedTimes (p.shot.descendantInstructions .shot true)
        else (p.shot.descendantInstructions .shot true).forM fun id =>
          convert id p.shot.sortedTimes) : Compile Unit).run
            ⟨(p.shot.batched batch).orderedWaits, p.messages⟩ with
      | .ok _ q => .ok () { q with shot := q.shot.sortOutputs }
      | .error e q => .error e q := by
  rw [convertIn, run_convertTiming (p := ⟨p.shot.batched batch, p.messages⟩) hu.phase, hu.firstClash? hs batch]
  rfl

private theorem run_together :
    (convertTogether p.shot.sortedTimes (p.shot.descendantInstructions .shot true)).run
        ⟨(p.shot.batched true).orderedWaits, p.messages⟩ =
      match (p.shot.descendantInstructions .shot true).filterMap (p.shot.misfit? p.shot.sortedTimes) with
      | [] => .ok () ⟨p.shot.tried true (p.shot.descendantInstructions .shot true), p.messages⟩
      | first :: others => .error (.quantisation (.batch first others))
          ⟨p.shot.tried true (p.shot.descendantInstructions .shot true),
            p.messages ++ ((first :: others).map misfitMessage).toArray⟩ := by
  rw [← misfit?_batched true]
  exact run_convertTogether (p := ⟨(p.shot.batched true).orderedWaits, p.messages⟩) _
    (ready_batched hs hu true)

/-- Once the first miss is known, it is known what stands before it. -/
private theorem split_of_misses {others : List (Nat × Misplaced)} (hm : misses p = (id, m) :: others) :
    ∃ pre post, p.shot.descendantInstructions .shot true = pre ++ id :: post ∧
      (∀ k ∈ pre, p.shot.misfit? p.shot.sortedTimes k = none) ∧
      p.shot.misfit? p.shot.sortedTimes id = some m := by
  rw [misses_eq hs hu] at hm
  obtain ⟨pre, k, post, hids, hpre, hk, -⟩ := List.filterMap_eq_cons_iff.mp hm
  obtain ⟨m', hm', he⟩ := Option.map_eq_some_iff.mp hk
  cases he
  exact ⟨pre, post, hids, fun j hj => Option.map_eq_none_iff.mp (hpre j hj), hm'⟩

private theorem mem_misses {k : Nat} :
    k ∈ (misses p).map Prod.fst ↔ k ∈ p.shot.descendantInstructions .shot true ∧
      p.shot.misfit? p.shot.sortedTimes k ≠ none := by
  rw [misses_eq hs hu, List.mem_map]
  constructor
  · rintro ⟨⟨j, m⟩, hj, rfl⟩
    obtain ⟨i, hi, hm⟩ := List.mem_filterMap.mp hj
    obtain ⟨m', hm', he⟩ := Option.map_eq_some_iff.mp hm
    cases he
    exact ⟨hi, by simp [hm']⟩
  · rintro ⟨hk, hne⟩
    obtain ⟨m, hm⟩ := Option.ne_none_iff_exists'.mp hne
    exact ⟨(k, m), List.mem_filterMap.mpr ⟨k, hk, by simp [hm]⟩, rfl⟩

private theorem snd_misses : (misses p).map Prod.snd =
    (p.shot.descendantInstructions .shot true).filterMap (p.shot.misfit? p.shot.sortedTimes) := by
  rw [misses_eq hs hu, List.map_filterMap]
  apply List.filterMap_congr
  intro id _
  cases p.shot.misfit? p.shot.sortedTimes id <;> rfl

end

/-- An instruction that has no place is named as the one at fault. -/
private theorem ref_of_misfit {waits : Array Float} (hm : p.shot.misfit? waits id = some m) :
    m.subject.ref = (Node.instruction id).ref := by
  obtain ⟨i, hi, hb⟩ := Option.bind_eq_some_iff.mp hm
  split at hb
  · cases hb
  · cases hb
    exact ref_subject (e := ⟨id, i⟩) hi

section

variable (hs : p.shot.WellFormed) (hu : p.shot.Unstarted)
include hs hu

/-- Where nothing is misplaced, both modes end well, in the same state. -/
private theorem fitting_of_unstarted (hm : misses p = []) : ∃ (s : Shot) (messages : Array Message),
    convertIn false p = .ok () ⟨s.batched false, messages⟩ ∧
    convertIn true p = .ok () ⟨s.batched true, messages⟩ := by
  have hnil := snd_misses hs hu
  rw [hm, List.map_nil] at hnil
  refine ⟨(p.shot.tried false (p.shot.descendantInstructions .shot true)).sortOutputs, p.messages, ?_, ?_⟩
  · have hrun := run_forM_convert (p := ⟨(p.shot.batched false).orderedWaits, p.messages⟩)
      (ready_batched hs hu false) (List.filterMap_eq_nil_iff.mp hnil.symm)
    rw [convertIn_eq hs hu, if_neg Bool.false_ne_true, hrun, ← sortOutputs_batched]
    rfl
  · rw [convertIn_eq hs hu, if_pos rfl, run_together hs hu, ← hnil, ← sortOutputs_batched]
    rfl

/-- One mode stops at the first instruction that is misplaced. -/
private theorem first_of_unstarted {others : List (Nat × Misplaced)} (hm : misses p = (id, m) :: others) :
    ∃ (q : Progress) (pre post : List Nat),
      convertIn false p = .error (.quantisation (.single m)) q ∧
      (QuantisationFault.single m).node = (Node.instruction id).ref ∧ StoppedAt p q id pre post := by
  obtain ⟨pre, post, hids, hpre, hmisfit⟩ := split_of_misses hs hu hm
  have hready := ready_batched hs hu false
  rw [hids] at hready
  have hrun := run_forM_convert_misfit (p := ⟨(p.shot.batched false).orderedWaits, p.messages⟩) hready
    hpre hmisfit
  rw [List.append_cons] at hready
  have hpost : Ready (p.shot.tried false (pre ++ [id])) post := hready.rest
  refine ⟨⟨p.shot.tried false (pre ++ [id]), p.messages⟩, pre, post, ?_, ref_of_misfit hmisfit, ?_⟩
  · rw [convertIn_eq hs hu, if_neg Bool.false_ne_true, hids, hrun]
    rfl
  constructor
  case order => exact hids
  case converted =>
    intro e he
    rw [converted_of_tried hu he]
    constructor
    · rintro ⟨hmem, hnone⟩
      rcases List.mem_append.mp hmem with hmem | hmem
      · exact hmem
      · rw [List.mem_singleton.mp hmem, hmisfit] at hnone
        cases hnone
    · exact fun hmem => ⟨List.mem_append_left _ hmem, hpre e.id hmem⟩
  case alone =>
    intro k hk
    apply asAlone_of_tried hs hu _ hk
    rw [hids, List.append_cons]
    exact List.mem_append_left _ hk
  case untouched =>
    intro k hk
    have hnot : k ∉ pre ++ [id] := fun hmem => List.disjoint_of_nodup_append hready.nodup hmem hk
    exact ⟨by simp [instruction?_tried, hnot], hpost.fresh k hk⟩
  case waits => exact waitTimes_tried false _
  case messages => rfl

/-- The other mode goes through all instructions, and lists the misplaced ones. -/
private theorem all_of_unstarted {others : List (Nat × Misplaced)} (hm : misses p = (id, m) :: others) :
    ∃ (f : QuantisationFault) (q : Progress),
      convertIn true p = .error (.quantisation f) q ∧ ListsMisses p f id ∧ WentThrough p q := by
  have hsnd := snd_misses hs hu
  rw [hm, List.map_cons] at hsnd
  obtain ⟨-, -, -, -, hmisfit⟩ := split_of_misses hs hu hm
  refine ⟨.batch m (others.map Prod.snd), ⟨p.shot.tried true (p.shot.descendantInstructions .shot true),
    p.messages ++ ((m :: others.map Prod.snd).map misfitMessage).toArray⟩, ?_, ?_, ?_⟩
  · rw [convertIn_eq hs hu, if_pos rfl, run_together hs hu, ← hsnd]
  · constructor
    case code => rfl
    case node => exact ref_of_misfit hmisfit
    case message => simp [QuantisationFault.message, hm, Function.comp_def]
  · constructor
    case converted =>
      intro e he
      have hall : e.id ∈ p.shot.descendantInstructions .shot true := by
        rw [Entry.IsIn, instruction?_tried] at he
        obtain ⟨i, hi, -⟩ := Option.map_eq_some_iff.mp he
        exact hs.mem_allInstructions.mpr (instruction?_eq_some hi)
      rw [converted_of_tried hu he, mem_misses hs hu]
      simp [hall]
    case alone => exact fun k hk => asAlone_of_tried hs hu hk hk
    case waits => exact waitTimes_tried true _
    case messages =>
      have hlog : (misses p).map (fun n => misfitMessage n.2) =
          (m :: others.map Prod.snd).map misfitMessage := by simp [hm, Function.comp_def]
      rw [hlog]

end

/-- What an instruction comes to is what it comes to alone; the modes of the conversion differ in where
they stop. -/
theorem modesAgree_of_unstarted {raw : Bool} (h : p.shot.Reachable raw) (hu : p.shot.Unstarted) :
    ModesAgree p :=
  have hs := h.grown.wellFormed
  ⟨fitting_of_unstarted hs hu, fun _ _ _ => first_of_unstarted hs hu, fun _ _ _ => all_of_unstarted hs hu⟩

/-- One instruction of each output is off the grid of its clock, by its time or by its duration, and
one takes samples at a rate that is off it. -/
private def strewn : List Command := Session.bench ++ [
  .addInstruction 0 (.shot 0) (.wait 50 "w") {},
  .issue (.device 0 4) (.constant 20 1) {},
  .issue (.device 0 5) (.function 25 10.5 (some (polynomial [0, 1])) 0.5) {},
  .issue (.device 0 4) (.constant 60.5 1) {},
  .issue (.device 0 5) (.function 70 10 (some (polynomial [0, 1])) 0.3) {},
  .issue (.device 0 5) (.function 90 10 (some (polynomial [0, 1])) 0.5) {},
  .nextPhase 0]

theorem modesAgree_of_strewn : ∃ p : Progress, p.shot.Reachable false ∧ p.shot.Unstarted ∧
    p.shot.descendantInstructions .shot true = [0, 1, 3, 2, 4, 5] ∧
    (misses p).map (fun n => (n.1, n.2.quantity)) =
      [(3, .time), (2, .duration), (4, .samplePeriod)] ∧ ModesAgree p := by
  have hrun : ((Session.script strewn).shot? 0).any fun s => s.Unstarted ∧
      s.descendantInstructions .shot true = [0, 1, 3, 2, 4, 5] ∧
      (misses ⟨s, #[]⟩).map (fun n => (n.1, n.2.quantity)) =
        [(3, .time), (2, .duration), (4, .samplePeriod)] := by decide +kernel
  obtain ⟨s, hs, hp⟩ := (Option.any_eq_true _ _).mp hrun
  obtain ⟨hu, horder, hmisses⟩ := of_decide_eq_true hp
  have hr : s.Reachable false := reachable_of_script (by decide) hs
  exact ⟨⟨s, #[]⟩, hr, hu, horder, hmisses, modesAgree_of_unstarted hr hu⟩

end Compile
end ShotTiming
