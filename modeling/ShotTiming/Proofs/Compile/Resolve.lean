import ShotTiming.Compile.Run
import ShotTiming.Proofs.Compile.Convert
import ShotTiming.Proofs.Shot.History
import ShotTiming.Proofs.Shot.Order

/-! # From the stop of a shot to its timing

What stopping a shot does before validation depends on three questions, asked in this order: whether
every instruction is over by then, whether the waits are at different times, and whether every
instruction has a place on its clock. If so, the timed shot is known exactly.
-/
namespace ShotTiming

namespace Shot

/-- Every instruction starts by a time. -/
def EndsBy (s : Shot) (time : Float) : Prop := ∀ id i, s.instruction? id = some i → i.time ≤ time

/-- No two waits are at the same time. -/
def WaitsApart (s : Shot) : Prop :=
  ∀ a ∈ s.ownInstructions, ∀ b ∈ s.ownInstructions, a ≠ b → ¬ s.isSimultaneous a b

/-- The times of the waits in order. -/
def sortedTimes (s : Shot) : Array Float := s.timesOf s.sortedWaits.toArray

/-- Every instruction has a place among the waits. -/
def AllFit (s : Shot) : Prop := ∀ id i, s.instruction? id = some i → s.Fits s.sortedTimes i

/-- The shot in the phase of the conversion, with its stop time. -/
def stopped (s : Shot) (time : Float) : Shot :=
  { s with stopTime := time, calls := { s.calls with phase := .convertTiming } }

/-- The shot with its waits in order. -/
def orderedWaits (s : Shot) : Shot := { s with waits := s.sortedWaits.toArray }

/-- The shot with everything timed and sorted. -/
def timed (s : Shot) : Shot :=
  (s.orderedWaits.timedOn s.sortedTimes (s.descendantInstructions .shot true)).sortOutputs

variable {s : Shot} {time : Float}

/-- A clash depends on the instructions only. -/
theorem firstClash?_congr {s' : Shot} (hsim : s'.isSimultaneous = s.isSimultaneous)
    (ids : List Nat) : s'.firstClash? ids = s.firstClash? ids := by
  induction ids with
  | nil => rfl
  | cons a ids ih =>
    cases ids with
    | nil => rfl
    | cons b ids => rw [firstClash?, firstClash?, hsim, ih]

theorem firstAfter?_eq_none : s.firstAfter? time = none ↔ s.EndsBy time := by
  simp only [firstAfter?, List.find?_eq_none, List.mem_range, EndsBy]
  constructor
  · intro h id i hi
    simpa [hi] using h id (instruction?_eq_some hi)
  · intro h id hid
    obtain ⟨i, hi⟩ := exists_instruction hid
    simpa [hi] using h id i hi

/-- Nothing is required before the instructions may be converted. -/
theorem firstMissing?_addInstructions (h : s.phase = .addInstructions) : s.firstMissing? = none := by
  refine firstMissing?_eq_none.mpr fun n _ => Calls.missing?_eq_none.mpr fun o ho honce hr => ?_
  have ho' : o.phase = .addInstructions := ho.trans h
  cases o <;> simp [Operation.phase, Operation.isOnce] at ho' honce

theorem isTimely_of_endsBy (hs : s.WellFormed) (h : s.EndsBy time) :
    ∀ id ∈ s.ownInstructions, s.IsTimely id := by
  intro id hid
  obtain ⟨i, hi⟩ := exists_instruction (lt_of_owner? (hs.instructions.mem_own.mp hid))
  exact ⟨i, hi, Number.Double.not_isNaN_of_le (h id i hi)⟩

/-- Waits that have a time clash unless they are all apart. -/
theorem WellFormed.firstClash?_eq_none (hs : s.WellFormed) (ht : ∀ id ∈ s.ownInstructions, s.IsTimely id) :
    s.firstClash? s.sortedWaits = none ↔ s.WaitsApart := by
  have h := firstClash?_sortedWaits ht (hs.instructions.nodup .shot)
  rw [← not_iff_not, ← ne_eq, h]
  unfold WaitsApart
  simp only [Classical.not_forall, Classical.not_not, exists_prop]

theorem firstClash?_stopped (time : Float) :
    (s.stopped time).firstClash? (s.stopped time).sortedWaits = s.firstClash? s.sortedWaits := by
  have hsame : (s.stopped time).isSimultaneous = s.isSimultaneous := rfl
  exact firstClash?_congr hsame s.sortedWaits

/-- What is known of a shot before it is stopped. -/
structure Stoppable (s : Shot) : Prop where
  wellFormed : s.WellFormed
  phase : s.phase = .addInstructions
  marked : s.MarkedUpTo
  untimed : ∀ id i, s.instruction? id = some i → i.converted = false ∧ i.timing = {}

theorem Grown.stoppable {raw : Bool} (h : s.Grown raw) (hp : s.phase = .addInstructions) :
    s.Stoppable where
  wellFormed := h.wellFormed
  phase := hp
  marked := h.markedUpTo
  untimed := h.untimedEarly (by rw [hp]; decide)

theorem Stoppable.not_called (hs : s.Stoppable) (r : NodeRef) {o : Operation}
    (ho : Phase.addInstructions.rank < o.phase.rank) : s.calls.called r o = false := by
  rw [← Bool.not_eq_true]
  intro hc
  have := hs.marked r o hc
  rw [hs.phase] at this
  omega

end Shot

namespace Compile
open Shot

/-- Stopping a shot up to the validation. -/
def resolve (time : Float) : Compile Unit := do
  check fun s => s.checkPhase .shot .stop
  setStopTime time
  nextPhase
  convertTiming

/-- The validation of a timed shot, and its verdict. -/
def judge : Compile Unit := do
  nextPhase
  checkInstructions
  checkAllCalled
  conclude

theorem stop_eq (time : Float) : stop time = (do resolve time; judge) := by
  simp [stop, resolve, judge]

variable {p : Progress} {time : Float}

private theorem ready_of_stoppable (h : p.shot.Stoppable) (time : Float) :
    Ready (p.shot.stopped time).orderedWaits (p.shot.descendantInstructions .shot true) where
  phase := rfl
  fresh id _ := h.not_called _ (by decide)
  there id hid := h.wellFormed.mem_allInstructions.mp hid
  fit := h.wellFormed.instructions_fit
  nodup := h.wellFormed.nodup_descendantInstructions .shot true

private theorem run_setStopTime (hp : p.shot.phase = .addInstructions) :
    ((do check fun s => s.checkPhase .shot .stop; setStopTime time) : Compile Unit).run p =
      match p.shot.firstAfter? time with
      | some id => .error (.structural
          (.stopBeforeEnd time p.shot.title (p.shot.subject (.instruction id)))) p
      | none => .ok () { p with shot := { p.shot with stopTime := time } } := by
  have hc : p.shot.checkPhase .shot .stop = .ok () := checkPhase_eq_ok.mpr hp.symm
  rw [EStateM.run_bind, run_check, hc]
  simp only [setStopTime, EStateM.run_bind, run_shot]
  cases p.shot.firstAfter? time <;> rfl

/-- A stop time before the end of an instruction is refused. -/
theorem run_resolve_late (h : p.shot.Stoppable) (ht : ¬ p.shot.EndsBy time) :
    ∃ id, p.shot.firstAfter? time = some id ∧ (resolve time).run p = .error (.structural
      (.stopBeforeEnd time p.shot.title (p.shot.subject (.instruction id)))) p := by
  rw [← firstAfter?_eq_none] at ht
  obtain ⟨id, hid⟩ := Option.ne_none_iff_exists'.mp ht
  have hassoc : resolve time =
      (do check fun s => s.checkPhase .shot .stop; setStopTime time) >>= fun _ =>
        nextPhase >>= fun _ => convertTiming := by simp [resolve]
  rw [hassoc, EStateM.run_bind, run_setStopTime h.phase, hid]
  exact ⟨id, rfl, rfl⟩

/-- Otherwise the stop goes on with the conversion. -/
theorem run_resolve (h : p.shot.Stoppable) (ht : p.shot.EndsBy time) :
    ∃ messages, (resolve time).run p = convertTiming.run ⟨p.shot.stopped time, messages⟩ := by
  have hassoc : resolve time =
      (do check fun s => s.checkPhase .shot .stop; setStopTime time) >>= fun _ =>
        nextPhase >>= fun _ => convertTiming := by simp [resolve]
  have hadv : p.shot.calls.advance? = some { p.shot.calls with phase := .convertTiming } := by
    have hp' : p.shot.calls.phase = .addInstructions := h.phase
    simp [Calls.advance?, hp', Phase.next?]
  obtain ⟨messages, hnext⟩ := run_nextPhase (p := ⟨{ p.shot with stopTime := time }, p.messages⟩)
    (firstMissing?_addInstructions h.phase) hadv
  refine ⟨messages, ?_⟩
  rw [hassoc, EStateM.run_bind, run_setStopTime h.phase, firstAfter?_eq_none.mpr ht]
  dsimp only
  rw [EStateM.run_bind, hnext]
  rfl

/-! ## Converting the timing -/

private theorem run_collectWaits (hp : p.shot.phase = .convertTiming) :
    ((do check fun s => s.checkPhase .shot .convertTiming; collectWaits) : Compile Unit).run p =
      match p.shot.firstClash? p.shot.sortedWaits with
      | some (a, b) => .error (.structural (.duplicateWait (p.shot.subject (.instruction a))
          (p.shot.subject (.instruction b)))) ⟨p.shot.orderedWaits, p.messages⟩
      | none => .ok () ⟨p.shot.orderedWaits, p.messages⟩ := by
  have hc : p.shot.checkPhase .shot .convertTiming = .ok () := checkPhase_eq_ok.mpr hp.symm
  have hclash : p.shot.orderedWaits.firstClash? p.shot.sortedWaits =
      p.shot.firstClash? p.shot.sortedWaits := by
    rw [firstClash?_congr (show p.shot.orderedWaits.isSimultaneous = p.shot.isSimultaneous from rfl)]
  rw [EStateM.run_bind, run_check, hc]
  simp only [collectWaits, EStateM.run_bind, run_modifyShot, run_shot]
  rw [show ({ p.shot with waits := p.shot.sortedWaits.toArray } : Shot) = p.shot.orderedWaits from rfl,
    hclash]
  cases p.shot.firstClash? p.shot.sortedWaits <;> rfl

private theorem convertTiming_eq : convertTiming =
    (do check fun s => s.checkPhase .shot .convertTiming; collectWaits) >>= fun _ =>
      shot >>= fun s =>
        (if s.settings.batch then convertTogether s.waitTimes (s.descendantInstructions .shot true)
          else (s.descendantInstructions .shot true).forM fun id => convert id s.waitTimes) >>= fun _ =>
        modifyShot Shot.sortOutputs := by
  simp only [convertTiming, bind_assoc]
  congr
  funext _
  congr
  funext _
  congr
  funext s
  split <;> rfl

/-- The conversion refuses waits that clash, and then goes over all instructions. -/
theorem run_convertTiming (hp : p.shot.phase = .convertTiming) :
    convertTiming.run p =
      match p.shot.firstClash? p.shot.sortedWaits with
      | some (a, b) => .error (.structural (.duplicateWait (p.shot.subject (.instruction a))
          (p.shot.subject (.instruction b)))) ⟨p.shot.orderedWaits, p.messages⟩
      | none => match ((if p.shot.settings.batch then
            convertTogether p.shot.sortedTimes (p.shot.descendantInstructions .shot true)
          else (p.shot.descendantInstructions .shot true).forM fun id =>
            convert id p.shot.sortedTimes) : Compile Unit).run ⟨p.shot.orderedWaits, p.messages⟩ with
        | .ok _ q => .ok () { q with shot := q.shot.sortOutputs }
        | .error e q => .error e q := by
  rw [convertTiming_eq, EStateM.run_bind, run_collectWaits hp]
  cases p.shot.firstClash? p.shot.sortedWaits with
  | some ab => rfl
  | none =>
    simp only [EStateM.run_bind, run_shot]
    have hwaits : p.shot.orderedWaits.waitTimes = p.shot.sortedTimes := rfl
    have hids : p.shot.orderedWaits.descendantInstructions .shot true =
        p.shot.descendantInstructions .shot true := rfl
    have hbatch : p.shot.orderedWaits.settings.batch = p.shot.settings.batch := rfl
    rw [hwaits, hids, hbatch]
    simp only [run_modifyShot]
    split <;> simp_all

variable (h : p.shot.Stoppable) (ht : p.shot.EndsBy time)
include h ht

/-- Two waits at the same time are refused. -/
theorem run_resolve_clash (hw : ¬ p.shot.WaitsApart) :
    ∃ a b messages, p.shot.firstClash? p.shot.sortedWaits = some (a, b) ∧
      (resolve time).run p = .error (.structural (.duplicateWait (p.shot.subject (.instruction a))
        (p.shot.subject (.instruction b)))) ⟨(p.shot.stopped time).orderedWaits, messages⟩ := by
  obtain ⟨messages, hrun⟩ := run_resolve h ht
  have hclash : p.shot.firstClash? p.shot.sortedWaits ≠ none :=
    mt (h.wellFormed.firstClash?_eq_none (isTimely_of_endsBy h.wellFormed ht)).mp hw
  obtain ⟨⟨a, b⟩, hab⟩ := Option.ne_none_iff_exists'.mp hclash
  rw [hrun, run_convertTiming rfl, firstClash?_stopped, hab]
  exact ⟨a, b, messages, rfl, rfl⟩

private theorem run_resolve_apart (hw : p.shot.WaitsApart) :
    (p.shot.AllFit ∧
        ∃ messages, (resolve time).run p = .ok () ⟨(p.shot.stopped time).timed, messages⟩) ∨
      (¬ p.shot.AllFit ∧ ∃ f q, (resolve time).run p = .error (.quantisation f) q) := by
  obtain ⟨messages, hrun⟩ := run_resolve h ht
  have hclash := (h.wellFormed.firstClash?_eq_none (isTimely_of_endsBy h.wellFormed ht)).mpr hw
  have hmem : ∀ id i, p.shot.instruction? id = some i → id ∈ p.shot.descendantInstructions .shot true :=
    fun id i hi => h.wellFormed.mem_allInstructions.mpr (instruction?_eq_some hi)
  rw [hrun, run_convertTiming rfl, firstClash?_stopped, hclash]
  dsimp only
  have hready := ready_of_stoppable h time
  rcases run_conversion (p := ⟨(p.shot.stopped time).orderedWaits, messages⟩)
    (p.shot.stopped time).sortedTimes hready (p.shot.stopped time).settings.batch with
    ⟨hfit, hconv⟩ | ⟨⟨id, hid, i, hi, hnot⟩, f, q, hconv⟩
  · refine .inl ⟨fun id i hi => hfit id (hmem id i hi) i hi, messages, ?_⟩
    have hids : (p.shot.stopped time).descendantInstructions .shot true =
        p.shot.descendantInstructions .shot true := rfl
    rw [hids, hconv]
    rfl
  · refine .inr ⟨fun hall => hnot (hall id i hi), f, q, ?_⟩
    have hids : (p.shot.stopped time).descendantInstructions .shot true =
        p.shot.descendantInstructions .shot true := rfl
    rw [hids, hconv]

/-- An instruction without a place is a quantisation fault. -/
theorem run_resolve_misfit (hw : p.shot.WaitsApart) (hf : ¬ p.shot.AllFit) :
    ∃ f q, (resolve time).run p = .error (.quantisation f) q := by
  rcases run_resolve_apart h ht hw with ⟨hfit, -⟩ | ⟨-, hrun⟩
  · exact absurd hfit hf
  · exact hrun

/-- Otherwise the shot is timed. -/
theorem run_resolve_fit (hw : p.shot.WaitsApart) (hf : p.shot.AllFit) :
    ∃ messages, (resolve time).run p = .ok () ⟨(p.shot.stopped time).timed, messages⟩ := by
  rcases run_resolve_apart h ht hw with ⟨-, hrun⟩ | ⟨hfit, -⟩
  · exact hrun
  · exact absurd hf hfit

end Compile

end ShotTiming
