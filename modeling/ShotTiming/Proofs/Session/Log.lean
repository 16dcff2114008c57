import ShotTiming.Proofs.Session

/-! # The log has no influence

Commands read neither the threshold nor the log. What a command answers, what it does to the rest of a
session and which messages it sends is the same at every threshold, which only decides what of them is
kept. -/
namespace ShotTiming

namespace Level

theorem admits_iff {threshold level : Level} : threshold.admits level ↔ threshold.rank ≤ level.rank := by
  cases threshold <;> cases level <;> decide

/-- The messages that a threshold keeps. -/
def kept (threshold : Level) (sent : Array Message) : Array Message :=
  sent.filter fun m => threshold.rank ≤ m.level.rank

@[simp] theorem kept_empty (threshold : Level) : threshold.kept #[] = #[] := rfl

theorem kept_append (threshold : Level) (a b : Array Message) :
    threshold.kept (a ++ b) = threshold.kept a ++ threshold.kept b := by simp [kept]

theorem filter_admits (threshold : Level) (sent : Array Message) :
    sent.filter (threshold.admits ·.level) = threshold.kept sent := by
  unfold kept
  congr 1
  funext m
  rw [Bool.eq_iff_iff, admits_iff, decide_eq_true_iff]

/-- The lowest threshold keeps every message. -/
theorem kept_debug (sent : Array Message) : debug.kept sent = sent := by
  simp [kept, rank]

end Level

namespace Session

/-- The session with another threshold and another log. -/
def hearing (s : Session) (threshold : Level) (log : Array Message) : Session := { s with threshold, log }

variable (s : Session) (threshold : Level) (log : Array Message)

theorem device?_hearing (p : Place) : (s.hearing threshold log).device? p = s.device? p := by
  cases p <;> rfl

theorem instruction?_hearing (p : Place) : (s.hearing threshold log).instruction? p = s.instruction? p := by
  cases p <;> rfl

theorem subject?_hearing (p : Place) : (s.hearing threshold log).subject? p = s.subject? p := by
  cases p <;> rfl

theorem swapReports_hearing (k : Nat) :
    (s.hearing threshold log).swapReports k = (s.swapReports k).hearing threshold log := by
  have hshot : (s.hearing threshold log).shot? k = s.shot? k := rfl
  unfold swapReports
  rw [hshot]
  cases s.shot? k <;> rfl

/-- A session takes over a step, except for its messages. -/
def takeOver (s : Session) (k : Nat) (p : Progress) : Session :=
  { s with shots := s.shots.setIfInBounds k p.shot }

theorem absorb_hearing (k : Nat) (p : Progress) : (s.hearing threshold log).absorb k p =
    (s.takeOver k p).hearing threshold (log ++ threshold.kept p.messages) :=
  congrArg (fun sent => (s.takeOver k p).hearing threshold (log ++ sent)) (threshold.filter_admits p.messages)

end Session

namespace Act
open Session

variable {α β : Type}

/-- How an action ends, from its answer and the session that it leaves. -/
def ending (answer : Except Fault α) (s : Session) : EStateM.Result Fault Session α :=
  match answer with
  | .ok a => .ok a s
  | .error e => .error e s

/-- What an action answers, leaves and sends does not depend on the threshold and the log. -/
def IgnoresLog (x : Act α) : Prop :=
  ∀ s : Session, ∃ (answer : Except Fault α) (s' : Session) (sent : Array Message), ∀ threshold log,
    x.run (s.hearing threshold log) = ending answer (s'.hearing threshold (log ++ threshold.kept sent))

namespace IgnoresLog

/-- An action that sends nothing. -/
theorem of_silent {x : Act α}
    (h : ∀ s : Session, ∃ (answer : Except Fault α) (s' : Session), ∀ threshold log,
      x.run (s.hearing threshold log) = ending answer (s'.hearing threshold log)) : IgnoresLog x := by
  intro s
  obtain ⟨answer, s', hx⟩ := h s
  exact ⟨answer, s', #[], fun threshold log => by simpa using hx threshold log⟩

theorem pure (a : α) : IgnoresLog (Pure.pure a : Act α) := of_silent fun s => ⟨.ok a, s, fun _ _ => rfl⟩

theorem throw (e : Fault) : IgnoresLog (MonadExcept.throw e : Act α) :=
  of_silent fun s => ⟨.error e, s, fun _ _ => rfl⟩

theorem of_modify {f : Session → Session}
    (hf : ∀ s threshold log, f (s.hearing threshold log) = (f s).hearing threshold log) :
    IgnoresLog (modify f : Act Unit) :=
  of_silent fun s => ⟨.ok (), f s, fun threshold log => congrArg (EStateM.Result.ok ()) (hf s threshold log)⟩

theorem bind {x : Act α} {f : α → Act β} (hx : IgnoresLog x) (hf : ∀ a, IgnoresLog (f a)) :
    IgnoresLog (x >>= f) := by
  intro s
  obtain ⟨answer, s', sent, hx⟩ := hx s
  cases answer with
  | error e =>
    refine ⟨.error e, s', sent, fun threshold log => ?_⟩
    rw [EStateM.run_bind, hx]
    rfl
  | ok a =>
    obtain ⟨answer', s'', sent', hf⟩ := hf a s'
    refine ⟨answer', s'', sent ++ sent', fun threshold log => ?_⟩
    rw [EStateM.run_bind, hx, Level.kept_append, ← Array.append_assoc]
    exact hf threshold _

/-- What is read of a session must not be its threshold or its log. -/
theorem look {g : Session → β} {f : β → Act α}
    (hg : ∀ s threshold log, g (s.hearing threshold log) = g s) (hf : ∀ b, IgnoresLog (f b)) :
    IgnoresLog (MonadState.get >>= fun s => f (g s)) := by
  intro s
  obtain ⟨answer, s', sent, h⟩ := hf (g s) s
  refine ⟨answer, s', sent, fun threshold log => ?_⟩
  rw [← h threshold log]
  exact congrArg (fun b => (f b).run (s.hearing threshold log)) (hg s threshold log)

/-- What is put into a session is answered with its number. -/
theorem numbered (size : Session → Nat) (reply : Nat → α) {f : Session → Session}
    (hsize : ∀ s threshold log, size (s.hearing threshold log) = size s)
    (hf : ∀ s threshold log, f (s.hearing threshold log) = (f s).hearing threshold log) :
    IgnoresLog (do
      let n := size (← get)
      modify f
      return reply n) :=
  look (g := size) (f := fun n => do modify f; return reply n) hsize fun _ =>
    (of_modify hf).bind fun _ => pure _

theorem found (o : Option α) : IgnoresLog (found o) := by
  cases o with
  | none => exact throw _
  | some a => exact pure a

theorem usable (x : Except UseFault α) : IgnoresLog (usable x) := by
  cases x with
  | error e => exact throw _
  | ok a => exact pure a

theorem shot (k : Nat) : IgnoresLog (shot k) := look (g := (·.shot? k)) (fun _ _ _ => rfl) found

theorem subject (p : Place) : IgnoresLog (subject p) :=
  look (g := (·.subject? p)) (fun s t l => s.subject?_hearing t l p) found

/-- A step sends its messages, of which the threshold keeps some. -/
theorem onShot (k : Nat) (step : Compile α) : IgnoresLog (onShot k step) := by
  intro s
  have hrun := fun threshold log => run_onShot k step (s.hearing threshold log)
  have hshot : ∀ threshold log, (s.hearing threshold log).shot? k = s.shot? k := fun _ _ => rfl
  cases ha : s.shot? k with
  | none =>
    refine ⟨.error (.use .noSuchNode), s, #[], fun threshold log => ?_⟩
    rw [hrun, hshot, ha, Level.kept_empty, Array.append_empty]
    rfl
  | some a =>
    cases hp : step.run ⟨a, #[]⟩ with
    | ok x p =>
      refine ⟨.ok x, s.takeOver k p, p.messages, fun threshold log => ?_⟩
      rw [hrun, hshot, ha]
      simp only [hp, absorb_hearing]
      rfl
    | error e p =>
      refine ⟨.error e, s.takeOver k p, p.messages, fun threshold log => ?_⟩
      rw [hrun, hshot, ha]
      simp only [hp, absorb_hearing]
      rfl

theorem build (k : Nat) (step : Build Unit) : IgnoresLog (build k step) := by
  refine (shot k).bind fun a => ?_
  have hput (b : Shot) : IgnoresLog (putShot k b) := of_modify fun _ _ _ => rfl
  cases step.run a with
  | ok _ b => exact hput b
  | error e b => exact (hput b).bind fun _ => throw e

theorem hostIn (k : Nat) (p : Place) : IgnoresLog (hostIn k p) := by
  refine (shot k).bind fun here => ?_
  have foreign : IgnoresLog
      (do MonadExcept.throw (.structural (.foreignNode (← Act.subject p) here.title)) : Act Host) :=
    (subject p).bind fun _ => throw _
  cases p with
  | shot j => exact iteInduction (fun _ => pure _) fun _ => foreign
  | device j id => exact iteInduction (fun _ => pure _) fun _ => foreign
  | looseDevice n => exact foreign
  | instruction | looseInstruction => exact throw _

theorem addDevice (k : Nat) (parent : Place) (d : Device) (site : Site) :
    IgnoresLog (addDevice k parent d site) :=
  (shot k).bind fun _ => (hostIn k parent).bind fun _ => (build k _).bind fun _ => pure _

theorem addInstruction (k : Nat) (owner : Place) (i : Instruction) (site : Site) :
    IgnoresLog (addInstruction k owner i site) :=
  (shot k).bind fun _ => (hostIn k owner).bind fun _ => (build k _).bind fun _ => pure _

theorem finish {x : Act α} {f : Session → Session} (hx : IgnoresLog x)
    (hf : ∀ s threshold log, f (s.hearing threshold log) = (f s).hearing threshold log) :
    IgnoresLog (try x finally modify f) := by
  intro s
  obtain ⟨answer, s', sent, hx⟩ := hx s
  refine ⟨answer, f s', sent, fun threshold log => ?_⟩
  have hmod : ∀ t, (modify f : Act Unit) t = .ok () (f t) := fun _ => rfl
  have hrun : x (s.hearing threshold log) = _ := hx threshold log
  simp only [tryFinally, EStateM.run, MonadFinally.tryFinally', Functor.map, EStateM.map, hrun]
  cases answer <;> simp [ending, hmod, hf]

theorem attachDevice (k : Nat) (parent : Place) (n : Nat) (site : Site) :
    IgnoresLog (attachDevice k parent n site) := by
  have hread : IgnoresLog (do Act.found ((← get).device? (.looseDevice n))) :=
    look (g := (·.device? (.looseDevice n))) (fun s t l => s.device?_hearing t l _) found
  exact hread.bind fun d => (addDevice k parent d site).finish fun _ _ _ => rfl

theorem attachInstruction (k : Nat) (owner : Place) (n : Nat) (site : Site) :
    IgnoresLog (attachInstruction k owner n site) := by
  have hread : IgnoresLog (do Act.found ((← get).instruction? (.looseInstruction n))) :=
    look (g := (·.instruction? (.looseInstruction n))) (fun s t l => s.instruction?_hearing t l _) found
  exact hread.bind fun i => (addInstruction k owner i site).finish fun _ _ _ => rfl

theorem attached (p : Place) : IgnoresLog (attached p) := by
  cases p with
  | device k id => exact pure _
  | looseDevice n => exact (subject _).bind fun _ => throw _
  | shot | instruction | looseInstruction => exact throw _

theorem configure (p : Place) (change : Device → String → Except UseFault Device) :
    IgnoresLog (configure p change) := by
  cases p with
  | device k id => exact build k _
  | looseDevice n =>
    have hread : IgnoresLog (do Act.found ((← get).device? (.looseDevice n))) :=
      look (g := (·.device? (.looseDevice n))) (fun s t l => s.device?_hearing t l _) found
    exact hread.bind fun d => (usable _).bind fun d' => of_modify fun _ _ _ => rfl
  | shot | instruction | looseInstruction => exact throw _

theorem pass (p : Place) (whole : Compile Unit) (single : Pass) : IgnoresLog (pass p whole single) := by
  cases p with
  | shot k => exact onShot k whole
  | device k id => exact onShot k (single.runAt id)
  | instruction | looseDevice | looseInstruction => exact throw _

theorem checkDevice (k id : Nat) : IgnoresLog (checkDevice k id) := by
  intro s
  obtain ⟨answer, s', sent, h⟩ := onShot k (checkPass.runAt id) (s.swapReports k)
  refine ⟨answer, s'.swapReports k, sent, fun threshold log => ?_⟩
  have hrun : Act.onShot k (checkPass.runAt id) ((s.hearing threshold log).swapReports k) =
      ending answer (s'.hearing threshold (log ++ threshold.kept sent)) := by
    rw [swapReports_hearing]
    exact h threshold log
  rw [EStateM.run, Act.checkDevice, hrun, ← swapReports_hearing]
  cases answer <;> rfl

end IgnoresLog

end Act

/-! ## Scripts -/

/-- A command that sets the threshold of the log. -/
def Command.setsThreshold : Command → Bool
  | .setThreshold _ => true
  | _ => false

namespace Session
open Act

theorem ignoresLog_perform (c : Command) (hc : c.setsThreshold = false) : IgnoresLog (perform c) := by
  cases c with
  | openShot name settings site =>
    simp only [perform]
    cases Shot.new? name settings site with
    | error f => exact .throw _
    | ok shot =>
      refine .numbered (·.shots.size) (fun k => Reply.placed (.shot k)) (fun _ _ _ => rfl) ?_
      exact fun _ _ _ => rfl
  | makeDevice draft =>
    refine (IgnoresLog.usable _).bind fun d => ?_
    refine .numbered (·.looseDevices.size) (fun n => Reply.placed (.looseDevice n)) (fun _ _ _ => rfl) ?_
    exact fun _ _ _ => rfl
  | attachDevice k parent n site => exact (IgnoresLog.attachDevice k parent n site).bind fun _ => .pure _
  | addDevice k parent draft site =>
    exact (IgnoresLog.usable _).bind fun d => (IgnoresLog.addDevice k parent d site).bind fun _ => .pure _
  | makeInstruction draft =>
    refine (IgnoresLog.usable _).bind fun i => ?_
    refine .numbered (·.looseInstructions.size) (fun n => Reply.placed (.looseInstruction n))
      (fun _ _ _ => rfl) ?_
    exact fun _ _ _ => rfl
  | attachInstruction k owner n site =>
    exact (IgnoresLog.attachInstruction k owner n site).bind fun _ => .pure _
  | addInstruction k owner draft site =>
    exact (IgnoresLog.usable _).bind fun i => (IgnoresLog.addInstruction k owner i site).bind fun _ => .pure _
  | issue output draft site =>
    exact (IgnoresLog.attached output).bind fun _ => (IgnoresLog.usable _).bind fun i =>
      (IgnoresLog.addInstruction _ output i site).bind fun _ => .pure _
  | pulse trigger time duration site =>
    exact (IgnoresLog.attached trigger).bind fun _ => (IgnoresLog.build _ _).bind fun _ =>
      (IgnoresLog.shot _).bind fun _ => .pure _
  | setOutputDelay p x => exact (IgnoresLog.configure p _).bind fun _ => .pure _
  | setInitialTrigger p x => exact (IgnoresLog.configure p _).bind fun _ => .pure _
  | start k => exact (IgnoresLog.onShot k _).bind fun _ => .pure _
  | stop k time => exact (IgnoresLog.onShot k _).bind fun _ => .pure _
  | nextPhase k => exact (IgnoresLog.onShot k _).bind fun _ => .pure _
  | establishLimits p => exact (IgnoresLog.pass p _ _).bind fun _ => .pure _
  | establishAttributes p => exact (IgnoresLog.pass p _ _).bind fun _ => .pure _
  | checkInstructions p =>
    cases p with
    | device k id => exact (IgnoresLog.checkDevice k id).bind fun _ => .pure _
    | shot | instruction | looseDevice | looseInstruction =>
      exact (IgnoresLog.pass _ _ _).bind fun _ => .pure _
  | convertTiming k p =>
    cases p with
    | shot j => exact (IgnoresLog.onShot j _).bind fun _ => .pure _
    | instruction j id =>
      exact (IgnoresLog.shot k).bind fun _ => (IgnoresLog.onShot j _).bind fun _ => .pure _
    | device | looseDevice | looseInstruction => exact (IgnoresLog.throw _).bind fun _ => .pure _
  | convertAmong waits p =>
    cases p with
    | instruction j id => exact (IgnoresLog.onShot j _).bind fun _ => .pure _
    | shot | device | looseDevice | looseInstruction => exact (IgnoresLog.throw _).bind fun _ => .pure _
  | enterCall k p o | checkPhase k p o | checkCalled k p | advance k p =>
    exact (IgnoresLog.subject p).bind fun _ => (IgnoresLog.onShot k _).bind fun _ => .pure _
  | setThreshold level => cases hc
  | addViolation code p message =>
    refine (IgnoresLog.subject p).bind fun _ => .bind (.of_modify fun _ _ _ => rfl) fun _ => ?_
    exact .look (g := (·.report.size)) (fun _ _ _ => rfl) fun _ => .pure _
  | clearReport => exact .bind (.of_modify fun _ _ _ => rfl) fun _ => .pure _
  | raiseReport => exact .look (g := (·.report)) (fun _ _ _ => rfl) fun _ => .throw _

/-- The answer to a command. -/
def answer (s : Session) (c : Command) : Except Fault Reply :=
  match (perform c).run s with
  | .ok r _ => .ok r
  | .error e _ => .error e

/-- The answers to a list of commands, of which each is carried out whatever became of those before it. -/
def answers (s : Session) : List Command → List (Except Fault Reply)
  | [] => []
  | c :: cs => s.answer c :: (s.carryOut c).answers cs

/-- Two sessions are the same up to the threshold and the log. -/
def SameButLog (s t : Session) : Prop := s.hearing t.threshold t.log = t

variable {cs : List Command}

/-- What a list of commands answers, leaves and sends is the same at every threshold. -/
theorem exists_sent (h : ∀ c ∈ cs, c.setsThreshold = false) (s : Session) :
    ∃ (answers : List (Except Fault Reply)) (s' : Session) (sent : Array Message), ∀ threshold log,
      (s.hearing threshold log).answers cs = answers ∧
      cs.foldl carryOut (s.hearing threshold log) = s'.hearing threshold (log ++ threshold.kept sent) := by
  induction cs generalizing s with
  | nil => exact ⟨[], s, #[], fun threshold log => ⟨rfl, by simp⟩⟩
  | cons c cs ih =>
    obtain ⟨hc, hcs⟩ := List.forall_mem_cons.mp h
    obtain ⟨first, s₁, sent₁, hrun⟩ := ignoresLog_perform c hc s
    obtain ⟨others, s₂, sent₂, hothers⟩ := ih hcs s₁
    have hanswer : ∀ threshold log, (s.hearing threshold log).answer c = first := fun threshold log => by
      rw [answer, hrun]
      cases first <;> rfl
    have hcarry : ∀ threshold log, (s.hearing threshold log).carryOut c =
        s₁.hearing threshold (log ++ threshold.kept sent₁) := fun threshold log => by
      rw [carryOut, after, hrun]
      cases first <;> rfl
    refine ⟨first :: others, s₂, sent₁ ++ sent₂, fun threshold log => ?_⟩
    obtain ⟨hrest, hend⟩ := hothers threshold (log ++ threshold.kept sent₁)
    constructor
    · rw [answers, hanswer, hcarry, hrest]
    · rw [List.foldl_cons, hcarry, hend, Level.kept_append, Array.append_assoc]

/-- A script that leaves the threshold alone is answered alike at any two thresholds and leaves sessions that
are the same up to the log. The log at a threshold is what the log at the lowest one has of its level or
above. -/
theorem sameButLog_of_script (h : ∀ c ∈ cs, c.setsThreshold = false) (s : Session) (level level' : Level) :
    (s.hearing level #[]).answers cs = (s.hearing level' #[]).answers cs ∧
    SameButLog (cs.foldl carryOut (s.hearing level #[])) (cs.foldl carryOut (s.hearing level' #[])) ∧
    (cs.foldl carryOut (s.hearing level #[])).log =
      (cs.foldl carryOut (s.hearing .debug #[])).log.filter fun m => level.rank ≤ m.level.rank := by
  obtain ⟨answers, s', sent, hrun⟩ := exists_sent h s
  obtain ⟨hanswers, hend⟩ := hrun level #[]
  obtain ⟨hanswers', hend'⟩ := hrun level' #[]
  refine ⟨hanswers.trans hanswers'.symm, ?_, ?_⟩
  · rw [hend, hend']
    rfl
  · rw [hend, (hrun .debug #[]).2, Array.empty_append, Array.empty_append, Level.kept_debug]
    rfl

/-- A point within a ramp, and a ramp that starts before the clock. -/
private def noisy : List Command := bench ++ [
  .issue (.device 0 4) (.function 0 100 (some (polynomial [0, 1])) 0.1) {},
  .issue (.device 0 4) (.constant 50 1) {},
  .issue (.device 0 5) (.constant (-20) 1) {},
  .stop 0 200]

/-- The levels of what is logged in the end. -/
private def levels (cs : List Command) (s : Session) : List Level :=
  (cs.foldl carryOut s).log.toList.map (·.level)

theorem sameButLog_of_noisy : (∀ c ∈ noisy, c.setsThreshold = false) ∧
    levels noisy (({} : Session).hearing .warn #[]) = [.warn, .error] ∧
    SameButLog (noisy.foldl carryOut (({} : Session).hearing .warn #[]))
      (noisy.foldl carryOut (({} : Session).hearing .force #[])) := by
  have hthreshold : ∀ c ∈ noisy, c.setsThreshold = false := by decide
  obtain ⟨-, hsame, -⟩ := sameButLog_of_script hthreshold {} .warn .force
  exact ⟨hthreshold, by decide +kernel, hsame⟩

end Session
end ShotTiming
