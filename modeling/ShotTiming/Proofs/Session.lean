import ShotTiming.Proofs.Compile.Changes
import ShotTiming.Session

/-! # Sessions change shots as described

A command of a session, whether it succeeds or fails, leaves every shot alone or takes it along
changes, and opens shots without nodes. Reachable shots are those some sequence of commands leads to.
-/
namespace ShotTiming
open Relation

/-- A command that enters a call or leaves a phase by itself. -/
def Command.isRaw : Command → Bool
  | .enterCall .. | .advance .. => true
  | _ => false

namespace Session

/-- The session after a command, also after one that failed. -/
def carryOut (s : Session) (c : Command) : Session := after (perform c) s

/-- One command leads from a session to another. -/
def Next (raw : Bool) (s s' : Session) : Prop :=
  ∃ c : Command, (raw ∨ c.isRaw = false) ∧ s' = s.carryOut c

def Reachable (raw : Bool) (s : Session) : Prop := ReflTransGen (Next raw) {} s

/-- The nodes that belong to no shot are as they were made. -/
structure KeepsLoose (s : Session) : Prop where
  device : ∀ {n : Nat} {d : Device}, s.looseDevices[n]? = some (some d) → d.IsLoose
  instruction : ∀ {n : Nat} {i : Instruction}, s.looseInstructions[n]? = some (some i) → i.IsLoose

/-- A shot stays and changes, or opens and changes. -/
structure Grows (raw : Bool) (o o' : Option Shot) : Prop where
  stays : ∀ a, o = some a → ∃ b, o' = some b ∧ ReflTransGen (Shot.Change raw) a b
  opens : ∀ b, o = none → o' = some b → ∃ a : Shot, a.IsNew ∧ ReflTransGen (Shot.Change raw) a b

/-- Every shot stays and changes or opens, as long as loose nodes are as they were made. -/
def Leads (raw : Bool) (s s' : Session) : Prop :=
  s.KeepsLoose → s'.KeepsLoose ∧ ∀ k, Grows raw (s.shot? k) (s'.shot? k)

variable {raw : Bool} {s s' s'' : Session}

theorem Grows.refl (o : Option Shot) : Grows raw o o where
  stays a h := ⟨a, h, .refl⟩
  opens b h h' := by
    rw [h] at h'
    cases h'

theorem Grows.trans {o o' o'' : Option Shot} (h : Grows raw o o') (h' : Grows raw o' o'') :
    Grows raw o o'' where
  stays a ha := by
    obtain ⟨b, hb, hab⟩ := h.stays a ha
    obtain ⟨c, hc, hbc⟩ := h'.stays b hb
    exact ⟨c, hc, hab.trans hbc⟩
  opens c ho hc := by
    cases ho' : o' with
    | none => exact h'.opens c ho' hc
    | some b =>
      obtain ⟨a, ha, hab⟩ := h.opens b ho ho'
      obtain ⟨c', hc', hbc⟩ := h'.stays b ho'
      cases hc.symm.trans hc'
      exact ⟨a, ha, hab.trans hbc⟩

theorem Leads.refl (s : Session) : Leads raw s s := fun h => ⟨h, fun _ => .refl _⟩

theorem Leads.trans (h : Leads raw s s') (h' : Leads raw s' s'') : Leads raw s s'' := by
  intro hl
  obtain ⟨hl', hg⟩ := h hl
  obtain ⟨hl'', hg'⟩ := h' hl'
  exact ⟨hl'', fun k => (hg k).trans (hg' k)⟩

/-- Only one shot changes. -/
theorem Leads.of_setShot {k : Nat} {a b : Shot} (ha : s.shot? k = some a)
    (hab : s.KeepsLoose → ReflTransGen (Shot.Change raw) a b)
    (hs : s'.shots = s.shots.setIfInBounds k b) (hd : s'.looseDevices = s.looseDevices)
    (hi : s'.looseInstructions = s.looseInstructions) : Leads raw s s' := by
  intro hl
  refine ⟨⟨fun h => hl.device (hd ▸ h), fun h => hl.instruction (hi ▸ h)⟩, fun j => ?_⟩
  unfold shot? at ha ⊢
  by_cases hj : k = j
  · subst hj
    have hk : k < s.shots.size := (Array.getElem?_eq_some_iff.mp ha).1
    have hb : s'.shots[k]? = some b := by simp [hs, hk]
    rw [ha, hb]
    refine ⟨fun c hc => ⟨b, rfl, ?_⟩, fun _ hc => absurd hc (by simp)⟩
    cases hc
    exact hab hl
  · have hsame : s'.shots[j]? = s.shots[j]? := by rw [hs, Array.getElem?_setIfInBounds_ne hj]
    rw [hsame]
    exact .refl _

/-- The shots are left alone. -/
theorem Leads.of_shots (hs : s'.shots = s.shots) (hl : s.KeepsLoose → s'.KeepsLoose) :
    Leads raw s s' := by
  intro h
  refine ⟨hl h, fun k => ?_⟩
  rw [shot?, shot?, hs]
  exact .refl _

end Session

namespace Act
open Session

variable {α β : Type} {raw : Bool}

/-- A change of a session that does to its shots only what can happen to a shot. -/
def Leads (raw : Bool) (x : Act α) : Prop := ∀ s, Session.Leads raw s (after x s)

namespace Leads

theorem of_unchanged {x : Act α} (hx : ∀ s, after x s = s) : Leads raw x := by
  intro s
  rw [hx s]
  exact .refl s

theorem pure (a : α) : Leads raw (Pure.pure a : Act α) := of_unchanged fun _ => rfl

theorem throw (e : Fault) : Leads raw (MonadExcept.throw e : Act α) := of_unchanged fun _ => rfl

theorem get : Leads raw (MonadState.get : Act Session) := of_unchanged fun _ => rfl

theorem of_modify {f : Session → Session} (hf : ∀ s, Session.Leads raw s (f s)) :
    Leads raw (modify f : Act Unit) := hf

theorem bind {x : Act α} {f : α → Act β} (hx : Leads raw x) (hf : ∀ a, Leads raw (f a)) :
    Leads raw (x >>= f) := by
  intro s
  have hxs := hx s
  rw [after_bind]
  unfold after at hxs
  split at hxs
  · exact hxs.trans (hf _ _)
  · exact hxs

theorem found (o : Option α) : Leads raw (found o) := by
  cases o with
  | none => exact .throw _
  | some a => exact .pure a

theorem shot (k : Nat) : Leads raw (shot k) := Leads.get.bind fun _ => .found _

theorem subject (p : Place) : Leads raw (subject p) := Leads.get.bind fun _ => .found _

end Leads

theorem run_shot (k : Nat) (s : Session) :
    (shot k).run s =
      match s.shot? k with
      | some a => .ok a s
      | none => .error (.use .noSuchNode) s := by
  have : (shot k).run s = (found (s.shot? k)).run s := rfl
  rw [this]
  cases s.shot? k <;> rfl

theorem run_subject (p : Place) (s : Session) :
    (subject p).run s =
      match s.subject? p with
      | some a => .ok a s
      | none => .error (.use .noSuchNode) s := by
  have : (subject p).run s = (found (s.subject? p)).run s := rfl
  rw [this]
  cases s.subject? p <;> rfl

theorem run_onShot (k : Nat) (step : Compile α) (s : Session) :
    (onShot k step).run s =
      match s.shot? k with
      | none => .error (.use .noSuchNode) s
      | some a =>
        match step.run ⟨a, #[]⟩ with
        | .ok x p => .ok x (s.absorb k p)
        | .error e p => .error e (s.absorb k p) := by
  rw [onShot, EStateM.run_bind, run_shot]
  cases s.shot? k with
  | none => rfl
  | some a =>
    dsimp only
    cases step.run ⟨a, #[]⟩ <;> rfl

theorem after_onShot {k : Nat} {s : Session} {a : Shot} (ha : s.shot? k = some a) (step : Compile α) :
    after (onShot k step) s = s.absorb k (after step ⟨a, #[]⟩) := by
  unfold after
  rw [run_onShot, ha]
  cases h : step.run ⟨a, #[]⟩ <;> simp [h]

/-- A step of a compilation does to the shot what it does to a progress that starts there. -/
theorem leads_onShot (k : Nat) {step : Compile α} (h : Compile.Moves raw step) :
    Leads raw (onShot k step) := by
  intro s
  cases hk : s.shot? k with
  | none =>
    rw [after, run_onShot, hk]
    exact .refl s
  | some a =>
    rw [after_onShot hk]
    exact Session.Leads.of_setShot hk (fun _ => h ⟨a, #[]⟩) rfl rfl rfl

theorem run_build_missing {k : Nat} {s : Session} (hk : s.shot? k = none) (step : Build Unit) :
    (build k step).run s = .error (.use .noSuchNode) s := by
  rw [build, EStateM.run_bind, run_shot, hk]

/-- A step that makes its checks first leaves the session as it was if it fails. -/
theorem run_build {k : Nat} {s : Session} {a : Shot} (ha : s.shot? k = some a) {step : Build Unit}
    (hstep : step.ChecksFirst) :
    (build k step).run s =
      match step.run a with
      | .ok () b => .ok () { s with shots := s.shots.setIfInBounds k b }
      | .error e _ => .error e s := by
  rw [build, EStateM.run_bind, run_shot, ha]
  dsimp only
  cases hb : step.run a with
  | ok _ b => rfl
  | error e b =>
    -- the shot that is put back is the one that was taken
    obtain rfl : b = a := hstep a e b hb
    have hback : s.shots.setIfInBounds k b = s.shots := by
      obtain ⟨hk, rfl⟩ := Array.getElem?_eq_some_iff.mp ha
      simp [Array.setIfInBounds, hk]
    change EStateM.Result.error e { s with shots := s.shots.setIfInBounds k b } = _
    rw [hback]

theorem leads_build (k : Nat) {step : Build Unit} (hstep : step.ChecksFirst)
    (h : ∀ a b, step.run a = .ok () b → ReflTransGen (Shot.Change raw) a b) :
    Leads raw (build k step) := by
  intro s
  cases hk : s.shot? k with
  | none =>
    rw [after, run_build_missing hk]
    exact .refl s
  | some a =>
    rw [after, run_build hk hstep]
    cases hb : step.run a with
    | error e _ => exact .refl s
    | ok _ b => exact Session.Leads.of_setShot hk (fun _ => h a b hb) rfl rfl rfl

theorem leads_hostIn (k : Nat) (p : Place) : Leads raw (hostIn k p) := by
  refine (Leads.shot k).bind fun here => ?_
  have foreign : Leads raw (do throw (.structural (.foreignNode (← subject p) here.title)) : Act Host) :=
    (Leads.subject p).bind fun _ => .throw _
  cases p with
  | shot j =>
    dsimp only
    split
    · exact .pure _
    · exact foreign
  | device j id =>
    dsimp only
    split
    · exact .pure _
    · exact foreign
  | looseDevice n => exact foreign
  | instruction | looseInstruction => exact .throw _

theorem leads_addDevice (k : Nat) (parent : Place) {d : Device} (hd : d.IsLoose) (site : Site) :
    Leads raw (addDevice k parent d site) := by
  refine (Leads.shot k).bind fun _ => (leads_hostIn k parent).bind fun h => ?_
  refine Leads.bind (leads_build k (Build.checksFirst_addDevice h d site) fun a b hb => ?_) fun _ => .pure _
  exact .single (.edit (.device hd hb))

theorem leads_addInstruction (k : Nat) (owner : Place) {i : Instruction} (hi : i.IsLoose)
    (site : Site) : Leads raw (addInstruction k owner i site) := by
  refine (Leads.shot k).bind fun _ => (leads_hostIn k owner).bind fun h => ?_
  refine Leads.bind (leads_build k (Build.checksFirst_addInstruction h i site 0) fun a b hb => ?_)
    fun _ => .pure _
  exact .single (.edit (.instruction hi hb))

private theorem after_tryFinally (x : Act α) (f : Session → Session) (s : Session) :
    after (try x finally modify f) s = f (after x s) := by
  have hmod : ∀ t, (modify f : Act Unit) t = .ok () (f t) := fun _ => rfl
  simp only [after, tryFinally, EStateM.run, MonadFinally.tryFinally', Functor.map, EStateM.map, hmod]
  cases x s <;> rfl

/-- Losing a loose node leaves the others as they were made. -/
private theorem keepsLoose_forgetDevice {s : Session} (n : Nat) (h : s.KeepsLoose) :
    ({ s with looseDevices := s.looseDevices.setIfInBounds n none } : Session).KeepsLoose where
  device := by
    intro m d hd
    rw [Array.getElem?_setIfInBounds] at hd
    split at hd
    · split at hd <;> simp at hd
    · exact h.device hd
  instruction := h.instruction

private theorem keepsLoose_forgetInstruction {s : Session} (n : Nat) (h : s.KeepsLoose) :
    ({ s with looseInstructions := s.looseInstructions.setIfInBounds n none } : Session).KeepsLoose where
  device := h.device
  instruction := by
    intro m d hd
    rw [Array.getElem?_setIfInBounds] at hd
    split at hd
    · split at hd <;> simp at hd
    · exact h.instruction hd

private theorem run_found_get {f : Session → Option α} (s : Session) :
    ((do found (f (← get))) : Act α).run s =
      match f s with
      | some a => .ok a s
      | none => .error (.use .noSuchNode) s := by
  have : ((do found (f (← get))) : Act α).run s = (found (f s)).run s := rfl
  rw [this]
  cases f s <;> rfl

theorem leads_attachDevice (k : Nat) (parent : Place) (n : Nat) (site : Site) :
    Leads raw (attachDevice k parent n site) := by
  intro s hl
  have hassoc : attachDevice k parent n site =
      (do found ((← get).device? (.looseDevice n))) >>= fun d =>
        tryFinally (addDevice k parent d site) (modify fun s =>
          { s with looseDevices := s.looseDevices.setIfInBounds n none }) := rfl
  rw [hassoc, after_bind, run_found_get]
  cases hd : s.device? (.looseDevice n) with
  | none => exact Session.Leads.refl s hl
  | some d =>
    have hloose : d.IsLoose := hl.device (Option.join_eq_some_iff.mp hd)
    dsimp only
    rw [after_tryFinally]
    refine Session.Leads.trans (leads_addDevice k parent hloose site s) ?_ hl
    exact Session.Leads.of_shots rfl (keepsLoose_forgetDevice n)

theorem leads_attachInstruction (k : Nat) (owner : Place) (n : Nat) (site : Site) :
    Leads raw (attachInstruction k owner n site) := by
  intro s hl
  have hassoc : attachInstruction k owner n site =
      (do found ((← get).instruction? (.looseInstruction n))) >>= fun i =>
        tryFinally (addInstruction k owner i site) (modify fun s =>
          { s with looseInstructions := s.looseInstructions.setIfInBounds n none }) := rfl
  rw [hassoc, after_bind, run_found_get]
  cases hi : s.instruction? (.looseInstruction n) with
  | none => exact Session.Leads.refl s hl
  | some i =>
    have hloose : i.IsLoose := hl.instruction (Option.join_eq_some_iff.mp hi)
    dsimp only
    rw [after_tryFinally]
    refine Session.Leads.trans (leads_addInstruction k owner hloose site s) ?_ hl
    exact Session.Leads.of_shots rfl (keepsLoose_forgetInstruction n)

/-! ## Loose nodes -/

theorem isLoose_make {draft : DeviceDraft} {d : Device} (h : draft.make = .ok d) : d.IsLoose := by
  unfold DeviceDraft.make at h
  cases hc : draft.equipment.check draft.name with
  | error e => simp [hc, bind, Except.bind] at h
  | ok _ =>
    simp only [hc, bind, Except.bind, pure, Except.pure, Except.ok.injEq] at h
    subst h
    exact ⟨rfl, rfl, hc⟩

theorem isLoose_makeInstruction {draft : InstructionDraft} {i : Instruction}
    (h : draft.make = .ok i) : i.IsLoose := by
  cases draft with
  | function time duration curve rate =>
    cases curve with
    | none => cases h
    | some c =>
      simp only [InstructionDraft.make] at h
      split at h <;> cases h
      exact ⟨rfl, rfl⟩
  | wait | constant | static =>
    cases h
    exact ⟨rfl, rfl⟩

theorem leads_usable_bind {x : Except UseFault α} {f : α → Act β}
    (h : ∀ a, x = .ok a → Leads raw (f a)) : Leads raw (usable x >>= f) := by
  cases x with
  | error e => exact .throw (.use e)
  | ok a => exact h a rfl

/-- What configuring a device does: it sets a delay or the time of the first trigger. -/
structure SetsDelays (change : Device → String → Except UseFault Device) : Prop where
  eq : ∀ {d d' : Device} {title : String}, change d title = .ok d' →
    ∃ outputDelay initialTrigger, d' = { d with outputDelay, initialTrigger }

theorem setsDelays_setOutputDelay (x : Float) :
    SetsDelays fun d title => d.setOutputDelay title x where
  eq h := ⟨_, _, Device.setOutputDelay_eq_ok h⟩

theorem setsDelays_setInitialTrigger (x : Float) :
    SetsDelays fun d title => d.setInitialTrigger title x where
  eq h := ⟨_, _, Device.setInitialTrigger_eq_ok h⟩

private theorem edit_of_configure {change : Device → String → Except UseFault Device}
    (hc : SetsDelays change) {id : Nat} {a b : Shot} (h : (Build.configure id change).run a = .ok () b) :
    Shot.Edit a b := by
  obtain ⟨hp, d, d', hd, hd', rfl⟩ := Shot.configure_eq_ok h
  obtain ⟨x, y, rfl⟩ := hc.eq hd'
  exact .configure x y hp hd

theorem leads_configure (p : Place) {change : Device → String → Except UseFault Device}
    (hc : SetsDelays change) : Leads raw (configure p change) := by
  cases p with
  | device k id =>
    refine leads_build k (Build.checksFirst_configure id change) fun a b hb => ?_
    exact .single (.edit (edit_of_configure hc hb))
  | looseDevice n =>
    intro s hl
    have hassoc : configure (.looseDevice n) change =
        (do found ((← get).device? (.looseDevice n))) >>= fun d =>
          usable (change d (d.titleUnder noParent)) >>= fun d => modify fun s =>
            { s with looseDevices := s.looseDevices.setIfInBounds n (some d) } := rfl
    rw [hassoc, after_bind, run_found_get]
    cases hd : s.device? (.looseDevice n) with
    | none => exact Session.Leads.refl s hl
    | some d =>
      have hloose : d.IsLoose := hl.device (Option.join_eq_some_iff.mp hd)
      dsimp only
      refine leads_usable_bind (fun d' hd' => ?_) s hl
      obtain ⟨x, y, rfl⟩ := hc.eq hd'
      refine .of_modify fun t => Session.Leads.of_shots rfl fun ht => ⟨?_, ht.instruction⟩
      intro m e he
      rw [Array.getElem?_setIfInBounds] at he
      split at he
      · split at he <;> simp only [Option.some_inj, reduceCtorEq] at he
        subst he
        exact ⟨hloose.children, hloose.instructions, hloose.usable⟩
      · exact ht.device he
  | shot | instruction | looseInstruction => exact .throw _

theorem leads_pass (p : Place) {whole : Compile Unit} {single : Pass} (hw : Compile.Moves raw whole)
    (hs : ∀ id, Compile.Moves raw (single.runAt id)) : Leads raw (pass p whole single) := by
  cases p with
  | shot k => exact leads_onShot k hw
  | device k id => exact leads_onShot k (hs id)
  | instruction | looseDevice | looseInstruction => exact .throw _

private theorem leads_swapReports (s : Session) (k : Nat) : Session.Leads raw s (s.swapReports k) := by
  unfold swapReports
  cases hk : s.shot? k with
  | none => exact .refl s
  | some a => exact Session.Leads.of_setShot hk (fun _ => .single (.edit (.report _))) rfl rfl rfl

theorem leads_checkDevice (k id : Nat) : Leads raw (checkDevice k id) := by
  intro s
  have hrun : after (checkDevice k id) s =
      (after (onShot k (checkPass.runAt id)) (s.swapReports k)).swapReports k := by
    simp only [after, checkDevice, EStateM.run]
    cases onShot k (checkPass.runAt id) (s.swapReports k) <;> rfl
  rw [hrun]
  refine (leads_swapReports s k).trans (Session.Leads.trans ?_ (leads_swapReports _ k))
  exact leads_onShot k (Compile.StaysIn.moves fun _ => Compile.staysIn_checkPass id) _

private theorem leads_pulse (k id : Nat) (time duration : Float) (site : Site) :
    Leads raw (build k (Build.addPulse id time duration site)) := by
  refine leads_build k (Build.checksFirst_addPulse id time duration site) fun a b hb => ?_
  obtain ⟨⟨⟩, c, hc, hb⟩ := run_bind_eq_ok.mp hb
  exact .head (.edit (.instruction ⟨rfl, rfl⟩ hc)) (.single (.edit (.instruction ⟨rfl, rfl⟩ hb)))

theorem leads_attached (p : Place) : Leads raw (attached p) := by
  cases p with
  | device k id => exact .pure _
  | looseDevice n => exact (Leads.subject _).bind fun _ => .throw _
  | shot | instruction | looseInstruction => exact .throw _

private theorem leads_openShot {name : String} {settings : Settings} {site : Site} {shot : Shot}
    (h : Shot.new? name settings site = .ok shot) :
    Leads raw (modify fun s => { s with shots := s.shots.push shot } : Act Unit) := by
  refine .of_modify fun s hl => ⟨⟨hl.device, hl.instruction⟩, fun k => ?_⟩
  simp only [shot?, Array.getElem?_push]
  split
  · rename_i hk
    refine ⟨fun a ha => ?_, fun b _ hb => ?_⟩
    · rw [hk, Array.getElem?_size] at ha
      cases ha
    · cases hb
      exact ⟨shot, ⟨name, settings, site, h⟩, .refl⟩
  · exact .refl _

private theorem leads_pushDevice {d : Device} (hd : d.IsLoose) :
    Leads raw (modify fun s => { s with looseDevices := s.looseDevices.push (some d) } : Act Unit) := by
  refine .of_modify fun s => Session.Leads.of_shots rfl fun hl => ⟨?_, hl.instruction⟩
  intro n e he
  rw [Array.getElem?_push] at he
  split at he
  · simp only [Option.some_inj] at he
    exact he ▸ hd
  · exact hl.device he

private theorem leads_pushInstruction {i : Instruction} (hi : i.IsLoose) :
    Leads raw (modify fun s =>
      { s with looseInstructions := s.looseInstructions.push (some i) } : Act Unit) := by
  refine .of_modify fun s => Session.Leads.of_shots rfl fun hl => ⟨hl.device, ?_⟩
  intro n j hj
  rw [Array.getElem?_push] at hj
  split at hj
  · simp only [Option.some_inj] at hj
    exact hj ▸ hi
  · exact hl.instruction hj

private theorem leads_fields {f : Session → Session}
    (hf : ∀ s, (f s).shots = s.shots ∧ (f s).looseDevices = s.looseDevices ∧
      (f s).looseInstructions = s.looseInstructions) : Leads raw (modify f : Act Unit) := by
  refine .of_modify fun s => Session.Leads.of_shots (hf s).1 fun hl => ⟨?_, ?_⟩
  · intro n d hd
    exact hl.device ((hf s).2.1 ▸ hd)
  · intro n i hi
    exact hl.instruction ((hf s).2.2 ▸ hi)

/-- Every command but the raw ones changes shots as it may. -/
theorem leads_perform (c : Command) (hc : raw ∨ c.isRaw = false) : Leads raw (perform c) := by
  cases c with
  | openShot name settings site =>
    cases h : Shot.new? name settings site with
    | error f =>
      simp only [perform, h]
      exact .throw _
    | ok shot =>
      simp only [perform, h]
      exact Leads.get.bind fun _ => (leads_openShot h).bind fun _ => .pure _
  | makeDevice draft =>
    refine leads_usable_bind fun d hd => Leads.get.bind fun _ => ?_
    exact (leads_pushDevice (isLoose_make hd)).bind fun _ => .pure _
  | attachDevice k parent n site => exact (leads_attachDevice k parent n site).bind fun _ => .pure _
  | addDevice k parent draft site =>
    refine leads_usable_bind fun d hd => ?_
    exact (leads_addDevice k parent (isLoose_make hd) site).bind fun _ => .pure _
  | makeInstruction draft =>
    refine leads_usable_bind fun i hi => Leads.get.bind fun _ => ?_
    exact (leads_pushInstruction (isLoose_makeInstruction hi)).bind fun _ => .pure _
  | attachInstruction k owner n site =>
    exact (leads_attachInstruction k owner n site).bind fun _ => .pure _
  | addInstruction k owner draft site =>
    refine leads_usable_bind fun i hi => ?_
    exact (leads_addInstruction k owner (isLoose_makeInstruction hi) site).bind fun _ => .pure _
  | issue output draft site =>
    refine (leads_attached output).bind fun _ => leads_usable_bind fun i hi => ?_
    exact (leads_addInstruction _ output (isLoose_makeInstruction hi) site).bind fun _ => .pure _
  | pulse trigger time duration site =>
    refine (leads_attached trigger).bind fun _ => (leads_pulse _ _ time duration site).bind fun _ => ?_
    exact (Leads.shot _).bind fun _ => .pure _
  | setOutputDelay p x => exact (leads_configure p (setsDelays_setOutputDelay x)).bind fun _ => .pure _
  | setInitialTrigger p x =>
    exact (leads_configure p (setsDelays_setInitialTrigger x)).bind fun _ => .pure _
  | start k => exact (leads_onShot k Compile.moves_start).bind fun _ => .pure _
  | stop k time => exact (leads_onShot k (Compile.moves_stop time)).bind fun _ => .pure _
  | nextPhase k => exact (leads_onShot k Compile.moves_nextPhase).bind fun _ => .pure _
  | establishLimits p =>
    refine (leads_pass p ?_ fun id => ?_).bind fun _ => .pure _
    · exact Compile.StaysIn.moves fun _ => Compile.staysIn_establishLimits
    · exact Compile.StaysIn.moves fun _ => Compile.staysIn_limitsPass id
  | establishAttributes p =>
    refine (leads_pass p ?_ fun id => ?_).bind fun _ => .pure _
    · exact Compile.StaysIn.moves fun _ => Compile.staysIn_establishAttributes
    · exact Compile.StaysIn.moves fun _ => Compile.staysIn_attributesPass id
  | checkInstructions p =>
    have hpass : Leads raw (pass p Compile.checkInstructions checkPass) :=
      leads_pass p (Compile.StaysIn.moves fun _ => Compile.staysIn_checkInstructions)
        fun id => Compile.StaysIn.moves fun _ => Compile.staysIn_checkPass id
    cases p with
    | device k id => exact (leads_checkDevice k id).bind fun _ => .pure _
    | shot | instruction | looseDevice | looseInstruction => exact hpass.bind fun _ => .pure _
  | convertTiming k p =>
    cases p with
    | shot j =>
      exact (leads_onShot j (Compile.StaysIn.moves fun _ => Compile.staysIn_convertTiming)).bind
        fun _ => .pure _
    | instruction j id =>
      refine (Leads.shot k).bind fun s => Leads.bind ?_ fun _ => .pure _
      exact leads_onShot j (Compile.StaysIn.moves fun _ => Compile.staysIn_convert id _)
    | device | looseDevice | looseInstruction => exact (Leads.throw _).bind fun _ => .pure _
  | convertAmong waits p =>
    cases p with
    | instruction j id =>
      refine Leads.bind (leads_onShot j ?_) fun _ => .pure _
      exact Compile.StaysIn.moves fun _ => Compile.staysIn_convert id waits
    | shot | device | looseDevice | looseInstruction => exact (Leads.throw _).bind fun _ => .pure _
  | enterCall k p o =>
    have hraw : raw = true := by simpa [Command.isRaw] using hc
    subst hraw
    refine (Leads.subject p).bind fun _ => Leads.bind (leads_onShot k ?_) fun _ => .pure _
    exact Compile.moves_enterAs _ _ _
  | checkPhase k p o =>
    refine (Leads.subject p).bind fun _ => Leads.bind (leads_onShot k ?_) fun _ => .pure _
    exact Compile.StaysIn.moves fun _ => .check _
  | checkCalled k p =>
    refine (Leads.subject p).bind fun _ => Leads.bind (leads_onShot k ?_) fun _ => .pure _
    exact Compile.StaysIn.moves fun _ => .check _
  | advance k p =>
    have hraw : raw = true := by simpa [Command.isRaw] using hc
    subst hraw
    refine (Leads.subject p).bind fun _ => Leads.bind (leads_onShot k ?_) fun _ => .pure _
    exact Compile.moves_advanceAs _
  | setThreshold level =>
    refine Leads.bind ?_ fun _ => .pure _
    exact leads_fields fun _ => ⟨rfl, rfl, rfl⟩
  | addViolation code p message =>
    refine (Leads.subject p).bind fun _ => Leads.bind (leads_fields fun _ => ⟨rfl, rfl, rfl⟩) fun _ => ?_
    exact Leads.get.bind fun _ => .pure _
  | clearReport =>
    refine Leads.bind ?_ fun _ => .pure _
    exact leads_fields fun _ => ⟨rfl, rfl, rfl⟩
  | raiseReport => exact Leads.get.bind fun _ => .throw _

end Act

namespace Session

variable {raw : Bool} {s s' : Session}

theorem Next.leads (h : Next raw s s') : Leads raw s s' := by
  obtain ⟨c, hc, rfl⟩ := h
  exact Act.leads_perform c hc s

theorem leads_of_run (h : ReflTransGen (Next raw) s s') : Leads raw s s' := by
  induction h with
  | refl => exact .refl s
  | tail _ hn ih => exact ih.trans hn.leads

theorem shot?_absorb {k : Nat} {a : Shot} (ha : s.shot? k = some a) (p : Progress) :
    (s.absorb k p).shot? k = some p.shot := by
  have hk : k < s.shots.size := (Array.getElem?_eq_some_iff.mp ha).1
  simp [shot?, absorb, hk]

theorem keepsLoose_empty : ({} : Session).KeepsLoose := ⟨by simp, by simp⟩

/-- Whatever led to a session left its loose nodes as they were made. -/
theorem Reachable.keepsLoose (h : Reachable raw s) : s.KeepsLoose :=
  (leads_of_run h keepsLoose_empty).1

/-- The session after a list of commands. -/
def script (cs : List Command) : Session := cs.foldl carryOut {}

/-- A list of commands is a run of steps, each of which carries out one of them. -/
theorem run_script {R : Session → Session → Prop} {cs : List Command}
    (h : ∀ c ∈ cs, ∀ s : Session, R s (s.carryOut c)) : ReflTransGen R {} (script cs) := by
  have hfrom : ∀ s : Session, ReflTransGen R s (cs.foldl carryOut s) := by
    induction cs with
    | nil => exact fun s => .refl
    | cons c cs ih =>
      intro s
      have hstep : R s (s.carryOut c) := h c (by simp) s
      exact .head hstep (ih (fun d hd => h d (by simp [hd])) (s.carryOut c))
  exact hfrom {}

theorem reachable_script {cs : List Command} (h : ∀ c ∈ cs, raw ∨ c.isRaw = false) :
    Reachable raw (script cs) :=
  run_script fun c hc _ => ⟨c, h c hc, rfl⟩

/-- Two outputs on one clock line, whose clock ticks once in a unit of time and has a minimum period
of 10 ticks. -/
def bench : List Command := [
  .openShot "bench" {} {},
  .addDevice 0 (.shot 0) { name := "master", equipment := .pseudoclockDevice 0 } {},
  .addDevice 0 (.device 0 0) { name := "clock", equipment := .pseudoclock ⟨1, 0, 10⟩ } {},
  .addDevice 0 (.device 0 1) { name := "line", equipment := .clockLine } {},
  .addDevice 0 (.device 0 2) { name := "card", equipment := .clockableDevice 0 0 } {},
  .addDevice 0 (.device 0 3) { name := "a", equipment := .output } {},
  .addDevice 0 (.device 0 3) { name := "b", equipment := .output } {},
  .start 0]

end Session

/-! ## Reachable shots -/

namespace Shot

/-- A shot of a session that some commands lead to. -/
def Reachable (raw : Bool) (s : Shot) : Prop :=
  ∃ session k, Session.Reachable raw session ∧ session.shot? k = some s

variable {raw : Bool} {s s' : Shot}

theorem reachable_of_script {cs : List Command} (h : ∀ c ∈ cs, raw ∨ c.isRaw = false)
    (hs : (Session.script cs).shot? 0 = some s) : s.Reachable raw :=
  ⟨_, 0, Session.reachable_script h, hs⟩

/-- What has been evaluated of the shot of a script and of a step that it goes through. -/
theorem exists_of_script (cs : List Command) (x : Compile Unit) (P Q : Shot → Prop) [DecidablePred P]
    [DecidablePred Q] (hcs : ∀ c ∈ cs, c.isRaw = false)
    (h : ((Session.script cs).shot? 0).any fun s => P s ∧ isOk (x.run ⟨s, #[]⟩) ∧
      Q (after x ⟨s, #[]⟩).shot) :
    ∃ p q : Progress, p.shot.Reachable false ∧ P p.shot ∧ x.run p = .ok () q ∧ Q q.shot := by
  obtain ⟨s, hs, hd⟩ := (Option.any_eq_true _ _).mp h
  obtain ⟨hp, hok, hend⟩ := of_decide_eq_true hd
  obtain ⟨q, hq⟩ := exists_of_isOk hok
  rw [after, hq] at hend
  exact ⟨⟨s, #[]⟩, q, reachable_of_script (fun c hc => .inr (hcs c hc)) hs, hp, hq, hend⟩

theorem Reachable.grown (h : s.Reachable raw) : s.Grown raw := by
  obtain ⟨session, k, hr, hk⟩ := h
  exact ((Session.leads_of_run hr Session.keepsLoose_empty).2 k).opens s rfl hk

/-- What the further commands of a session make of a shot. -/
theorem changes_of_run {session session' : Session} {k : Nat} (hr : Session.Reachable raw session)
    (hn : ReflTransGen (Session.Next raw) session session') (hk : session.shot? k = some s) :
    ∃ s', session'.shot? k = some s' ∧ ReflTransGen (Change raw) s s' :=
  ((Session.leads_of_run hn hr.keepsLoose).2 k).stays s hk

end Shot

end ShotTiming
