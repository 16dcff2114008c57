import ShotTiming.Proofs.Session.Tree

/-! # Commands that build a tree do all or nothing

A command that adds nodes or sets a delay fails before it writes anything, so that a failure leaves every
shot as it was. If it succeeds, each node it adds is the last of its arena and the last on the list of
its host, and nothing else has changed but the master of the shot.
-/
namespace ShotTiming

/-! ## One node enters a shot -/

theorem Host.IsBefore.lt {h : Host} {n p : Nat} (hh : h.IsBefore n) (hp : h = .device p) : p < n := by
  subst hp
  exact hh

namespace Shot

/-- A device enters a shot below a host. -/
structure GainsDevice (h : Host) (d : Device) (site : Site) (s s' : Shot) : Prop where
  host : h.IsBefore s.devices.size
  size : s'.devices.size = s.devices.size + 1
  added : s'.device? s.devices.size = some (s.placedDevice h d site)
  last : s'.childrenOf h = s.childrenOf h ++ [s.devices.size]
  otherLists : ∀ g, g ≠ h → s'.childrenOf g = s.childrenOf g
  /-- A device that was there keeps everything but the list of its children. -/
  kept : ∀ id < s.devices.size, (s'.device? id).map (fun e => { e with children := #[] }) =
    (s.device? id).map fun e => { e with children := #[] }
  master : s'.master =
    if h = .shot ∧ d.kind = .pseudoclockDevice then some s.devices.size else s.master
  /-- A device that becomes the master is the first that could. -/
  first : h = .shot → d.kind = .pseudoclockDevice → s.master = none ∧
    ∀ id, s.parent? id = some .shot → s.kind? id ≠ some .pseudoclockDevice
  rest : { s' with devices := s.devices, children := s.children, master := s.master } = s

/-- An instruction enters a shot on a host. -/
structure GainsInstruction (h : Host) (i : Instruction) (site : Site) (s s' : Shot) : Prop where
  host : h.IsBefore s.devices.size
  size : s'.instructions.size = s.instructions.size + 1
  added : s'.instruction? s.instructions.size = some (s.placedInstruction h i site)
  last : s'.instructionsOf h = s.instructionsOf h ++ [s.instructions.size]
  otherLists : ∀ g, g ≠ h → s'.instructionsOf g = s.instructionsOf g
  kept : ∀ id < s.instructions.size, s'.instruction? id = s.instruction? id
  /-- A device keeps everything but the list of its instructions. -/
  devices : ∀ id, (s'.device? id).map (fun e => { e with instructions := #[] }) =
    (s.device? id).map fun e => { e with instructions := #[] }
  rest : { s' with devices := s.devices, instructions := s.instructions,
                   ownInstructions := s.ownInstructions } = s

variable {s s' : Shot} {h : Host} {site : Site}

theorem gainsDevice_of_addDevice (hm : s.KnowsMaster) {d : Device} (hd : d.IsLoose)
    (ha : (Build.addDevice h d site).run s = .ok () s') : s.GainsDevice h d site s' := by
  obtain ⟨hadmits, rfl⟩ := addDevice_eq_ok ha
  have hhost : h.IsBefore s.devices.size := isBefore_of_accepts hadmits.accepted
  have hlists : ∀ g, (s.withDevice h d site).childrenOf g = _ :=
    childrenOf_withDevice d (fun _ => hhost.lt) hd.children
  constructor
  case host => exact hhost
  case size => exact devices_size_withDevice d
  case added =>
    have hself : h ≠ .device s.devices.size := fun hp => Nat.lt_irrefl _ (hhost.lt hp)
    simp [device?_withDevice, hself]
  case last => rw [hlists, if_pos rfl]
  case otherLists =>
    intro g hg
    rw [hlists, if_neg hg]
  case kept =>
    intro id hid
    rw [device?_withDevice, if_neg (Nat.ne_of_lt hid), Option.map_map]
    congr 1
    funext e
    by_cases hp : h = .device id <;> simp [hp]
  case master => exact master_withDevice d
  case first =>
    intro h₁ h₂
    have hnone := hadmits.master h₁ h₂
    refine ⟨hnone, fun id hp hk => ?_⟩
    rw [(hm id).mpr ⟨hk, hp⟩] at hnone
    cases hnone
  case rest => cases h <;> rfl

theorem gainsInstruction_of_addInstruction {i : Instruction} {more : Nat}
    (ha : (Build.addInstruction h i site more).run s = .ok () s') : s.GainsInstruction h i site s' := by
  obtain ⟨hadmits, -, rfl⟩ := addInstruction_eq_ok ha
  have hhost : h.IsBefore s.devices.size := isBefore_of_takes hadmits.accepted
  have hlists : ∀ g, (s.withInstruction h i site).instructionsOf g = _ :=
    instructionsOf_withInstruction i fun _ => hhost.lt
  constructor
  case host => exact hhost
  case size => exact instructions_size_withInstruction i
  case added => rw [instruction?_withInstruction, if_pos rfl]
  case last => rw [hlists, if_pos rfl]
  case otherLists =>
    intro g hg
    rw [hlists, if_neg hg]
  case kept =>
    intro id hid
    rw [instruction?_withInstruction, if_neg (Nat.ne_of_lt hid)]
  case devices =>
    intro id
    rw [device?_withInstruction, Option.map_map]
    congr 1
    funext e
    by_cases hp : h = .device id <;> simp [hp]
  case rest => cases h <;> rfl

end Shot

/-! ## What a command leaves -/

/-- The place of a host of a shot. -/
def Host.place (k : Nat) : Host → Place
  | .shot => .shot k
  | .device id => .device k id

namespace Command

/-- A command that adds nodes to the tree of a shot, or sets a delay of a device. -/
def builds : Command → Bool
  | .attachDevice .. | .addDevice .. | .attachInstruction .. | .addInstruction .. | .issue .. | .pulse ..
  | .setOutputDelay .. | .setInitialTrigger .. => true
  | _ => false

/-- The device that a command sets a delay of, and what the device becomes. -/
def setting? : Command → Option (Place × (Device → Device))
  | .setOutputDelay p x => some (p, fun d => { d with outputDelay := x })
  | .setInitialTrigger p x => some (p, fun d => { d with initialTrigger := x })
  | _ => none

end Command

namespace Session

/-- The session without the loose node that a command takes along. A command has taken its node whether
or not it can place it. -/
def without (s : Session) : Command → Session
  | .attachDevice _ _ n _ => { s with looseDevices := s.looseDevices.setIfInBounds n none }
  | .attachInstruction _ _ n _ =>
    { s with looseInstructions := s.looseInstructions.setIfInBounds n none }
  | _ => s

/-- One shot has become another one, and nothing else is different. -/
structure Replaces (k : Nat) (a b : Shot) (s s' : Session) : Prop where
  before : s.shot? k = some a
  after : s'.shot? k = some b
  others : ∀ j, j ≠ k → s'.shot? j = s.shot? j
  rest : { s' with shots := s.shots } = s

/-- One device has been changed, in its shot or loose. -/
inductive Configures (f : Device → Device) (s s' : Session) : Place → Prop
  | attached {k id : Nat} {a : Shot} {d : Device} : a.device? id = some d →
    s.Replaces k a (a.setDevice id fun _ => f d) s' → Configures f s s' (.device k id)
  | loose {n : Nat} {d : Device} : s.device? (.looseDevice n) = some d →
    s' = { s with looseDevices := s.looseDevices.setIfInBounds n (some (f d)) } →
    Configures f s s' (.looseDevice n)

/-- What a command that builds leaves and answers when it succeeds. -/
inductive Built (s s' : Session) : Command → Reply → Prop
  | attachDevice {k n : Nat} {h : Host} {d : Device} {site : Site} {a b : Shot} :
    s.device? (.looseDevice n) = some d → a.GainsDevice h d site b →
      (s.without (.attachDevice k (h.place k) n site)).Replaces k a b s' →
      Built s s' (.attachDevice k (h.place k) n site) (.placed (.device k a.devices.size))
  | addDevice {k : Nat} {h : Host} {draft : DeviceDraft} {d : Device} {site : Site} {a b : Shot} :
    draft.make = .ok d → a.GainsDevice h d site b → s.Replaces k a b s' →
      Built s s' (.addDevice k (h.place k) draft site) (.placed (.device k a.devices.size))
  | attachInstruction {k n : Nat} {h : Host} {i : Instruction} {site : Site} {a b : Shot} :
    s.instruction? (.looseInstruction n) = some i → a.GainsInstruction h i site b →
      (s.without (.attachInstruction k (h.place k) n site)).Replaces k a b s' →
      Built s s' (.attachInstruction k (h.place k) n site) (.placed (.instruction k a.instructions.size))
  | addInstruction {k : Nat} {h : Host} {draft : InstructionDraft} {i : Instruction} {site : Site}
      {a b : Shot} :
    draft.make = .ok i → a.GainsInstruction h i site b → s.Replaces k a b s' →
      Built s s' (.addInstruction k (h.place k) draft site) (.placed (.instruction k a.instructions.size))
  | issue {k id : Nat} {draft : InstructionDraft} {i : Instruction} {site : Site} {a b : Shot} :
    draft.make = .ok i → a.GainsInstruction (.device id) i site b → s.Replaces k a b s' →
      Built s s' (.issue (.device k id) draft site)
        (.issued (.instruction k a.instructions.size) draft.length)
  | pulse {k id : Nat} {time duration : Float} {site : Site} {a b e : Shot} :
    a.GainsInstruction (.device id) { time, action := .constant 1 } site b →
      b.GainsInstruction (.device id) { time := time + duration, action := .constant 0 } site e →
      s.Replaces k a e s' →
      Built s s' (.pulse (.device k id) time duration site)
        (.issued (.instruction k b.instructions.size) duration)
  | configured {c : Command} {p : Place} {f : Device → Device} :
    c.setting? = some (p, f) → Configures f s s' p → Built s s' c .done

/-- A pulse is two values issued one after the other. It is refused as the first of them is, and once the
first is there, nothing but a full arena keeps out the second; then neither is there. -/
structure PulsesTwice (s : Session) (trigger : Place) (time duration : Float) (site : Site) : Prop where
  refused : ∀ f s', (perform (.issue trigger (.constant time 1) site)).run s = .error f s' →
    (perform (.pulse trigger time duration site)).run s = .error f s
  follows : ∀ r s₁, (perform (.issue trigger (.constant time 1) site)).run s = .ok r s₁ →
    (∃ last s₂, (perform (.issue trigger (.constant (time + duration) 0) site)).run s₁ =
        .ok (.issued last 0) s₂ ∧
      (perform (.pulse trigger time duration site)).run s = .ok (.issued last duration) s₂) ∨
    (∃ k b, s₁.shot? k = some b ∧ arenaCapacity ≤ b.instructions.size ∧
      (perform (.issue trigger (.constant (time + duration) 0) site)).run s₁ =
        .error (.use .full) s₁ ∧
      (perform (.pulse trigger time duration site)).run s = .error (.use .full) s)

/-- A command does everything that it is for, or leaves every shot alone. -/
structure AllOrNothing (s : Session) (c : Command) : Prop where
  shots : ∀ f s', (perform c).run s = .error f s' → s'.shots = s.shots
  nothing : ∀ f s', (perform c).run s = .error f s' → s' = s.without c
  all : ∀ r s', (perform c).run s = .ok r s' → Built s s' c r
  twice : ∀ trigger time duration site, c = .pulse trigger time duration site →
    s.PulsesTwice trigger time duration site

theorem shots_without (s : Session) (c : Command) : (s.without c).shots = s.shots := by
  cases c <;> rfl

theorem replaces_setIfInBounds {s : Session} {k : Nat} {a : Shot} (ha : s.shot? k = some a) (b : Shot) :
    s.Replaces k a b { s with shots := s.shots.setIfInBounds k b } where
  before := ha
  after := by
    have hk : k < s.shots.size := (Array.getElem?_eq_some_iff.mp ha).1
    simp [shot?, hk]
  others j hj := by simp [shot?, Array.getElem?_setIfInBounds_ne (Ne.symm hj)]
  rest := rfl

variable {k : Nat} {a b : Shot} {s s' : Session}

theorem Replaces.without (h : s.Replaces k a b s') (c : Command) :
    (s.without c).Replaces k a b (s'.without c) := by
  have hrest : Session.without { s' with shots := s.shots } c = s.without c :=
    congrArg (fun t => t.without c) h.rest
  cases c <;> exact ⟨h.before, h.after, h.others, hrest⟩

end Session

/-! ## Steps that fail before they write -/

namespace Act
open Session

variable {α β : Type} {s t : Session} {P Q : α → Session → Prop}

/-- A step ends as it should, or fails and leaves a certain session. -/
def Tries (x : Act α) (s t : Session) (P : α → Session → Prop) : Prop :=
  match x.run s with
  | .ok a s' => P a s'
  | .error _ s' => s' = t

namespace Tries

theorem pure {a : α} (h : P a s) : Tries (Pure.pure a) s t P := h

theorem get {P : Session → Session → Prop} (h : P s s) : Tries MonadState.get s t P := h

theorem throw (e : Fault) : Tries (MonadExcept.throw e) s s P := rfl

theorem ok {x : Act α} {a : α} {s' : Session} (h : Tries x s t P) (hx : x.run s = .ok a s') :
    P a s' := by
  rwa [Tries, hx] at h

theorem error {x : Act α} {e : Fault} {s' : Session} (h : Tries x s t P)
    (hx : x.run s = .error e s') : s' = t := by
  rwa [Tries, hx] at h

theorem bind {x : Act α} {f : α → Act β} {R : β → Session → Prop}
    (h : Tries x s t fun a s' => Tries (f a) s' t R) : Tries (x >>= f) s t R := by
  rw [Tries, EStateM.run_bind]
  cases hx : x.run s with
  | ok a s' => exact h.ok hx
  | error e s' => exact h.error hx

theorem mono {x : Act α} (h : Tries x s t P) (hPQ : ∀ a s', P a s' → Q a s') : Tries x s t Q := by
  unfold Tries
  cases hx : x.run s with
  | ok a s' => exact hPQ a s' (h.ok hx)
  | error e s' => exact h.error hx

theorem map {x : Act α} {g : α → β} {R : β → Session → Prop}
    (h : Tries x s t fun a s' => R (g a) s') : Tries (x >>= fun a => Pure.pure (g a)) s t R :=
  bind (h.mono fun _ _ hr => .pure hr)

/-- What is done at the end is done after a failure too. -/
theorem finish {x : Act α} {f : Session → Session} (h : Tries x s t fun a s' => P a (f s')) :
    Tries (try x finally modify f) s (f t) P := by
  have hmod : ∀ u, (modify f : Act Unit) u = .ok () (f u) := fun _ => rfl
  unfold Tries at h ⊢
  simp only [tryFinally, EStateM.run, MonadFinally.tryFinally', Functor.map, EStateM.map, hmod] at h ⊢
  cases hx : x s <;> simp_all

theorem found {o : Option α} (hnone : o = none → s = t) (h : ∀ a, o = some a → P a s) :
    Tries (Act.found o) s t P := by
  cases o with
  | none => exact hnone rfl
  | some a => exact h a rfl

theorem shot (k : Nat) : Tries (Act.shot k) s s fun a s' => s' = s ∧ s.shot? k = some a :=
  found (fun _ => rfl) fun _ ha => ⟨rfl, ha⟩

/-- A shot that is there is found, whatever a failure would leave. -/
theorem shot_of {k : Nat} {a : Shot} {P : Shot → Session → Prop} (ha : s.shot? k = some a) (h : P a s) :
    Tries (Act.shot k) s t P := by
  refine bind (get (found (fun hnone => ?_) fun b hb => ?_))
  · rw [ha] at hnone
    cases hnone
  · cases ha.symm.trans hb
    exact h

theorem subject (p : Place) : Tries (Act.subject p) s s fun _ s' => s' = s :=
  found (fun _ => rfl) fun _ _ => rfl

theorem usable (x : Except UseFault α) : Tries (Act.usable x) s s fun a s' => s' = s ∧ x = .ok a := by
  cases x with
  | error e => rfl
  | ok a => exact ⟨rfl, rfl⟩

/-- Only a host of the shot is let in. -/
theorem hostIn (k : Nat) (p : Place) :
    Tries (Act.hostIn k p) s s fun h s' => s' = s ∧ p = h.place k := by
  have foreign (here : Shot) :
      Tries (do MonadExcept.throw (.structural (.foreignNode (← Act.subject p) here.title))) s s
        fun (h : Host) s' => s' = s ∧ p = h.place k := by
    refine bind ((subject p).mono ?_)
    rintro _ _ rfl
    exact throw _
  refine bind ((shot k).mono ?_)
  rintro here _ ⟨rfl, -⟩
  cases p with
  | shot j =>
    dsimp only
    split
    · rename_i hj
      exact pure ⟨rfl, hj ▸ rfl⟩
    · exact foreign here
  | device j id =>
    dsimp only
    split
    · rename_i hj
      exact pure ⟨rfl, hj ▸ rfl⟩
    · exact foreign here
  | looseDevice n => exact foreign here
  | instruction | looseInstruction => exact throw _

theorem attached (p : Place) :
    Tries (Act.attached p) s s fun q s' => s' = s ∧ p = .device q.1 q.2 := by
  cases p with
  | device k id => exact pure ⟨rfl, rfl⟩
  | looseDevice n =>
    refine bind ((subject _).mono ?_)
    rintro _ _ rfl
    exact throw _
  | shot | instruction | looseInstruction => exact throw _

theorem build (k : Nat) {step : Build Unit} (hstep : step.ChecksFirst) :
    Tries (Act.build k step) s s fun _ s' => ∃ a b, step.run a = .ok () b ∧ s.Replaces k a b s' := by
  unfold Tries
  cases ha : s.shot? k with
  | none => rw [run_build_missing ha]
  | some a =>
    rw [run_build ha hstep]
    cases hb : step.run a with
    | error e _ => rfl
    | ok _ b => exact ⟨a, b, hb, replaces_setIfInBounds ha b⟩

/-- A node is inserted below a host of the shot, and answered by its number. -/
theorem insert (k : Nat) (p : Place) {step : Host → Build Unit} (hstep : ∀ h, (step h).ChecksFirst)
    (number : Shot → Place) :
    Tries (Act.shot k >>= fun a => Act.hostIn k p >>= fun h => Act.build k (step h) >>= fun _ =>
        Pure.pure (number a)) s s fun q s' => ∃ h a b, p = h.place k ∧ q = number a ∧
      (step h).run a = .ok () b ∧ s.Replaces k a b s' := by
  refine bind ((shot k).mono ?_)
  rintro a _ ⟨rfl, ha⟩
  refine bind ((hostIn k p).mono ?_)
  rintro h _ ⟨rfl, hplace⟩
  refine bind ((build k (hstep h)).mono ?_)
  rintro _ s' ⟨a', b, hb, hs⟩
  -- the shot that is numbered is the one that is changed
  cases ha.symm.trans hs.before
  exact pure ⟨h, a, b, hplace, rfl, hb, hs⟩

theorem addDevice (k : Nat) (parent : Place) (d : Device) (site : Site) :
    Tries (Act.addDevice k parent d site) s s fun p s' => ∃ h a b, parent = h.place k ∧
      p = .device k a.devices.size ∧ (Build.addDevice h d site).run a = .ok () b ∧
        s.Replaces k a b s' :=
  insert k parent (fun h => Build.checksFirst_addDevice h d site) fun a => .device k a.devices.size

theorem addInstruction (k : Nat) (owner : Place) (i : Instruction) (site : Site) :
    Tries (Act.addInstruction k owner i site) s s fun p s' => ∃ h a b, owner = h.place k ∧
      p = .instruction k a.instructions.size ∧ (Build.addInstruction h i site 0).run a = .ok () b ∧
        s.Replaces k a b s' :=
  insert k owner (fun h => Build.checksFirst_addInstruction h i site 0) fun a =>
    .instruction k a.instructions.size

theorem configure (p : Place) {change : Device → String → Except UseFault Device} {f : Device → Device}
    (hf : ∀ d title d', change d title = .ok d' → d' = f d) :
    Tries (Act.configure p change) s s fun _ s' => Configures f s s' p := by
  cases p with
  | device k id =>
    refine (build k (Build.checksFirst_configure id change)).mono ?_
    rintro _ s' ⟨a, b, hb, hs⟩
    obtain ⟨-, d, d', hd, hd', rfl⟩ := Shot.configure_eq_ok hb
    cases hf d _ d' hd'
    exact .attached hd hs
  | looseDevice n =>
    refine bind (get (bind (found (fun _ => rfl) fun d hd => ?_)))
    refine bind ((usable _).mono ?_)
    rintro d' _ ⟨rfl, hd'⟩
    cases hf d _ d' hd'
    exact Configures.loose hd rfl
  | shot | instruction | looseInstruction => exact throw _

end Tries

/-! ## Every command that builds -/

/-- Losing a node that is not there changes nothing. -/
private theorem setIfInBounds_none {xs : Array (Option α)} {n : Nat} (h : xs[n]?.join = none) :
    xs.setIfInBounds n none = xs := by
  refine Array.ext_getElem? fun m => ?_
  rw [Array.getElem?_setIfInBounds]
  by_cases hn : n = m
  · subst hn
    by_cases hlt : n < xs.size
    · simp_all
    · simp [hlt]
  · simp [hn]

theorem tries_perform (hl : s.KeepsLoose) (hm : ∀ k a, s.shot? k = some a → a.KnowsMaster) {c : Command}
    (hc : c.builds) : Tries (perform c) s (s.without c) fun r s' => Built s s' c r := by
  cases c with
  | addDevice k parent draft site =>
    refine .bind ((Tries.usable _).mono ?_)
    rintro d _ ⟨rfl, hd⟩
    refine .map ((Tries.addDevice k parent d site).mono ?_)
    rintro _ s' ⟨h, a, b, rfl, rfl, hb, hs⟩
    exact .addDevice hd (Shot.gainsDevice_of_addDevice (hm k a hs.before) (isLoose_make hd) hb) hs
  | addInstruction k owner draft site =>
    refine .bind ((Tries.usable _).mono ?_)
    rintro i _ ⟨rfl, hi⟩
    refine .map ((Tries.addInstruction k owner i site).mono ?_)
    rintro _ s' ⟨h, a, b, rfl, rfl, hb, hs⟩
    exact .addInstruction hi (Shot.gainsInstruction_of_addInstruction hb) hs
  | attachDevice k parent n site =>
    refine .map (Tries.bind (.get (.bind (.found (fun hnone => ?_) fun d hd => ?_))))
    -- where there is no loose node, none is lost
    · have hsame : s.looseDevices.setIfInBounds n none = s.looseDevices := setIfInBounds_none hnone
      simp only [without, hsame]
    refine .finish ((Tries.addDevice k parent d site).mono ?_)
    rintro _ s' ⟨h, a, b, rfl, rfl, hb, hs⟩
    have hloose : d.IsLoose := hl.device (Option.join_eq_some_iff.mp hd)
    exact .attachDevice hd (Shot.gainsDevice_of_addDevice (hm k a hs.before) hloose hb) (hs.without _)
  | attachInstruction k owner n site =>
    refine .map (Tries.bind (.get (.bind (.found (fun hnone => ?_) fun i hi => ?_))))
    · have hsame : s.looseInstructions.setIfInBounds n none = s.looseInstructions :=
        setIfInBounds_none hnone
      simp only [without, hsame]
    refine .finish ((Tries.addInstruction k owner i site).mono ?_)
    rintro _ s' ⟨h, a, b, rfl, rfl, hb, hs⟩
    exact .attachInstruction hi (Shot.gainsInstruction_of_addInstruction hb) (hs.without _)
  | issue output draft site =>
    refine .bind ((Tries.attached output).mono ?_)
    rintro ⟨k, id⟩ _ ⟨rfl, rfl⟩
    refine .bind ((Tries.usable _).mono ?_)
    rintro i _ ⟨rfl, hi⟩
    refine .map ((Tries.addInstruction k _ i site).mono ?_)
    rintro _ s' ⟨h, a, b, hplace, rfl, hb, hs⟩
    cases h with
    | shot => cases hplace
    | device p =>
      cases hplace
      exact .issue hi (Shot.gainsInstruction_of_addInstruction hb) hs
  | pulse trigger time duration site =>
    refine .bind ((Tries.attached trigger).mono ?_)
    rintro ⟨k, id⟩ _ ⟨rfl, rfl⟩
    refine .bind ((Tries.build k (Build.checksFirst_addPulse id time duration site)).mono ?_)
    rintro _ s' ⟨a, e, he, hs⟩
    obtain ⟨⟨⟩, b, hb, he⟩ := run_bind_eq_ok.mp he
    have hrise := Shot.gainsInstruction_of_addInstruction hb
    have hfall := Shot.gainsInstruction_of_addInstruction he
    -- the shot is there after the change, so that the answer cannot fail
    refine .bind (.shot_of hs.after (.pure ?_))
    rw [hfall.size]
    exact .pulse hrise hfall hs
  | setOutputDelay p x =>
    refine .map ((Tries.configure p ?_).mono fun _ _ h => .configured rfl h)
    exact fun d title d' hd => Device.setOutputDelay_eq_ok hd
  | setInitialTrigger p x =>
    refine .map ((Tries.configure p ?_).mono fun _ _ h => .configured rfl h)
    exact fun d title d' hd => Device.setInitialTrigger_eq_ok hd
  | _ => cases hc

/-! ## A pulse and its two values -/

section Pulse

variable {k id : Nat} {a : Shot} {site : Site} {time duration : Float}

private theorem perform_issue {draft : InstructionDraft} {i : Instruction} (hi : draft.make = .ok i) :
    perform (.issue (.device k id) draft site) =
      addInstruction k (.device k id) i site >>= fun p => pure (.issued p draft.length) := by
  have hperform : perform (.issue (.device k id) draft site) = usable draft.make >>= fun i =>
      addInstruction k (.device k id) i site >>= fun p => pure (.issued p draft.length) := rfl
  rw [hperform, hi]
  rfl

private theorem perform_pulse :
    perform (.pulse (.device k id) time duration site) =
      build k (Build.addPulse id time duration site) >>= fun _ => shot k >>= fun e =>
        pure (.issued (.instruction k (e.instructions.size - 1)) duration) := rfl

/-- Issuing an instruction puts it on the output, or does nothing. -/
theorem run_issue (ha : s.shot? k = some a) (id : Nat) (draft : InstructionDraft) {i : Instruction}
    (hi : draft.make = .ok i) (site : Site) :
    (perform (.issue (.device k id) draft site)).run s =
      match (Build.addInstruction (.device id) i site 0).run a with
      | .ok _ b =>
        .ok (.issued (.instruction k a.instructions.size) draft.length)
          { s with shots := s.shots.setIfInBounds k b }
      | .error e _ => .error e s := by
  have hhost : (hostIn k (.device k id)).run s = .ok (.device id) s := by
    rw [hostIn, EStateM.run_bind, run_shot, ha]
    simp [EStateM.run_pure]
  have hadd : (addInstruction k (.device k id) i site).run s =
      match (Build.addInstruction (.device id) i site 0).run a with
      | .ok _ b => .ok (.instruction k a.instructions.size) { s with shots := s.shots.setIfInBounds k b }
      | .error e _ => .error e s := by
    rw [addInstruction, EStateM.run_bind, run_shot, ha]
    dsimp only
    rw [EStateM.run_bind, hhost]
    dsimp only
    rw [EStateM.run_bind, run_build ha (Build.checksFirst_addInstruction _ i site 0)]
    cases (Build.addInstruction (.device id) i site 0).run a <;> rfl
  rw [perform_issue hi, EStateM.run_bind, hadd]
  cases (Build.addInstruction (.device id) i site 0).run a <;> rfl

private theorem run_pulse (ha : s.shot? k = some a) (id : Nat) (time duration : Float) (site : Site) :
    (perform (.pulse (.device k id) time duration site)).run s =
      match (Build.addPulse id time duration site).run a with
      | .ok _ e =>
        .ok (.issued (.instruction k (e.instructions.size - 1)) duration)
          { s with shots := s.shots.setIfInBounds k e }
      | .error f _ => .error f s := by
  rw [perform_pulse, EStateM.run_bind, run_build ha (Build.checksFirst_addPulse id time duration site)]
  cases (Build.addPulse id time duration site).run a with
  | error f _ => rfl
  | ok _ e =>
    dsimp only
    rw [EStateM.run_bind, run_shot, (replaces_setIfInBounds ha e).after]
    rfl

private theorem pulsesTwice_of_error {p : Place} {f : Fault}
    (hissue : (perform (.issue p (.constant time 1) site)).run s = .error f s)
    (hpulse : (perform (.pulse p time duration site)).run s = .error f s) :
    s.PulsesTwice p time duration site where
  refused g s' h := by
    rw [hissue] at h
    cases h
    exact hpulse
  follows r s₁ h := by
    rw [hissue] at h
    cases h

/-- Once the trigger admits the first value, nothing but a full arena keeps out either of them. -/
private theorem pulsesTwice_of_admits (ha : s.shot? k = some a)
    (hadmits : a.AdmitsInstruction (.device id) { time, action := .constant 1 }) :
    s.PulsesTwice (.device k id) time duration site := by
  have hissue := run_issue ha id (.constant time 1) rfl site
  have hpulse := run_pulse ha id time duration site
  rw [Build.run_addInstruction hadmits, Nat.add_zero] at hissue
  rw [Build.run_addPulse hadmits] at hpulse
  by_cases hfull : arenaCapacity ≤ a.instructions.size
  · rw [if_pos hfull] at hissue
    rw [if_pos (Nat.le_succ_of_le hfull)] at hpulse
    exact pulsesTwice_of_error hissue hpulse
  rw [if_neg hfull] at hissue
  constructor
  case refused =>
    intro f s' h
    rw [hissue] at h
    cases h
  case follows =>
    intro r s₁ h
    rw [hissue] at h
    cases h
    let b := a.withInstruction (.device id) { time, action := .constant 1 } site
    have hb := (replaces_setIfInBounds ha b).after
    have hagain : b.AdmitsInstruction (.device id) { time := time + duration, action := .constant 0 } :=
      hadmits.again rfl
    have hfall := run_issue hb id (.constant (time + duration) 0) rfl site
    rw [Build.run_addInstruction hagain, Nat.add_zero] at hfall
    have hsize : b.instructions.size = a.instructions.size + 1 :=
      Shot.instructions_size_withInstruction _
    by_cases hnext : arenaCapacity ≤ b.instructions.size
    · rw [if_pos hnext] at hfall
      rw [if_pos (hsize ▸ hnext)] at hpulse
      exact .inr ⟨k, b, hb, hnext, hfall, hpulse⟩
    · rw [if_neg hnext] at hfall
      rw [if_neg (hsize ▸ hnext)] at hpulse
      simp only [hsize, Array.setIfInBounds_setIfInBounds] at hfall
      simp only [Shot.instructions_size_withInstruction, Nat.add_sub_cancel] at hpulse
      exact .inl ⟨_, _, hfall, hpulse⟩

end Pulse

/-- A trigger that stands in no shot is refused for a pulse as for a value. -/
private theorem attached_fails {p : Place} (h : ∀ k id, p ≠ .device k id) :
    ∃ f, (attached p).run s = .error f s := by
  have ht := Tries.attached (s := s) p
  cases hx : (attached p).run s with
  | ok q s' => exact absurd (ht.ok hx).2 (h _ _)
  | error f s' => exact ⟨f, ht.error hx ▸ rfl⟩

theorem pulsesTwice (s : Session) (trigger : Place) (time duration : Float) (site : Site) :
    s.PulsesTwice trigger time duration site := by
  by_cases hplace : ∃ k id, trigger = .device k id
  · obtain ⟨k, id, rfl⟩ := hplace
    cases ha : s.shot? k with
    | none =>
      have hissue : (perform (.issue (.device k id) (.constant time 1) site)).run s =
          .error (.use .noSuchNode) s := by
        rw [perform_issue rfl, EStateM.run_bind, addInstruction, EStateM.run_bind, run_shot, ha]
      have hpulse : (perform (.pulse (.device k id) time duration site)).run s =
          .error (.use .noSuchNode) s := by
        rw [perform_pulse, EStateM.run_bind, run_build_missing ha]
      exact pulsesTwice_of_error hissue hpulse
    | some a =>
      by_cases hadmits : a.AdmitsInstruction (.device id) { time, action := .constant 1 }
      · exact pulsesTwice_of_admits ha hadmits
      · obtain ⟨f, hpulse, hissue⟩ := Build.run_addPulse_refused hadmits duration site
        have hrun := run_issue ha id (.constant time 1) rfl site
        have hrun' := run_pulse ha id time duration site
        rw [hissue] at hrun
        rw [hpulse] at hrun'
        exact pulsesTwice_of_error hrun hrun'
  · obtain ⟨f, hf⟩ := attached_fails (s := s) fun k id h => hplace ⟨k, id, h⟩
    have hissue : (perform (.issue trigger (.constant time 1) site)).run s = .error f s := by
      rw [perform, EStateM.run_bind, hf]
    have hpulse : (perform (.pulse trigger time duration site)).run s = .error f s := by
      rw [perform, EStateM.run_bind, hf]
    exact pulsesTwice_of_error hissue hpulse

end Act

namespace Session

variable {raw : Bool} {s : Session} {c : Command}

/-- In every session that commands lead to, a command that builds does all or nothing. -/
theorem allOrNothing_of_builds (h : s.Reachable raw) (hc : c.builds) : s.AllOrNothing c := by
  have htries := Act.tries_perform h.keepsLoose
    (fun k a ha => Shot.Grown.knowsMaster (Shot.Reachable.grown ⟨s, k, h, ha⟩)) hc
  constructor
  case shots =>
    intro f s' hrun
    rw [htries.error hrun, shots_without]
  case nothing => exact fun f s' hrun => htries.error hrun
  case all => exact fun r s' hrun => htries.ok hrun
  case twice =>
    intro trigger time duration site _
    exact Act.pulsesTwice s trigger time duration site

/-- Two shots, the first with a trigger, and a loose output. -/
private def twins : List Command := [
  .openShot "left" {} {},
  .openShot "right" {} {},
  .addDevice 0 (.shot 0) { name := "master", equipment := .pseudoclockDevice 0 } {},
  .addDevice 0 (.device 0 0) { name := "clock", equipment := .pseudoclock ⟨1, 0, 10⟩ } {},
  .addDevice 0 (.device 0 1) { name := "line", equipment := .clockLine } {},
  .addDevice 0 (.device 0 2) { name := "card", equipment := .clockableDevice 0 0 } {},
  .addDevice 0 (.device 0 3) { name := "shutter", equipment := .trigger } {},
  .makeDevice { name := "spare", equipment := .output },
  .start 0]

/-- The loose output does not enter one shot below a device of the other; the trigger gets its pulse. -/
theorem allOrNothing_of_twins :
    let s := script twins
    let stray := Command.attachDevice 1 (.device 0 3) 0 {}
    let pulse := Command.pulse (.device 0 4) 10 5 {}
    s.Reachable false ∧ s.shots.size = 2 ∧
      isOk ((perform stray).run s) = false ∧ s.AllOrNothing stray ∧
      isOk ((perform pulse).run s) = true ∧ s.AllOrNothing pulse := by
  have hr : (script twins).Reachable false := reachable_script (by decide)
  have hrun : (script twins).shots.size = 2 ∧
      isOk ((perform (.attachDevice 1 (.device 0 3) 0 {})).run (script twins)) = false ∧
      isOk ((perform (.pulse (.device 0 4) 10 5 {})).run (script twins)) = true := by decide +kernel
  exact ⟨hr, hrun.1, hrun.2.1, allOrNothing_of_builds hr rfl, hrun.2.2, allOrNothing_of_builds hr rfl⟩

end Session
end ShotTiming
