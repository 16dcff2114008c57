import Mathlib.Data.List.ReduceOption
import ShotTiming.Proofs.Compile.Verdict
import ShotTiming.Proofs.Validation.Report

/-! # Conflicts on an output

The report and the log of an output against the pairs of its instructions: an instruction is reported
or warned about, once, for what some earlier instruction of its segment is to it.
-/
namespace ShotTiming

namespace Finding

/-- Compares two instructions of an output. -/
def isConflict : Finding → Bool
  | sameTick .. | overlap .. | sharedTick .. => true
  | _ => false

/-- Is about the place of one instruction of an output. -/
def isPlacement : Finding → Bool
  | startsTooEarly _ | negativeDuration _ | partialSample _ | crossesWait .. | afterStop _ => true
  | _ => false

/-- The instructions that share a tick, the later one second. -/
def shared? : Finding → Option (Entry × Entry)
  | sharedTick e other => some (other, e)
  | _ => none

theorem isConflict_of_code {f : Finding} {c : ViolationCode} (hc : c = .overlap ∨ c = .sameTick)
    (h : f.code? = some c) : f.isConflict := by
  rcases hc with rfl | rfl <;> cases f <;> simp [code?, isConflict] at h ⊢

theorem isConflict_of_shared {f : Finding} {w : Entry × Entry} (h : f.shared? = some w) :
    f.isConflict ∧ f.node = w.2.node := by
  cases f <;> simp only [shared?, reduceCtorEq, Option.some.injEq] at h
  subst h
  exact ⟨rfl, rfl⟩

end Finding

namespace Scan

variable {c : Scan} {e : Entry} {es : List Entry} {f : Finding}

theorem isConflict_of_conflict? (h : c.conflict? e = some f) : f.isConflict ∧ f.node = e.node := by
  simp only [conflict?, pointConflict?, rampConflict?] at h
  split at h <;> split at h <;>
    first
      | cases h
        exact ⟨rfl, rfl⟩
      | obtain ⟨a, -, rfl⟩ := Option.map_eq_some_iff.mp h
        exact ⟨rfl, rfl⟩

theorem mem_conflicts (h : f ∈ (c.conflicts es).reduceOption) : ∃ e ∈ es, f.isConflict ∧ f.node = e.node := by
  induction es generalizing c with
  | nil => simp [conflicts, List.reduceOption] at h
  | cons e es ih =>
    rw [List.reduceOption_mem_iff, conflicts, List.mem_cons] at h
    rcases h with h | h
    · exact ⟨e, by simp, isConflict_of_conflict? (c := c) h.symm⟩
    · obtain ⟨a, ha, hf⟩ := ih (List.reduceOption_mem_iff.mpr h)
      exact ⟨a, by simp [ha], hf⟩

/-- What is found on one of some different instructions is found when it is passed. -/
theorem countP_conflicts {pre post : List Entry} {g : Finding → Bool}
    (hid : (pre ++ e :: post).Pairwise fun a b => a.id ≠ b.id) (hg : ∀ f, g f → f.node = e.node) :
    (conflicts {} (pre ++ e :: post)).reduceOption.countP g =
      ((passed pre).conflict? e).toList.countP g := by
  obtain ⟨-, hpost, hpre⟩ := List.pairwise_append.mp hid
  have hnone : ∀ {c : Scan} {es : List Entry}, (∀ a ∈ es, a.id ≠ e.id) →
      (c.conflicts es).reduceOption.countP g = 0 := by
    intro c es hes
    refine List.countP_eq_zero.mpr fun f hf hgf => ?_
    obtain ⟨a, ha, -, hnode⟩ := mem_conflicts hf
    exact hes a ha (Node.instruction.inj (hnode.symm.trans (hg f hgf)))
  have hbefore := hnone (c := {}) fun a ha => hpre a ha e (by simp)
  have hafter := hnone (c := (passed pre).pass e) fun a ha => ((List.pairwise_cons.mp hpost).1 a ha).symm
  have hsplit : conflicts {} (pre ++ e :: post) =
      conflicts {} pre ++ (passed pre).conflict? e :: ((passed pre).pass e).conflicts post :=
    conflicts_append {} pre (e :: post)
  rw [hsplit, List.reduceOption_append, List.countP_append, hbefore, Nat.zero_add]
  cases (passed pre).conflict? e with
  | none => exact hafter
  | some f => rw [List.reduceOption_cons_of_some, List.countP_cons, hafter]; simp [List.countP_cons]

/-- Everything that is found on instructions in order is found on one of them for what those before it
are to it. -/
theorem exists_conflict (hord : Ordered es) (h : f ∈ (conflicts {} es).reduceOption) :
    ∃ pre e post, es = pre ++ e :: post ∧ Conflict pre e (some f) := by
  induction es using List.reverseRecOn with
  | nil => simp [conflicts, List.reduceOption] at h
  | append_singleton pre e ih =>
    have hsplit : conflicts {} (pre ++ [e]) = conflicts {} pre ++ [(passed pre).conflict? e] :=
      conflicts_append {} pre [e]
    rw [hsplit, List.reduceOption_mem_iff, List.mem_append, List.mem_singleton] at h
    rcases h with h | h
    · obtain ⟨pre', e', post, rfl, hc⟩ := ih (List.pairwise_append.mp hord).1 (List.reduceOption_mem_iff.mpr h)
      exact ⟨pre', e', post ++ [e], by simp, hc⟩
    · exact ⟨pre, e, [], rfl, h ▸ conflict_passed hord⟩

end Scan

/-- An instruction only shares a tick with some that stand before it: a point with a ramp that runs to it
and no point, a ramp with a point and no ramp that runs past its start. -/
def Entry.SharesTick (pre : List Entry) (e : Entry) : Prop :=
  (e.timing.isPoint ∧ (¬ ∃ a ∈ pre, a.IsPointAt e) ∧ ∃ r ∈ pre, r.RunsTo e) ∨
    (¬ e.timing.isPoint ∧ (¬ ∃ r ∈ pre, r.RunsPast e) ∧ ∃ a ∈ pre, a.IsPointAt e)

namespace Conflict

variable {pre : List Entry} {e : Entry} {o : Option Finding}

private theorem countP_blames {c : ViolationCode} {f : Finding} (hc : f.code? = some c)
    (hn : f.node = e.node) : (some f).toList.countP (Finding.Blames c e ·) = 1 := by
  simp [Finding.Blames, hc, hn]

theorem onceIf_overlap (h : Conflict pre e o) :
    OnceIf (o.toList.countP (Finding.Blames .overlap e ·)) (¬ e.timing.isPoint ∧ ∃ r ∈ pre, r.RunsPast e) := by
  cases h with
  | overlap he hr hpast =>
    rw [countP_blames rfl rfl]
    apply onceIf_one
    exact ⟨he, _, hr, hpast⟩
  | sameTick he _ _ | onRamp he _ _ _ | freePoint he _ _ =>
    apply onceIf_zero
    exact fun hc => hc.1 he
  | onPoint _ hno _ _ | freeRamp _ hno _ =>
    apply onceIf_zero
    exact fun ⟨_, r, hr, hpast⟩ => hno r hr hpast

theorem onceIf_sameTick (h : Conflict pre e o) :
    OnceIf (o.toList.countP (Finding.Blames .sameTick e ·)) (e.timing.isPoint ∧ ∃ a ∈ pre, a.IsPointAt e) := by
  cases h with
  | sameTick he ha hat =>
    rw [countP_blames rfl rfl]
    apply onceIf_one
    exact ⟨he, _, ha, hat⟩
  | onRamp _ hno _ _ | freePoint _ hno _ =>
    apply onceIf_zero
    exact fun ⟨_, a, ha, hat⟩ => hno a ha hat
  | overlap he _ _ | onPoint he _ _ _ | freeRamp he _ _ =>
    apply onceIf_zero
    exact fun hc => he hc.1

theorem onceIf_shared (h : Conflict pre e o) :
    OnceIf (o.toList.countP fun f => f.shared?.any (·.2.id = e.id)) (e.SharesTick pre) := by
  have hone : ∀ a : Entry, [Finding.sharedTick e a].countP (fun f => f.shared?.any (·.2.id = e.id)) = 1 :=
    fun a => by simp [Finding.shared?]
  cases h with
  | sameTick he ha hat =>
    apply onceIf_zero
    rintro (⟨-, hno, -⟩ | ⟨hr, -⟩)
    · exact hno ⟨_, ha, hat⟩
    · exact hr he
  | onRamp he hno hr hto =>
    rw [Option.toList_some, hone]
    apply onceIf_one
    exact .inl ⟨he, fun ⟨a, ha, hat⟩ => hno a ha hat, _, hr, hto⟩
  | freePoint he _ hto =>
    apply onceIf_zero
    rintro (⟨-, -, r, hr, hrt⟩ | ⟨hr, -⟩)
    · exact hto r hr hrt
    · exact hr he
  | overlap he hr hpast =>
    apply onceIf_zero
    rintro (⟨hp, -⟩ | ⟨-, hno, -⟩)
    · exact he hp
    · exact hno ⟨_, hr, hpast⟩
  | onPoint he hno ha hat =>
    rw [Option.toList_some, hone]
    apply onceIf_one
    exact .inr ⟨he, fun ⟨r, hr, hpast⟩ => hno r hr hpast, _, ha, hat⟩
  | freeRamp he _ hat =>
    apply onceIf_zero
    rintro (⟨hp, -⟩ | ⟨-, -, a, ha, hata⟩)
    · exact he hp
    · exact hat a ha hata

/-- A tick is shared with one of the instructions before. -/
theorem of_shared {f : Finding} {w : Entry × Entry} (h : Conflict pre e (some f)) (hf : f.shared? = some w) :
    w.2 = e ∧ w.1 ∈ pre ∧ (w.1.IsPointAt e ∨ w.1.RunsTo e) := by
  cases h with
  | onRamp _ _ hr hto =>
    cases hf
    exact ⟨rfl, hr, .inr hto⟩
  | onPoint _ _ ha hat =>
    cases hf
    exact ⟨rfl, ha, .inl hat⟩
  | sameTick | overlap => cases hf

end Conflict

namespace Shot

variable {s : Shot} {id : Nat} {k : DeviceKind}

/-- The points at a tick of a segment. -/
def pointsAt (es : List Entry) (segment : Nat) (tick : Int) : List Entry :=
  es.filter fun e => e.timing.segment = segment ∧ e.timing.isPoint ∧ e.timing.ticks = tick

/-- The warning that two instructions share a tick, the later one second. -/
def sharedTickMessage (s : Shot) (w : Entry × Entry) : Message :=
  ⟨.warn, (s.subject w.1.node).describe ++ " and " ++ (s.subject w.2.node).describe ++ " share tick " ++
    toString w.2.timing.ticks ++ ", the one created later takes effect.\n"⟩

/-- What is reported and logged about pairs of instructions that are listed in order. Only instructions
of the list are blamed, and each is compared only with those before it in its segment. -/
structure ReportsPairs (s : Shot) (es : List Entry) (vs : List Violation) (ms : List Message) : Prop where
  /-- A ramp that starts before an earlier one has ended. -/
  overlap : ∀ pre j post, es = pre ++ j :: post →
    OnceIf (timesBlamed .overlap j vs) (¬ j.timing.isPoint ∧ ∃ i ∈ pre, i.RunsPast j)
  /-- A point at the tick of an earlier one. -/
  sameTick : ∀ pre j post, es = pre ++ j :: post →
    OnceIf (timesBlamed .sameTick j vs) (j.timing.isPoint ∧ ∃ i ∈ pre, i.IsPointAt j)
  /-- Of some points at one tick, there are reports on all but one. -/
  crowd : ∀ segment tick, ((pointsAt es segment tick).map (timesBlamed .sameTick · vs)).sum =
    (pointsAt es segment tick).length - 1
  others : ∀ v ∈ vs, v.code = .overlap ∨ v.code = .sameTick → ∃ e ∈ es, v.node = e.node.ref
  /-- The log consists of warnings, each about one instruction and one before it. -/
  warnings : ∃ ws : List (Entry × Entry), ms = ws.map s.sharedTickMessage ∧
    (∀ w ∈ ws, ∃ pre post, es = pre ++ w.2 :: post ∧ w.1 ∈ pre ∧ (w.1.IsPointAt w.2 ∨ w.1.RunsTo w.2)) ∧
    ∀ pre j post, es = pre ++ j :: post → OnceIf (ws.countP (·.2.id = j.id)) (j.SharesTick pre)

/-! ## The findings that compare instructions -/

private theorem filter_zipWith {f : Entry → List Finding} {es : List Entry} {os : List (Option Finding)}
    (hl : os.length = es.length) (hf : ∀ e ∈ es, (f e).filter Finding.isConflict = [])
    (ho : ∀ g ∈ os.reduceOption, g.isConflict) :
    (List.zipWith (fun e o => f e ++ o.toList) es os).flatten.filter Finding.isConflict =
      os.reduceOption := by
  induction es generalizing os with
  | nil =>
    obtain rfl := List.length_eq_zero_iff.mp hl
    rfl
  | cons e es ih =>
    cases os with
    | nil => simp at hl
    | cons o os =>
      have hl' : os.length = es.length := by simpa using hl
      have hrest := ih hl' (fun a ha => hf a (by simp [ha])) fun g hg =>
        ho g (List.reduceOption_mem_iff.mpr (List.mem_cons_of_mem _ (List.reduceOption_mem_iff.mp hg)))
      rw [List.zipWith_cons_cons, List.flatten_cons, List.filter_append, List.filter_append,
        hf e (by simp), hrest]
      cases o with
      | none => rfl
      | some g =>
        have hg : g.isConflict := ho g (by simp [List.reduceOption])
        simp [List.reduceOption_cons_of_some, hg]

private theorem isPlacement_of_placement {e : Entry} {f : Finding} (hf : f ∈ e.placementFindings) :
    f.isPlacement := by
  simp only [Entry.placementFindings, List.mem_append, List.mem_ite_nil_right, List.mem_singleton] at hf
  rcases hf with ⟨-, rfl⟩ | hf
  · rfl
  · split at hf
    · cases List.mem_singleton.mp hf
      rfl
    · obtain ⟨-, hf⟩ := List.mem_ite_nil_right.mp hf
      cases List.mem_singleton.mp hf
      rfl

private theorem isPlacement_of_boundary {e : Entry} {f : Finding} (hf : f ∈ s.boundaryFindings e) :
    f.isPlacement := by
  obtain ⟨w, rfl⟩ | rfl := crossesWait_or_afterStop hf
  · rfl
  · rfl

private theorem filter_placement (s : Shot) (e : Entry) :
    (e.placementFindings ++ s.boundaryFindings e).filter Finding.isConflict = [] := by
  refine List.filter_eq_nil_iff.mpr fun f hf hconf => ?_
  have hplace : f.isPlacement :=
    (List.mem_append.mp hf).elim isPlacement_of_placement isPlacement_of_boundary
  cases f <;> simp [Finding.isPlacement, Finding.isConflict] at hplace hconf

/-- Those of an output are what the scan finds. -/
theorem filter_outputFindings (s : Shot) (id : Nat) :
    (s.outputFindings id).filter Finding.isConflict =
      (Scan.conflicts {} (s.timedEntries (s.instructionsOf (.device id)))).reduceOption := by
  rw [outputFindings]
  apply filter_zipWith (f := fun e => e.placementFindings ++ s.boundaryFindings e)
  · exact Scan.length_conflicts _ _
  · exact fun e _ => filter_placement s e
  · intro g hg
    obtain ⟨e, -, hconf, -⟩ := Scan.mem_conflicts hg
    exact hconf

/-- An output is checked instruction by instruction, and each against those before it. -/
theorem placement_or_conflict {f : Finding} (hf : f ∈ s.outputFindings id) : f.isPlacement ∨ f.isConflict := by
  rw [outputFindings, List.mem_flatten] at hf
  obtain ⟨fs, hfs, hf⟩ := hf
  rw [← List.map_uncurry_zip_eq_zipWith, List.mem_map] at hfs
  obtain ⟨⟨e, o⟩, heo, rfl⟩ := hfs
  rcases List.mem_append.mp hf with hf | hf
  · exact .inl ((List.mem_append.mp hf).elim isPlacement_of_placement isPlacement_of_boundary)
  · have hof : o = some f := Option.mem_toList.mp hf
    have ho := (List.of_mem_zip heo).2
    rw [hof] at ho
    obtain ⟨-, -, hconf, -⟩ := Scan.mem_conflicts (List.reduceOption_mem_iff.mpr ho)
    exact .inr hconf

theorem exists_pulse {f : Finding} (hf : f ∈ s.triggerFindings id) :
    ∃ h ∈ HighTime.pulses none (s.entries (s.instructionsOf (.device id))), ∃ width,
      f = .pulseTooShort id h.rise width := by
  rw [triggerFindings] at hf
  split at hf
  · cases hf
  · obtain ⟨h, hh, hw⟩ := List.mem_filterMap.mp hf
    dsimp only at hw
    split at hw
    · cases hw
      exact ⟨h, hh, _, rfl⟩
    · cases hw

private theorem filter_trigger (s : Shot) (id : Nat) :
    (s.triggerFindings id).filter Finding.isConflict = [] := by
  refine List.filter_eq_nil_iff.mpr fun f hf => ?_
  obtain ⟨h, -, width, rfl⟩ := exists_pulse hf
  exact Bool.false_ne_true

private theorem filter_static (s : Shot) (id : Nat) :
    (s.staticFindings id).filter Finding.isConflict = [] := by
  refine List.filter_eq_nil_iff.mpr fun f hf => ?_
  obtain ⟨e, first, rfl⟩ := exists_setAgain hf
  exact Bool.false_ne_true

theorem filter_findingsAt (hk : s.kind? id = some k) (ho : k.isOutput) :
    (s.findingsAt id).filter Finding.isConflict =
      (Scan.conflicts {} (s.timedEntries (s.instructionsOf (.device id)))).reduceOption := by
  rw [findingsAt_eq hk]
  cases k with
  | output => exact filter_outputFindings s id
  | trigger =>
    rw [findingsOf, List.filter_append, filter_trigger, List.append_nil]
    exact filter_outputFindings s id
  | staticOutput =>
    rw [findingsOf, List.filter_append, filter_static, List.append_nil]
    exact filter_outputFindings s id
  | _ => cases ho

/-- The log has a message for each shared tick that is found. -/
theorem warnings_eq (s : Shot) (fs : List Finding) :
    s.warnings fs = (fs.filterMap Finding.shared?).map s.sharedTickMessage := by
  rw [warnings, List.map_filterMap]
  apply List.filterMap_congr
  intro f _
  cases f <;> rfl

theorem ordered_of_standsBefore {es : List Entry} (h : es.Pairwise Entry.StandsBefore) :
    Scan.Ordered es := by
  refine h.imp fun {a b} hab => ?_
  rw [Scan.isBefore_iff]
  unfold Entry.StandsBefore at hab
  omega

/-- Where a point is blamed once if an earlier one has its tick, all but one are blamed. -/
theorem sum_pointsAt {es : List Entry} {times : Entry → Nat} (h : ∀ pre j post, es = pre ++ j :: post →
      OnceIf (times j) (j.timing.isPoint ∧ ∃ i ∈ pre, i.IsPointAt j)) (segment : Nat) (tick : Int) :
    ((pointsAt es segment tick).map times).sum = (pointsAt es segment tick).length - 1 := by
  cases hpoints : pointsAt es segment tick with
  | nil => rfl
  | cons first others =>
    obtain ⟨pre, post, rfl, hpre, hfirst, hothers⟩ := List.filter_eq_cons_iff.mp hpoints
    simp only [decide_eq_true_eq] at hpre hfirst hothers
    have hzero : times first = 0 := by
      refine (h pre first post rfl).2 ?_
      rintro ⟨-, i, hi, hs, hp, ht⟩
      exact hpre i hi ⟨hs.trans hfirst.1, hp, ht.trans hfirst.2.2⟩
    have hone : ∀ e ∈ others, times e = 1 := by
      intro e he
      rw [← hothers, List.mem_filter, decide_eq_true_eq] at he
      obtain ⟨hmem, hs, hp, ht⟩ := he
      obtain ⟨mid, rest, rfl⟩ := List.append_of_mem hmem
      refine (h (pre ++ first :: mid) e rest (by simp)).1 ⟨hp, first, by simp, ?_⟩
      exact ⟨hfirst.1.trans hs.symm, hfirst.2.1, hfirst.2.2.trans ht.symm⟩
    rw [List.map_cons, List.sum_cons, hzero, List.map_congr_left hone, List.map_const', List.sum_replicate]
    simp

section

variable (hs : s.WellFormed) (hk : s.kind? id = some k) (ho : k.isOutput)
  (hord : (s.timedEntries (s.instructionsOf (.device id))).Pairwise Entry.StandsBefore)

include hk ho in
theorem exists_compared {f : Finding} (hf : f ∈ s.findingsAt id) (hc : f.isConflict) :
    ∃ e ∈ s.timedEntries (s.instructionsOf (.device id)), f.node = e.node := by
  have hmem : f ∈ (s.findingsAt id).filter Finding.isConflict := List.mem_filter.mpr ⟨hf, hc⟩
  rw [filter_findingsAt hk ho] at hmem
  obtain ⟨e, he, -, hnode⟩ := Scan.mem_conflicts hmem
  exact ⟨e, he, hnode⟩

include hs hk ho hord

/-- What comparing an instruction comes to is what the scan finds when it comes to it. -/
theorem countP_findingsAt {pre post : List Entry} {j : Entry} {g : Finding → Bool}
    (hes : s.timedEntries (s.instructionsOf (.device id)) = pre ++ j :: post)
    (hg : ∀ f, g f → f.isConflict ∧ f.node = j.node) :
    ∃ o, Conflict pre j o ∧ (s.findingsAt id).countP g = o.toList.countP g := by
  have hid : (s.timedEntries (s.instructionsOf (.device id))).Pairwise fun a b => a.id ≠ b.id :=
    (pairwise_entries (hs.instructions.nodup _) fun _ _ _ _ h => h).filter _
  have hordered := ordered_of_standsBefore hord
  rw [hes] at hid hordered
  have hfirst : Scan.Ordered (pre ++ [j]) := by
    rw [List.append_cons] at hordered
    exact (List.pairwise_append.mp hordered).1
  refine ⟨_, Scan.conflict_passed hfirst, ?_⟩
  have hcount : (s.findingsAt id).countP g = ((s.findingsAt id).filter Finding.isConflict).countP g := by
    rw [List.countP_filter]
    refine List.countP_congr fun f _ => ?_
    rw [Bool.and_eq_true]
    exact ⟨fun h => ⟨h, (hg f h).1⟩, And.left⟩
  rw [hcount, filter_findingsAt hk ho, hes]
  exact Scan.countP_conflicts hid fun f hf => (hg f hf).2

theorem timesBlamed_findingsAt {c : ViolationCode} (hc : c = .overlap ∨ c = .sameTick)
    {pre post : List Entry} {j : Entry}
    (hes : s.timedEntries (s.instructionsOf (.device id)) = pre ++ j :: post) :
    ∃ o, Conflict pre j o ∧ timesBlamed c j (s.violations (s.findingsAt id)) =
      o.toList.countP (Finding.Blames c j ·) := by
  have hj : j ∈ s.timedEntries (s.instructionsOf (.device id)) := by simp [hes]
  have htimes := timesBlamed_violations (c := c) hs.instructions_fit (mem_timedEntries.mp hj).2.1
    fun f hf hfc => by
      obtain ⟨e, he, hnode⟩ := exists_compared hk ho hf (Finding.isConflict_of_code hc hfc)
      exact ⟨e, (mem_timedEntries.mp he).2.1, hnode⟩
  rw [htimes]
  refine countP_findingsAt hs hk ho hord hes fun f hf => ?_
  obtain ⟨hfc, hnode⟩ := of_decide_eq_true hf
  exact ⟨Finding.isConflict_of_code hc hfc, hnode⟩

theorem onceIf_warned {pre post : List Entry} {j : Entry}
    (hes : s.timedEntries (s.instructionsOf (.device id)) = pre ++ j :: post) :
    OnceIf (((s.findingsAt id).filterMap Finding.shared?).countP (·.2.id = j.id)) (j.SharesTick pre) := by
  have hg : ∀ f : Finding, f.shared?.any (·.2.id = j.id) → f.isConflict ∧ f.node = j.node := by
    intro f hf
    obtain ⟨w, hw, hid⟩ := (Option.any_eq_true _ _).mp hf
    obtain ⟨hconf, hnode⟩ := Finding.isConflict_of_shared hw
    exact ⟨hconf, hnode.trans (congrArg Node.instruction (of_decide_eq_true hid))⟩
  obtain ⟨o, hconf, hcount⟩ := countP_findingsAt hs hk ho hord hes hg
  have hshared := hconf.onceIf_shared
  rw [← hcount] at hshared
  have hany : ∀ f : Finding, (f.shared?.map fun w => decide (w.2.id = j.id)).getD false =
      f.shared?.any (·.2.id = j.id) := fun f => by cases f.shared? <;> rfl
  simp only [List.countP_filterMap, hany]
  exact hshared

theorem reportsPairs :
    s.ReportsPairs (s.timedEntries (s.instructionsOf (.device id))) (s.violations (s.findingsAt id))
      (s.warnings (s.findingsAt id)) := by
  have hsameTick : ∀ pre j post, s.timedEntries (s.instructionsOf (.device id)) = pre ++ j :: post →
      OnceIf (timesBlamed .sameTick j (s.violations (s.findingsAt id)))
        (j.timing.isPoint ∧ ∃ i ∈ pre, i.IsPointAt j) := by
    intro pre j post hes
    obtain ⟨o, hconf, htimes⟩ := timesBlamed_findingsAt hs hk ho hord (.inr rfl) hes
    rw [htimes]
    exact hconf.onceIf_sameTick
  constructor
  case overlap =>
    intro pre j post hes
    obtain ⟨o, hconf, htimes⟩ := timesBlamed_findingsAt hs hk ho hord (.inl rfl) hes
    rw [htimes]
    exact hconf.onceIf_overlap
  case sameTick => exact hsameTick
  case crowd => exact sum_pointsAt hsameTick
  case others =>
    intro v hv hcode
    obtain ⟨f, hf, hfc, hnode⟩ := mem_violations hv
    have hconf : f.isConflict := Finding.isConflict_of_code hcode hfc
    obtain ⟨e, he, hfe⟩ := exists_compared hk ho hf hconf
    rw [hnode, hfe]
    exact ⟨e, he, ref_subject (mem_timedEntries.mp he).2.1⟩
  case warnings =>
    refine ⟨_, warnings_eq s _, fun w hw => ?_, fun pre j post hes => ?_⟩
    · obtain ⟨f, hf, hfw⟩ := List.mem_filterMap.mp hw
      have hmem : f ∈ (s.findingsAt id).filter Finding.isConflict :=
        List.mem_filter.mpr ⟨hf, (Finding.isConflict_of_shared hfw).1⟩
      rw [filter_findingsAt hk ho] at hmem
      obtain ⟨pre, e, post, hes, hconf⟩ := Scan.exists_conflict (ordered_of_standsBefore hord) hmem
      obtain ⟨rfl, hpre, hshare⟩ := hconf.of_shared hfw
      exact ⟨pre, post, hes, hpre, hshare⟩
    · exact onceIf_warned hs hk ho hord hes

end

end Shot

namespace Compile
open Shot

variable {p : Progress} {id : Nat} {k : DeviceKind}

/-- The check of an output whose instructions are in order compares each pair of them. -/
theorem reportsPairs_of_check (hs : p.shot.WellFormed) (hk : p.shot.kind? id = some k) (ho : k.isOutput)
    (hord : (p.shot.timedEntries (p.shot.instructionsOf (.device id))).Pairwise Entry.StandsBefore) :
    ∃ vs ms, Reports (checkPass.after id) p vs ms ∧
      p.shot.ReportsPairs (p.shot.timedEntries (p.shot.instructionsOf (.device id))) vs ms :=
  ⟨_, _, reports_check p id, reportsPairs hs hk ho hord⟩

/-- Ramps within a longer one, a point at its end, and three points and a negative ramp at one tick. -/
private def crowded : List Command := Session.bench ++ [
  .issue (.device 0 4) (.constant 60 1) {},
  .issue (.device 0 4) (.function 10 40 (some (polynomial [0, 1])) 0) {},
  .issue (.device 0 4) (.function 20 10 (some (polynomial [0, 1])) 0) {},
  .issue (.device 0 4) (.function 35 5 (some (polynomial [0, 1])) 0) {},
  .issue (.device 0 4) (.constant 50 1) {},
  .issue (.device 0 4) (.constant 60 0) {},
  .issue (.device 0 4) (.constant 60 1) {},
  .issue (.device 0 4) (.function 60 (-5) (some (polynomial [0, 1])) 0) {},
  .nextPhase 0,
  .convertTiming 0 (.shot 0)]

theorem reportsPairs_of_crowded : ∃ (p : Progress) (vs : List Violation) (ms : List Message),
    p.shot.WellFormed ∧ p.shot.kind? 4 = some .output ∧
    (p.shot.timedEntries (p.shot.instructionsOf (.device 4))).Pairwise Entry.StandsBefore ∧
    Reports (checkPass.after 4) p vs ms ∧
    p.shot.ReportsPairs (p.shot.timedEntries (p.shot.instructionsOf (.device 4))) vs ms ∧
    vs.map (fun v => (v.code, v.node)) = [(.overlap, (Node.instruction 2).ref),
      (.overlap, (Node.instruction 3).ref), (.sameTick, (Node.instruction 5).ref),
      (.sameTick, (Node.instruction 6).ref), (.negativeDuration, (Node.instruction 7).ref)] ∧
    ms.length = 2 := by
  have hrun : ((Session.script crowded).shot? 0).any fun s => s.kind? 4 = some .output ∧
      (s.timedEntries (s.instructionsOf (.device 4))).Pairwise Entry.StandsBefore ∧
      s.report.violations = #[] ∧
      (after (checkPass.after 4) ⟨s, #[]⟩).shot.report.violations.toList.map (fun v => (v.code, v.node)) =
        [(.overlap, (Node.instruction 2).ref), (.overlap, (Node.instruction 3).ref),
          (.sameTick, (Node.instruction 5).ref), (.sameTick, (Node.instruction 6).ref),
          (.negativeDuration, (Node.instruction 7).ref)] ∧
      (after (checkPass.after 4) ⟨s, #[]⟩).messages.size = 2 := by decide +kernel
  obtain ⟨s, hs, hp⟩ := (Option.any_eq_true _ _).mp hrun
  obtain ⟨hk, hord, hempty, hreport, hlog⟩ := of_decide_eq_true hp
  have hr : s.Reachable false := reachable_of_script (by decide) hs
  have hw := hr.grown.wellFormed
  obtain ⟨vs, ms, hvs, hpairs⟩ := reportsPairs_of_check (p := ⟨s, #[]⟩) hw hk rfl hord
  rw [hvs.after_eq] at hreport hlog
  refine ⟨⟨s, #[]⟩, vs, ms, hw, hk, hord, hvs, hpairs, ?_, ?_⟩
  · simpa [hempty] using hreport
  · simpa using hlog

end Compile
end ShotTiming
