import Mathlib.Data.List.Count
import ShotTiming.Proofs.Compile.Judge
import ShotTiming.Proofs.Validation.Entries

/-! # What the check of a device reports

The findings on a device are added to the report and to the log in their order. How often the report
blames an instruction for something is how often the findings do.
-/
namespace ShotTiming

namespace Finding

/-- The code that a finding is reported under; a shared tick is not reported. -/
def code? : Finding → Option ViolationCode
  | waitTooEarly _ | startsTooEarly _ => some .negativeTime
  | negativeDuration _ => some .negativeDuration
  | partialSample _ => some .partialSample
  | crossesWait .. => some .crossesWait
  | afterStop _ => some .afterStop
  | sameTick .. => some .sameTick
  | overlap .. => some .overlap
  | sharedTick .. => none
  | sampleTooFast .. => some .sampleTooFast
  | ticksTooClose .. => some .tickTooShort
  | pulsesDoNotFit _ => some .clockTriggerTooShort
  | pulseTooShort .. => some .triggerTooShort
  | setAgain .. => some .multipleStatic

/-- The node that a finding is about. -/
def node : Finding → Node
  | waitTooEarly e | startsTooEarly e | negativeDuration e | partialSample e | crossesWait e _
  | afterStop e | sameTick e _ | overlap e _ | sharedTick e _ | sampleTooFast _ e
  | pulseTooShort _ e _ | setAgain e _ => e.node
  | ticksTooClose _ _ later => later.entry.node
  | pulsesDoNotFit line => .device line

/-- A finding with a code is a violation of that code by its node, one without is a warning. -/
theorem note_cases (s : Shot) (f : Finding) :
    (∃ c message, f.code? = some c ∧ f.note s = .violation (s.violation c f.node message)) ∨
      (f.code? = none ∧ ∃ text, f.note s = .warning text) := by
  cases f
  case sharedTick => exact .inr ⟨rfl, _, rfl⟩
  all_goals exact .inl ⟨_, _, rfl, rfl⟩

/-- Findings of one code are of another one only if the codes are the same. -/
theorem filter_map_code {α : Type} {f : α → Finding} {d : ViolationCode} (hf : ∀ a, (f a).code? = some d)
    (c : ViolationCode) (xs : List α) :
    (xs.map f).filter (·.code? = some c) = if d = c then xs.map f else [] := by
  split
  · rename_i hdc
    refine List.filter_eq_self.mpr fun g hg => ?_
    obtain ⟨a, -, rfl⟩ := List.mem_map.mp hg
    simp [hf a, hdc]
  · rename_i hdc
    refine List.filter_eq_nil_iff.mpr fun g hg => ?_
    obtain ⟨a, -, rfl⟩ := List.mem_map.mp hg
    simp [hf a, hdc]

/-- A finding blames an instruction for something. -/
def Blames (c : ViolationCode) (e : Entry) (f : Finding) : Prop := f.code? = some c ∧ f.node = e.node

instance (c : ViolationCode) (e : Entry) (f : Finding) : Decidable (Blames c e f) :=
  inferInstanceAs (Decidable (_ ∧ _))

end Finding

/-- How often an instruction is blamed for something. -/
def timesBlamed (c : ViolationCode) (e : Entry) (vs : List Violation) : Nat :=
  vs.countP fun v => v.code = c ∧ v.node = e.node.ref

/-- Once if a condition holds, and otherwise never. -/
def OnceIf (n : Nat) (condition : Prop) : Prop := (condition → n = 1) ∧ (¬ condition → n = 0)

theorem onceIf_one {condition : Prop} (h : condition) : OnceIf 1 condition := ⟨fun _ => rfl, fun hn => absurd h hn⟩

theorem onceIf_zero {condition : Prop} (h : ¬ condition) : OnceIf 0 condition := ⟨fun hc => absurd hc h, fun _ => rfl⟩

theorem OnceIf.congr {n : Nat} {c d : Prop} (h : OnceIf n c) (hcd : c ↔ d) : OnceIf n d :=
  ⟨fun hd => h.1 (hcd.mpr hd), fun hd => h.2 (mt hcd.mp hd)⟩

/-- Where no two members of a list satisfy a condition, it is satisfied once or never. -/
theorem onceIf_countP {α : Type} {p : α → Bool} {xs : List α} (h : xs.Pairwise fun a b => ¬ (p a ∧ p b)) :
    OnceIf (xs.countP p) (∃ a ∈ xs, p a) := by
  induction xs with
  | nil => simp [OnceIf]
  | cons a xs ih =>
    obtain ⟨ha, hxs⟩ := List.pairwise_cons.mp h
    cases hpa : p a with
    | true =>
      have hnone : xs.countP p = 0 := List.countP_eq_zero.mpr fun b hb hpb => ha b hb ⟨hpa, hpb⟩
      simp [OnceIf, hpa, hnone]
    | false =>
      have hcount : (a :: xs).countP p = xs.countP p := List.countP_cons_of_neg (by simp [hpa])
      rw [hcount]
      apply (ih hxs).congr
      simp [hpa]

namespace Shot

variable {s : Shot} {c : ViolationCode} {e : Entry}

/-- The violations of a code come from the findings of that code. -/
theorem mem_violations {v : Violation} {fs : List Finding} (h : v ∈ s.violations fs) :
    ∃ f ∈ fs, f.code? = some v.code ∧ v.node = (s.subject f.node).ref := by
  obtain ⟨f, hf, hv⟩ := List.mem_filterMap.mp h
  rcases f.note_cases s with ⟨c, message, hc, hn⟩ | ⟨-, text, hn⟩
  · rw [hn] at hv
    cases hv
    exact ⟨f, hf, hc, rfl⟩
  · rw [hn] at hv
    cases hv

/-- The violations of a code are what the findings of that code come to. -/
theorem filter_violations (s : Shot) (c : ViolationCode) (fs : List Finding) :
    (s.violations fs).filter (·.code = c) = s.violations (fs.filter (·.code? = some c)) := by
  rw [violations, violations, List.filter_filterMap, List.filterMap_filter]
  apply List.filterMap_congr
  intro f _
  rcases f.note_cases s with ⟨d, message, hd, hn⟩ | ⟨hd, text, hn⟩
  · by_cases hc : d = c <;> simp [hn, hd, hc, violation]
  · simp [hn]

theorem timesBlamed_filter (fs : List Finding) :
    timesBlamed c e (s.violations fs) = timesBlamed c e (s.violations (fs.filter (·.code? = some c))) := by
  rw [← filter_violations, timesBlamed, timesBlamed, List.countP_filter]
  refine List.countP_congr fun v _ => ?_
  simp only [Bool.and_eq_true, decide_eq_true_eq]
  exact ⟨fun h => ⟨h, h.1⟩, And.left⟩

/-- The report blames an instruction as often as the findings do, where what they blame for it are
instructions. -/
theorem timesBlamed_violations {fs : List Finding} (hfit : s.instructions.size ≤ arenaCapacity)
    (he : e.IsIn s) (hfs : ∀ f ∈ fs, f.code? = some c → ∃ a : Entry, a.IsIn s ∧ f.node = a.node) :
    timesBlamed c e (s.violations fs) = fs.countP (Finding.Blames c e ·) := by
  have hlt : ∀ {a : Entry}, a.IsIn s → a.id < arenaCapacity := fun ha =>
    Nat.lt_of_lt_of_le (instruction?_eq_some ha) hfit
  rw [timesBlamed, violations, List.countP_filterMap]
  apply List.countP_congr
  intro f hf
  rcases f.note_cases s with ⟨d, message, hd, hn⟩ | ⟨hd, text, hn⟩
  · simp only [hn, Option.map_some, Option.getD_some, decide_eq_true_eq, Finding.Blames, hd,
      Option.some_inj]
    apply and_congr_right
    intro hc
    obtain ⟨a, ha, hnode⟩ := hfs f hf (hd.trans (congrArg some hc))
    have href : (s.violation d f.node message).node = a.node.ref := hnode ▸ ref_subject ha
    rw [href, hnode]
    constructor
    · exact fun h => congrArg Node.instruction (Node.instruction_ref_inj (hlt ha) (hlt he) h)
    · exact congrArg Node.ref
  · simp [hn, Finding.Blames, hd]

/-- Where the findings of a code are on the instructions of a list that satisfy a condition, one that is
listed is blamed once if it does. -/
theorem onceIf_timesBlamed {fs : List Finding} {found : Entry → Finding} {P : Entry → Bool} {ids : List Nat}
    (hfit : s.instructions.size ≤ arenaCapacity) (hids : ids.Nodup)
    (hfound : ∀ a, (found a).code? = some c ∧ (found a).node = a.node)
    (hfs : fs.filter (·.code? = some c) = ((s.timedEntries ids).filter P).map found)
    (he : e ∈ s.timedEntries ids) : OnceIf (timesBlamed c e (s.violations fs)) (P e) := by
  have hin := (mem_timedEntries.mp he).2.1
  rw [timesBlamed_filter, hfs, timesBlamed_violations hfit hin, List.countP_map]
  · have hid : (s.timedEntries ids).Pairwise fun a b => a.id ≠ b.id :=
      (pairwise_entries hids fun _ _ _ _ h => h).filter _
    have hblames : ∀ a : Entry, (found a).Blames c e ↔ a.id = e.id := fun a => by
      simp [Finding.Blames, hfound, Entry.node]
    have honce : ∀ a b : Entry, a.id ≠ b.id → ¬ (decide (a.id = e.id) ∧ decide (b.id = e.id)) := by
      simp only [decide_eq_true_eq]
      exact fun a b hab h => hab (h.1.trans h.2.symm)
    simp only [Function.comp_def, hblames]
    refine (onceIf_countP ((hid.filter _).imp (honce _ _))).congr ?_
    simp only [List.mem_filter, decide_eq_true_eq]
    constructor
    · rintro ⟨a, ⟨ha, hpa⟩, hae⟩
      exact eq_of_id (mem_timedEntries.mp ha).2.1 hin hae ▸ hpa
    · exact fun hpe => ⟨e, ⟨he, hpe⟩, rfl⟩
  · intro f hf _
    obtain ⟨a, ha, rfl⟩ := List.mem_map.mp hf
    exact ⟨a, (mem_timedEntries.mp (List.mem_of_mem_filter ha)).2.1, (hfound a).2⟩

end Shot

namespace Compile
open Shot

/-- A step ends well; it adds violations to the report and messages to the log, and does nothing else. -/
def Reports (step : Compile Unit) (p : Progress) (vs : List Violation) (ms : List Message) : Prop :=
  step.run p = .ok ()
    ⟨{ p.shot with report := ⟨p.shot.report.violations ++ vs.toArray⟩ }, p.messages ++ ms.toArray⟩

theorem Reports.after_eq {step : Compile Unit} {p : Progress} {vs : List Violation} {ms : List Message}
    (h : Reports step p vs ms) : after step p =
      ⟨{ p.shot with report := ⟨p.shot.report.violations ++ vs.toArray⟩ }, p.messages ++ ms.toArray⟩ := by
  rw [after, h]

/-- The check of a device, after that of its children, reports what is found on the device. -/
theorem reports_check (p : Progress) (id : Nat) :
    Reports (checkPass.after id) p (p.shot.violations (p.shot.findingsAt id))
      (p.shot.warnings (p.shot.findingsAt id)) := by
  have hafter : checkPass.after id = shot >>= fun s => (s.findingsAt id).forM note := rfl
  rw [Reports, hafter, EStateM.run_bind, run_shot]
  exact run_notes (p.shot.findingsAt id)

end Compile
end ShotTiming
