import ShotTiming.Proofs.Settings

/-! # What a refused document leaves behind

A document is refused at the first of its keys that cannot be read, and by then the keys before it have
been stored. So a configuration is as it was exactly if it had their values already. -/
namespace ShotTiming.Configuration

variable {d : Document} {entries : List (String × Document)} {ks : List Key} {c c' : Configuration}
  {f : SettingsFault}

theorem ext_get (h : ∀ k : Key, k.get c' = k.get c) : c' = c := by
  obtain ⟨⟨x, y, r, b⟩, l⟩ := c
  obtain ⟨⟨x', y', r', b'⟩, l'⟩ := c'
  obtain rfl : x' = x := h .epsilon
  obtain rfl : y' = y := h .tolerance
  obtain rfl : r' = r := h .rounding
  obtain rfl : b' = b := h .batch
  obtain rfl : l' = l := h .threshold
  rfl

/-- Reading one key fails where its value cannot be used, and changes nothing. -/
theorem run_key_error {k : Key} (h : (key entries k.name k.read).run c = .error f c') :
    (∃ e, entries.lookup k.name = some e ∧ k.parse e = .error f) ∧ c' = c := by
  rw [run_key] at h
  cases he : entries.lookup k.name with
  | none => simp [he] at h
  | some e =>
    cases hp : k.parse e with
    | ok v => simp [he, hp] at h
    | error g =>
      simp only [he, Option.map_some, hp] at h
      cases h
      exact ⟨⟨e, rfl, hp⟩, rfl⟩

/-- Reading some keys fails at the first that cannot be read, with the keys before it read. -/
theorem run_keys_error (h : (ks.forM fun k => key entries k.name k.read).run c = .error f c') :
    ∃ pre k post, ks = pre ++ k :: post ∧ (∃ e, entries.lookup k.name = some e ∧ k.parse e = .error f) ∧
      (pre.forM fun k => key entries k.name k.read).run c = .ok () c' := by
  induction ks generalizing c with
  | nil => cases h
  | cons l ks ih =>
    rw [run_forM_cons] at h
    cases hl : (key entries l.name l.read).run c with
    | ok u c₁ =>
      rw [hl] at h
      obtain ⟨pre, k, post, rfl, hk, hpre⟩ := ih h
      refine ⟨l :: pre, k, post, rfl, hk, ?_⟩
      rw [run_forM_cons, hl]
      exact hpre
    | error g c₁ =>
      rw [hl] at h
      cases h
      obtain ⟨hfault, rfl⟩ := run_key_error hl
      exact ⟨[], l, ks, rfl, hfault, rfl⟩

/-- The keys that are read before a key. -/
def Key.before (k : Key) : List Key := all.takeWhile (· ≠ k)

theorem Key.before_eq {k : Key} {pre post : List Key} (h : all = pre ++ k :: post) : k.before = pre := by
  have hn : (pre ++ k :: post).Nodup := h ▸ by decide
  have hk : ∀ l ∈ pre, decide (l ≠ k) := fun l hl =>
    decide_eq_true ((List.nodup_append.mp hn).2.2 l hl k (.head _))
  rw [before, h, List.takeWhile_append_of_pos hk, List.takeWhile_cons_of_neg (by simp), List.append_nil]

/-- Why a document is refused, and which keys have been read by then. -/
inductive Refuses (d : Document) : SettingsFault → List Key → Prop
  /-- What is no table is refused as a whole. -/
  | form : (∀ entries, d ≠ .table entries) → Refuses d .notTable []
  /-- A table is refused at a key that says nothing, if what it has for the keys before says something. -/
  | key {k : Key} {e : Document} {f : SettingsFault} : d.entries.lookup k.name = some e →
    k.parse e = .error f →
    (∀ l ∈ k.before, ∀ e, d.entries.lookup l.name = some e → ∃ v, l.Says e v) → Refuses d f k.before

/-- What is left where some keys of a document were read before it was refused. -/
structure LeavesRead (d : Document) (read : List Key) (c c' : Configuration) : Prop where
  stored : ∀ k ∈ read, ∀ e, d.entries.lookup k.name = some e → k.Says e (k.get c')
  kept : ∀ k : Key, (k ∈ read → d.entries.lookup k.name = none) → k.get c' = k.get c
  /-- The threshold of the log is read last, so a refused document never sets it. -/
  threshold : c'.threshold = c.threshold
  unchanged_iff : c' = c ↔ ∀ k ∈ read, ∀ e, d.entries.lookup k.name = some e → k.Says e (k.get c)

theorem leavesRead_of_stored {read : List Key}
    (hs : ∀ k ∈ read, ∀ e, d.entries.lookup k.name = some e → k.Says e (k.get c'))
    (hk : ∀ k : Key, (k ∈ read → d.entries.lookup k.name = none) → k.get c' = k.get c)
    (ht : .threshold ∉ read) : LeavesRead d read c c' where
  stored := hs
  kept := hk
  threshold := hk .threshold fun h => absurd h ht
  unchanged_iff := by
    refine ⟨fun h => h ▸ hs, fun h => ext_get fun k => ?_⟩
    by_cases hread : k ∈ read ∧ d.entries.lookup k.name ≠ none
    · obtain ⟨e, he⟩ := Option.ne_none_iff_exists'.mp hread.2
      exact (hs k hread.1 e he).unique (h k hread.1 e he)
    · exact hk k fun hmem => by_contra fun hne => hread ⟨hmem, hne⟩

private theorem leavesRead_keys {pre : List Key} (hn : pre.Nodup) (ht : .threshold ∉ pre)
    (h : (pre.forM fun k => key entries k.name k.read).run c = .ok () c') :
    LeavesRead (.table entries) pre c c' := by
  refine leavesRead_of_stored (says_of_keys hn h) (fun k hk => ?_) ht
  have hafter : k.get (after (pre.forM fun k => key entries k.name k.read) c) = k.get c := by
    refine after_keys (P := fun c' => k.get c' = k.get c) (fun l hl e v c₁ he _ hc₁ => ?_) rfl
    refine (Key.get_put_of_ne ?_ v c₁).trans hc₁
    rintro rfl
    exact absurd (he.symm.trans (hk hl)) (by simp)
  rwa [after, h] at hafter

/-- Where a document is refused, the keys before the one at fault have been stored and all else is as it was.
So nothing is changed exactly if what the document says for these keys was there already. -/
theorem leavesRead_of_refused (h : (load d).run c = .error f c') :
    ∃ read, Refuses d f read ∧ LeavesRead d read c c' := by
  have hempty : LeavesRead d [] c c :=
    leavesRead_of_stored (fun _ hk => absurd hk List.not_mem_nil) (fun _ _ => rfl) List.not_mem_nil
  cases d with
  | null => cases h
  | table entries =>
    rw [load_table] at h
    obtain ⟨pre, k, post, hall, ⟨e, he, hk⟩, hpre⟩ := run_keys_error h
    have hn : (pre ++ k :: post).Nodup := hall ▸ by decide
    have ht : .threshold ∉ pre := by
      rw [← Key.before_eq hall]
      cases k <;> decide
    refine ⟨k.before, .key he hk fun l hl e hle => ?_, ?_⟩
    · rw [Key.before_eq hall] at hl
      exact keys_ok_iff.mp ⟨c', hpre⟩ l hl e hle
    · rw [Key.before_eq hall]
      exact leavesRead_keys (List.nodup_append.mp hn).1 ht hpre
  | number | flag | text | list =>
    cases h
    exact ⟨[], .form (by simp), hempty⟩

/-- A table whose second key cannot be read. -/
private def halfRead : Document := .table [("epsilon", .number 0.5), ("rounding", .text "down")]

private theorem run_halfRead : (load halfRead).run {} =
    .error (.unknownRoundingName "down") { settings := { epsilon := 0.5 } } := rfl

theorem leavesRead_of_halfRead : ∃ f c' read, (load halfRead).run {} = .error f c' ∧
    c'.settings.epsilon = 0.5 ∧ Refuses halfRead f read ∧ LeavesRead halfRead read {} c' := by
  obtain ⟨read, hrefuses, hleaves⟩ := leavesRead_of_refused run_halfRead
  exact ⟨_, _, read, run_halfRead, rfl, hrefuses, hleaves⟩

/-- A refused document can leave other settings than it found. -/
theorem not_unchanged_of_halfRead : ¬ ∀ (d : Document) (c : Configuration) (f : SettingsFault)
    (c' : Configuration), (load d).run c = .error f c' → c' = c := by
  intro h
  have hsame := h _ _ _ _ run_halfRead
  revert hsame
  decide

end ShotTiming.Configuration
