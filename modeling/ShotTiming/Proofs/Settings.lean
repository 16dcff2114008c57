import ShotTiming.Proofs.Compile.Steps
import ShotTiming.Proofs.Number.Arithmetic
import ShotTiming.Proofs.Shot.Change

/-! # Settings stay in range

Reading a document and checking settings agree on what is in range. However many documents are read, and
wherever reading one of them fails, settings that were in range stay so.
-/
namespace ShotTiming
open Number

/-- A finite time from zero up to a limit. -/
structure IsTime (limit x : Float) : Prop where
  finite : x.isFinite
  nonneg : 0 ≤ x
  le : x ≤ limit

theorem checkTime_eq_ok (key : String) {limit x : Float} (hl : ¬ limit.isNaN) :
    checkTime key limit x = .ok () ↔ IsTime limit x := by
  have hnan (hf : x.isFinite) : ¬ x.isNaN := fun hn => by
    rw [not_isFinite_of_isNaN hn] at hf
    cases hf
  have hzero : ¬ (0 : Float).isNaN := by decide
  have hcond : (!x.isFinite || decide (x < 0) || decide (limit < x)) = false ↔ IsTime limit x := by
    simp only [Bool.or_eq_false_iff, Bool.not_eq_false', decide_eq_false_iff_not]
    constructor
    · rintro ⟨⟨hf, hx⟩, hle⟩
      exact ⟨hf, (Double.not_lt_iff (hnan hf) hzero).mp hx, (Double.not_lt_iff hl (hnan hf)).mp hle⟩
    · rintro ⟨hf, hx, hle⟩
      exact ⟨⟨hf, (Double.not_lt_iff (hnan hf) hzero).mpr hx⟩, (Double.not_lt_iff hl (hnan hf)).mpr hle⟩
  rw [checkTime, ← hcond]
  cases !x.isFinite || decide (x < 0) || decide (limit < x) <;> simp

/-- The settings that a shot can be opened with. -/
structure Settings.InRange (s : Settings) : Prop where
  epsilon : IsTime (1 / 0) s.epsilon
  tolerance : IsTime maxTolerance s.tolerance
  rounding : s.rounding = .nearest ∨ s.rounding = .up

private theorem not_isNaN_limits : ¬ (1 / 0 : Float).isNaN ∧ ¬ maxTolerance.isNaN := by decide

theorem Settings.check_eq_ok {s : Settings} : s.check = .ok () ↔ s.InRange := by
  have hepsilon := checkTime_eq_ok "epsilon" (x := s.epsilon) not_isNaN_limits.1
  have htolerance := checkTime_eq_ok "quantisation_tolerance" (x := s.tolerance) not_isNaN_limits.2
  unfold check
  constructor
  · intro h
    cases he : checkTime "epsilon" (1 / 0) s.epsilon with
    | error f => simp [he, bind, Except.bind] at h
    | ok _ =>
      cases ht : checkTime "quantisation_tolerance" maxTolerance s.tolerance with
      | error f => simp [he, ht, bind, Except.bind] at h
      | ok _ =>
        refine ⟨hepsilon.mp he, htolerance.mp ht, ?_⟩
        cases hr : s.rounding with
        | nearest => exact .inl rfl
        | up => exact .inr rfl
        | other n =>
          simp only [he, ht, hr] at h
          cases h
  · rintro ⟨he, ht, hr⟩
    rw [hepsilon.mpr he, htolerance.mpr ht]
    rcases hr with hr | hr <;> rw [hr] <;> rfl

/-! ## Words -/

/-- A text is a word, of which each letter may be small or capital. -/
def Spells (s word : String) : Prop :=
  List.Forall₂ (fun c letter => c = letter ∨ c = letter.toUpper) s.toList word.toList

private theorem toLower_eq_iff {c letter : Char} (h : letter.isLower) :
    c.toLower = letter ↔ c = letter ∨ c = letter.toUpper := by
  have hletter : letter.toLower = letter :=
    Char.toLower_eq_of_not_isUpper (Char.not_isUpper_of_isLower h)
  constructor
  · rintro rfl
    by_cases hc : c.isUpper
    · right
      rw [Char.toUpper_toLower_eq_toUpper, Char.toUpper_eq_of_not_isLower (Char.not_isLower_of_isUpper hc)]
    · exact .inl (Char.toLower_eq_of_not_isUpper hc).symm
  · rintro (rfl | rfl)
    · exact hletter
    · rw [Char.toLower_toUpper_eq_toLower, hletter]

/-- A text is a word in small letters exactly if it is so once its capitals are made small. -/
theorem spells_iff {s word : String} (h : ∀ c ∈ word.toList, c.isLower) :
    Spells s word ↔ s.toLower = word := by
  have hall : ∀ (cs letters : List Char), (∀ c ∈ letters, c.isLower) →
      (List.Forall₂ (fun c letter => c = letter ∨ c = letter.toUpper) cs letters ↔
        cs.map Char.toLower = letters) := by
    intro cs letters hl
    induction letters generalizing cs with
    | nil => simp
    | cons letter letters ih =>
      cases cs with
      | nil => simp
      | cons c cs =>
        rw [List.forall₂_cons, List.map_cons, List.cons.injEq, ih _ (List.forall_mem_cons.mp hl).2,
          toLower_eq_iff (List.forall_mem_cons.mp hl).1]
  rw [Spells, hall _ _ h, ← String.toList_inj, String.toLower, String.toList_map]

/-- The words for the thresholds. -/
inductive Level.Word : Level → String → Prop
  | debug : Word .debug "debug"
  | info : Word .info "info"
  | warn : Word .warn "warn"
  | warning : Word .warn "warning"
  | error : Word .error "error"
  | none : Word .force "none"

private theorem Level.Word.isLower {l : Level} {word : String} (h : l.Word word) :
    ∀ c ∈ word.toList, c.isLower := by
  cases h <;> simp

theorem Level.ofName?_eq_some {s : String} {l : Level} :
    ofName? s = some l ↔ ∃ word, l.Word word ∧ Spells s word := by
  constructor
  · intro h
    have hword : l.Word s.toLower := by
      unfold ofName? at h
      split at h <;> cases h <;> rename_i hs <;> rw [hs] <;> constructor
    exact ⟨_, hword, (spells_iff hword.isLower).mpr rfl⟩
  · rintro ⟨word, hword, hs⟩
    rw [spells_iff hword.isLower] at hs
    rw [ofName?, hs]
    cases hword <;> rfl

theorem Rounding.ofName?_eq_some {s : String} {r : Rounding} :
    ofName? s = some r ↔ s = "nearest" ∧ r = .nearest ∨ s = "up" ∧ r = .up := by
  unfold ofName?
  split
  · rename_i h
    simp [h, eq_comm]
  · rename_i h
    simp [h, eq_comm]

/-- What a table holds; other documents hold nothing. -/
def Document.entries : Document → List (String × Document)
  | .table entries => entries
  | _ => []

namespace Configuration

/-- What a document can set. -/
inductive Key
  | epsilon | tolerance | rounding | batch | threshold
  deriving DecidableEq, Repr

namespace Key

/-- In the order in which they are read. -/
def all : List Key := [epsilon, tolerance, rounding, batch, threshold]

def name : Key → String
  | epsilon => "epsilon"
  | tolerance => "quantisation_tolerance"
  | rounding => "rounding"
  | batch => "batch_quantisation_errors"
  | threshold => "log_level"

@[reducible] def Value : Key → Type
  | epsilon | tolerance => Float
  | rounding => Rounding
  | batch => Bool
  | threshold => Level

/-- What a configuration has for a key. -/
def get : (k : Key) → Configuration → k.Value
  | epsilon, c => c.settings.epsilon
  | tolerance, c => c.settings.tolerance
  | rounding, c => c.settings.rounding
  | batch, c => c.settings.batch
  | threshold, c => c.threshold

def put : (k : Key) → k.Value → Configuration → Configuration
  | epsilon, x, c => { c with settings := { c.settings with epsilon := x } }
  | tolerance, x, c => { c with settings := { c.settings with tolerance := x } }
  | rounding, r, c => { c with settings := { c.settings with rounding := r } }
  | batch, b, c => { c with settings := { c.settings with batch := b } }
  | threshold, l, c => { c with threshold := l }

/-- How a key of a table is read. -/
def read : Key → Document → Change Unit
  | epsilon => readEpsilon
  | tolerance => readTolerance
  | rounding => readRounding
  | batch => readBatch
  | threshold => readThreshold

/-- A document has a value for a key that is in range. -/
inductive Says : (k : Key) → Document → k.Value → Prop
  | epsilon {x : Float} (h : IsTime (1 / 0) x) : Says .epsilon (.number x) x
  | tolerance {x : Float} (h : IsTime maxTolerance x) : Says .tolerance (.number x) x
  | nearest : Says .rounding (.text "nearest") .nearest
  | up : Says .rounding (.text "up") .up
  | batch (b : Bool) : Says .batch (.flag b) b
  | threshold {s word : String} {l : Level} (h : l.Word word) (hs : Spells s word) :
    Says .threshold (.text s) l

@[simp] theorem get_put (k : Key) (v : k.Value) (c : Configuration) : k.get (k.put v c) = v := by
  cases k <;> rfl

theorem get_put_of_ne {k l : Key} (h : l ≠ k) (v : k.Value) (c : Configuration) :
    l.get (k.put v c) = l.get c := by
  cases k <;> cases l <;> first | rfl | exact absurd rfl h

/-- What a document says keeps settings in range. -/
theorem Says.inRange {k : Key} {d : Document} {v : k.Value} (h : k.Says d v) {c : Configuration}
    (hc : c.settings.InRange) : (k.put v c).settings.InRange := by
  cases h with
  | epsilon h => exact ⟨h, hc.tolerance, hc.rounding⟩
  | tolerance h => exact ⟨hc.epsilon, h, hc.rounding⟩
  | nearest => exact ⟨hc.epsilon, hc.tolerance, .inl rfl⟩
  | up => exact ⟨hc.epsilon, hc.tolerance, .inr rfl⟩
  | batch b => exact ⟨hc.epsilon, hc.tolerance, hc.rounding⟩
  | threshold => exact hc

/-- What reading a key takes from a document, or why it fails. -/
def parse : (k : Key) → Document → Except SettingsFault k.Value
  | epsilon, d => d.time "epsilon" (1 / 0)
  | tolerance, d => d.time "quantisation_tolerance" maxTolerance
  | rounding, d => do
    let name ← d.asText
    ((Rounding.ofName? name).elim (.error (.unknownRoundingName name)) .ok)
  | batch, d => d.asFlag
  | threshold, d => do
    let name ← d.asText
    ((Level.ofName? name).elim (.error (.unknownLevelName name)) .ok)

private theorem run_ofExcept_bind {α : Type} (x : Except SettingsFault α) (f : α → Change Unit)
    (c : Configuration) : (MonadExcept.ofExcept x >>= f : Change Unit).run c =
      match x with
      | .ok a => (f a).run c
      | .error e => .error e c := by
  cases x <;> rfl

/-- Reading a key stores what is taken from the document, or fails and leaves everything as it is. -/
theorem run_read (k : Key) (d : Document) (c : Configuration) : (k.read d).run c =
    match k.parse d with
    | .ok v => .ok () (k.put v c)
    | .error f => .error f c := by
  cases k with
  | epsilon =>
    refine (run_ofExcept_bind _ _ c).trans ?_
    rw [parse]
    cases d.time "epsilon" (1 / 0) <;> rfl
  | tolerance =>
    refine (run_ofExcept_bind _ _ c).trans ?_
    rw [parse]
    cases d.time "quantisation_tolerance" maxTolerance <;> rfl
  | batch =>
    refine (run_ofExcept_bind _ _ c).trans ?_
    rw [parse]
    cases d.asFlag <;> rfl
  | rounding =>
    refine (run_ofExcept_bind _ _ c).trans ?_
    rw [parse]
    cases d.asText with
    | error f => rfl
    | ok name => cases hn : Rounding.ofName? name <;> simp only [bind, Except.bind, hn] <;> rfl
  | threshold =>
    refine (run_ofExcept_bind _ _ c).trans ?_
    rw [parse]
    cases d.asText with
    | error f => rfl
    | ok name => cases hn : Level.ofName? name <;> simp only [bind, Except.bind, hn] <;> rfl

private theorem time_eq_ok {key : String} {limit x : Float} (hl : ¬ limit.isNaN) {d : Document} :
    d.time key limit = .ok x ↔ d = .number x ∧ IsTime limit x := by
  cases d with
  | number y =>
    rw [Document.time, bind_eq_ok]
    simp only [checkTime_eq_ok key hl, exists_const, pure, Except.pure, Except.ok.injEq, Document.number.injEq]
    constructor
    · rintro ⟨hy, rfl⟩
      exact ⟨rfl, hy⟩
    · rintro ⟨rfl, hy⟩
      exact ⟨hy, rfl⟩
  | _ => simp [Document.time]

private theorem asText_eq_ok {s : String} {d : Document} : d.asText = .ok s ↔ d = .text s := by
  cases d <;> simp [Document.asText, pure, Except.pure, throw, throwThe, MonadExceptOf.throw]

private theorem asFlag_eq_ok {b : Bool} {d : Document} : d.asFlag = .ok b ↔ d = .flag b := by
  cases d <;> simp [Document.asFlag, pure, Except.pure, throw, throwThe, MonadExceptOf.throw]

private theorem elim_eq_ok {ε α : Type} {o : Option α} {e : ε} {a : α} :
    o.elim (Except.error e) .ok = .ok a ↔ o = some a := by
  cases o <;> simp

theorem parse_eq_ok {k : Key} {d : Document} {v : k.Value} : k.parse d = .ok v ↔ k.Says d v := by
  cases k with
  | epsilon =>
    rw [parse, time_eq_ok not_isNaN_limits.1]
    constructor
    · rintro ⟨rfl, h⟩
      exact .epsilon h
    · intro h
      cases h with
      | epsilon h => exact ⟨rfl, h⟩
  | tolerance =>
    rw [parse, time_eq_ok not_isNaN_limits.2]
    constructor
    · rintro ⟨rfl, h⟩
      exact .tolerance h
    · intro h
      cases h with
      | tolerance h => exact ⟨rfl, h⟩
  | rounding =>
    simp only [parse, bind_eq_ok, asText_eq_ok, elim_eq_ok, Rounding.ofName?_eq_some]
    constructor
    · rintro ⟨s, rfl, ⟨rfl, rfl⟩ | ⟨rfl, rfl⟩⟩
      · exact .nearest
      · exact .up
    · intro h
      cases h with
      | nearest => exact ⟨_, rfl, .inl ⟨rfl, rfl⟩⟩
      | up => exact ⟨_, rfl, .inr ⟨rfl, rfl⟩⟩
  | batch =>
    rw [parse, asFlag_eq_ok]
    constructor
    · rintro rfl
      exact .batch v
    · rintro ⟨⟩
      rfl
  | threshold =>
    simp only [parse, bind_eq_ok, asText_eq_ok, elim_eq_ok, Level.ofName?_eq_some]
    constructor
    · rintro ⟨s, rfl, word, h, hs⟩
      exact .threshold h hs
    · intro h
      cases h with
      | threshold h hs => exact ⟨_, rfl, _, h, hs⟩

/-- A document says one thing for a key. -/
theorem Says.unique {k : Key} {d : Document} {v w : k.Value} (hv : k.Says d v) (hw : k.Says d w) : v = w := by
  have h := (parse_eq_ok.mpr hv).symm.trans (parse_eq_ok.mpr hw)
  exact Except.ok.inj h

end Key

/-! ## Reading a table -/

section

variable {entries : List (String × Document)} {ks : List Key} {c c' : Configuration}

theorem load_table : load (.table entries) = Key.all.forM fun k => key entries k.name k.read := by
  change _ = forM Key.all fun k => key entries k.name k.read
  simp only [Key.all, List.forM_cons, List.forM_nil, bind_pure_unit]
  rfl

/-- A key that is absent is passed over, and one that is there is read. -/
theorem run_key (k : Key) (c : Configuration) : (key entries k.name k.read).run c =
    match (entries.lookup k.name).map k.parse with
    | none => .ok () c
    | some (.ok v) => .ok () (k.put v c)
    | some (.error f) => .error f c := by
  unfold key
  cases entries.lookup k.name with
  | none => rfl
  | some d =>
    refine (k.run_read d c).trans ?_
    cases hv : k.parse d <;> simp [hv]

/-- What storing any value that is read keeps, reading some keys keeps, also where it fails. -/
theorem after_keys {P : Configuration → Prop}
    (h : ∀ k ∈ ks, ∀ d v c, entries.lookup k.name = some d → k.Says d v → P c → P (k.put v c)) (hc : P c) :
    P (after (ks.forM fun k => key entries k.name k.read) c) := by
  induction ks generalizing c with
  | nil => exact hc
  | cons k ks ih =>
    rw [after, run_forM_cons, run_key]
    cases hd : entries.lookup k.name with
    | none => exact ih (fun l hl => h l (.tail _ hl)) hc
    | some d =>
      cases hv : k.parse d with
      | error f => simpa [hv] using hc
      | ok v =>
        simp only [Option.map_some, hv]
        refine ih (fun l hl => h l (.tail _ hl)) (h k (.head _) d v c hd ?_ hc)
        exact Key.parse_eq_ok.mp hv

/-- Reading some keys goes through exactly if the table says something about each that it has. -/
theorem keys_ok_iff : (∃ c', (ks.forM fun k => key entries k.name k.read).run c = .ok () c') ↔
    ∀ k ∈ ks, ∀ d, entries.lookup k.name = some d → ∃ v, k.Says d v := by
  induction ks generalizing c with
  | nil => exact ⟨fun _ _ hk => (List.not_mem_nil hk).elim, fun _ => ⟨c, rfl⟩⟩
  | cons k ks ih =>
    rw [List.forall_mem_cons, run_forM_cons, run_key]
    cases hd : entries.lookup k.name with
    | none => simpa using ih
    | some d =>
      cases hv : k.parse d with
      | error f =>
        refine iff_of_false (by simp [hv]) fun hall => ?_
        obtain ⟨v, hsays⟩ := hall.1 d rfl
        rw [Key.parse_eq_ok.mpr hsays] at hv
        cases hv
      | ok v =>
        have hsays := Key.parse_eq_ok.mp hv
        simp only [Option.map_some, hv, ih]
        refine (and_iff_right ?_).symm
        rintro _ ⟨⟩
        exact ⟨v, hsays⟩

/-- After different keys have been read, each that the table has is as the table says. -/
theorem says_of_keys (hn : ks.Nodup) (h : (ks.forM fun k => key entries k.name k.read).run c = .ok () c') :
    ∀ k ∈ ks, ∀ d, entries.lookup k.name = some d → k.Says d (k.get c') := by
  induction ks generalizing c with
  | nil => exact fun _ hk => (List.not_mem_nil hk).elim
  | cons k ks ih =>
    obtain ⟨hk, hn⟩ := List.nodup_cons.mp hn
    rw [run_forM_cons, run_key] at h
    cases hd : entries.lookup k.name with
    | none =>
      simp only [hd, Option.map_none] at h
      exact List.forall_mem_cons.mpr ⟨fun d hd' => absurd (hd.symm.trans hd') (by simp), ih hn h⟩
    | some d =>
      cases hv : k.parse d with
      | error f =>
        simp only [hd, Option.map_some, hv] at h
        cases h
      | ok v =>
        simp only [hd, Option.map_some, hv] at h
        refine List.forall_mem_cons.mpr ⟨?_, ih hn h⟩
        rintro d' hd'
        obtain rfl : d = d' := Option.some_inj.mp (hd.symm.trans hd')
        -- the keys that are read later leave the value of this one alone
        have hkept : k.get (after (ks.forM fun k => key entries k.name k.read) (k.put v c)) = v :=
          after_keys (P := fun c => k.get c = v)
            (fun l hl _ _ c _ _ hc => (Key.get_put_of_ne (ne_of_mem_of_not_mem hl hk).symm _ c).trans hc)
            (Key.get_put k v c)
        rw [after, h] at hkept
        rw [hkept]
        exact Key.parse_eq_ok.mp hv

end

/-! ## Reading documents one after another -/

/-- A table without repeated keys has what it lists. -/
private theorem lookup_eq_some_iff_mem {entries : List (String × Document)} {name : String} {d : Document}
    (hn : (entries.map Prod.fst).Nodup) : entries.lookup name = some d ↔ (name, d) ∈ entries := by
  rw [List.lookup_eq_some_iff]
  constructor
  · rintro ⟨pre, post, rfl, -⟩
    simp
  · intro h
    obtain ⟨pre, post, rfl⟩ := List.append_of_mem h
    refine ⟨pre, post, rfl, fun e he => ?_⟩
    rw [List.map_append, List.map_cons, List.nodup_append] at hn
    exact bne_iff_ne.mpr (hn.2.2 e.1 (List.mem_map_of_mem he) name (.head _)).symm

private theorem lookup_of_not_mem {entries : List (String × Document)} {name : String}
    (h : name ∉ entries.map Prod.fst) : entries.lookup name = none := by
  refine List.lookup_eq_none_iff.mpr fun e he => bne_iff_ne.mpr ?_
  rintro rfl
  exact h (List.mem_map_of_mem he)

/-- A table is loaded exactly if it says something for each key of a configuration that it has. -/
theorem load_table_ok_iff {entries : List (String × Document)} {c : Configuration} :
    (∃ c', (load (.table entries)).run c = .ok () c') ↔
      ∀ (k : Key) (e : Document), entries.lookup k.name = some e → ∃ v, k.Says e v := by
  rw [load_table, keys_ok_iff]
  exact ⟨fun h k => h k (by cases k <;> decide), fun h k _ => h k⟩

/-- What loading a document does to a configuration. -/
structure Loads (d : Document) (c c' : Configuration) : Prop where
  /-- What the document has no key for keeps its value, also where loading fails. -/
  kept (k : Key) : k.name ∉ d.entries.map Prod.fst → k.get c' = k.get c
  /-- Once all is read, each key has the value that the document says, if it says it once. -/
  stored : isOk ((load d).run c) → (d.entries.map Prod.fst).Nodup →
    ∀ (k : Key) (e : Document), (k.name, e) ∈ d.entries → k.Says e (k.get c')
  /-- All is read if the document is empty or a table that says something for each key it has. -/
  read_iff : (d.entries.map Prod.fst).Nodup →
    (isOk ((load d).run c) ↔ (d = .null ∨ ∃ entries, d = .table entries) ∧
      ∀ (k : Key) (e : Document), (k.name, e) ∈ d.entries → ∃ v, k.Says e v)

theorem loads_after (d : Document) (c : Configuration) : Loads d c (after (load d) c) := by
  cases d with
  | table entries =>
    constructor
    case kept =>
      intro k hk
      rw [load_table]
      refine after_keys (P := fun c' => k.get c' = k.get c) (fun l _ d v c' hl _ hc' => ?_) rfl
      refine (Key.get_put_of_ne ?_ v c').trans hc'
      rintro rfl
      exact absurd (hl.symm.trans (lookup_of_not_mem hk)) (by simp)
    case stored =>
      intro hok hn k e he
      obtain ⟨c', hc'⟩ := exists_of_isOk hok
      rw [after, hc']
      rw [load_table] at hc'
      exact says_of_keys (by decide) hc' k (by cases k <;> decide) e ((lookup_eq_some_iff_mem hn).mpr he)
    case read_iff =>
      intro hn
      rw [isOk_iff, load_table_ok_iff, and_iff_right (.inr ⟨entries, rfl⟩)]
      exact forall₂_congr fun k e => imp_congr_left (lookup_eq_some_iff_mem hn)
  | null =>
    exact ⟨fun _ _ => rfl, fun _ _ _ _ he => (List.not_mem_nil he).elim,
      fun _ => iff_of_true rfl ⟨.inl rfl, fun _ _ he => (List.not_mem_nil he).elim⟩⟩
  | number | flag | text | list =>
    exact ⟨fun _ _ => rfl, fun _ _ _ _ he => (List.not_mem_nil he).elim,
      fun _ => iff_of_false Bool.false_ne_true (by simp)⟩

theorem inRange_after_load (d : Document) {c : Configuration} (hc : c.settings.InRange) :
    (after (load d) c).settings.InRange := by
  cases d with
  | table entries =>
    rw [load_table]
    exact after_keys (P := fun c => c.settings.InRange) (fun _ _ _ _ _ _ hsays hc => hsays.inRange hc) hc
  | _ => exact hc

/-- Documents are loaded one after another, whatever becomes of each. -/
def loadAll (c : Configuration) (ds : List Document) : Configuration :=
  ds.foldl (fun c d => after (load d) c) c

theorem loadAll_concat (c : Configuration) (ds : List Document) (d : Document) :
    c.loadAll (ds ++ [d]) = after (load d) (c.loadAll ds) := by
  rw [loadAll, List.foldl_concat]
  rfl

theorem inRange_loadAll (ds : List Document) {c : Configuration} (hc : c.settings.InRange) :
    (c.loadAll ds).settings.InRange := by
  induction ds using List.reverseRecOn with
  | nil => exact hc
  | append_singleton ds d ih =>
    rw [loadAll_concat]
    exact inRange_after_load d ih

/-- Settings that pass the check do so after any documents, of which each may be refused half way: shots can
be opened with them. What a document has no key for is as before it. A document that can be read is read to
its end, and then what it says once is what it says. -/
theorem check_of_loadAll {c : Configuration} (hc : c.settings.check = .ok ()) (ds : List Document) :
    (c.loadAll ds).settings.check = .ok () ∧
    (∀ name site, ∃ s : Shot, Shot.new? name (c.loadAll ds).settings site = .ok s ∧
      s.settings = (c.loadAll ds).settings) ∧
    ∀ pre d post, ds = pre ++ d :: post → Loads d (c.loadAll pre) (c.loadAll (pre ++ [d])) := by
  have hcheck : (c.loadAll ds).settings.check = .ok () :=
    Settings.check_eq_ok.mpr (inRange_loadAll ds (Settings.check_eq_ok.mp hc))
  refine ⟨hcheck, fun name site => ?_, fun pre d post _ => ?_⟩
  · exact ⟨{ name, settings := (c.loadAll ds).settings, site }, by simp [Shot.new?, hcheck], rfl⟩
  · rw [loadAll_concat]
    exact loads_after d (c.loadAll pre)

/-- A document that is read to its end, one that is refused after its first key, and one that is no table. -/
private def readings : List Document := [
  .table [("rounding", .text "up"), ("log_level", .text "Warning")],
  .table [("epsilon", .number 2), ("batch_quantisation_errors", .text "yes")],
  .list]

theorem check_of_readings : ({} : Settings).check = .ok () ∧
    (({} : Configuration).loadAll readings).settings.check = .ok () ∧
    (({} : Configuration).loadAll readings).settings.rounding = .up ∧
    (({} : Configuration).loadAll readings).threshold = .warn := by
  have hc : ({} : Settings).check = .ok () := by decide +kernel
  obtain ⟨hcheck, -, hloads⟩ := check_of_loadAll (c := {}) hc readings
  have hfirst := hloads [] _ _ rfl
  have hsecond := hloads [_] _ _ rfl
  have hthird := hloads [_, _] _ _ rfl
  have hread : isOk ((load (.table [("rounding", .text "up"), ("log_level", .text "Warning")])).run {}) := by
    decide +kernel
  have hup := (hfirst.stored hread (by decide) .rounding (.text "up") (.head _)).unique .up
  have hwarn := (hfirst.stored hread (by decide) .threshold (.text "Warning") (.tail _ (.head _))).unique
    (.threshold .warning (by simp [Spells]))
  -- the documents that are refused have no key for either
  have hrounding := (hthird.kept .rounding (by decide)).trans (hsecond.kept .rounding (by decide))
  have hthreshold := (hthird.kept .threshold (by decide)).trans (hsecond.kept .threshold (by decide))
  exact ⟨hc, hcheck, hrounding.trans hup, hthreshold.trans hwarn⟩

end Configuration
end ShotTiming
