import Mathlib.Data.List.Flatten
import Mathlib.Data.List.Nodup
import Mathlib.Data.List.Perm.Basic
import Mathlib.Logic.Relation
import ShotTiming.Forest

/-!
# A planted forest lists everything below its roots, once

Numbers grow from parents to children, so a depth that reaches the end of the arena cuts nothing
off; and as every number has one parent, nothing is listed twice.
-/
namespace ShotTiming.Forest
open Relation

variable {children : Nat → List Nat} {size : Nat}

/-- Children have larger numbers than their parents, within an arena. -/
structure Climbing (children : Nat → List Nat) (size : Nat) : Prop where
  gt : ∀ {a c}, c ∈ children a → a < c
  lt : ∀ {a c}, c ∈ children a → c < size

/-- Being below, or the same. -/
abbrev Reaches (children : Nat → List Nat) : Nat → Nat → Prop :=
  ReflTransGen fun a b => b ∈ children a

@[simp] theorem plant_nil (depth : Nat) : plant children depth [] = empty := by
  cases depth <;> rfl

theorem plant_cons (depth r : Nat) (rs : List Nat) :
    plant children (depth + 1) (r :: rs) =
      grow r (plant children depth (children r)) (plant children (depth + 1) rs) := rfl

theorem Reaches.le (h : Climbing children size) {a b : Nat} (hab : Reaches children a b) : a ≤ b := by
  induction hab with
  | refl => exact Nat.le_refl a
  | tail _ hbc ih => exact Nat.le_trans ih (Nat.le_of_lt (h.gt hbc))

/-- A depth that cuts nothing off below a number leaves one that cuts nothing off below its children. -/
theorem Climbing.fits (h : Climbing children size) {depth r : Nat}
    (hr : r < size ∧ size ≤ r + (depth + 1)) : ∀ c ∈ children r, c < size ∧ size ≤ c + depth := by
  intro c hc
  have := h.gt hc
  exact ⟨h.lt hc, by omega⟩

/-- Membership in a planted forest, when no chain is cut off. -/
theorem mem_plant (h : Climbing children size) {depth : Nat} {roots : List Nat}
    (hr : ∀ r ∈ roots, r < size ∧ size ≤ r + depth) {id : Nat} :
    id ∈ (plant children depth roots).toList ↔ ∃ r ∈ roots, Reaches children r id := by
  induction depth generalizing roots with
  | zero =>
    cases roots with
    | nil => simp [plant, toList]
    | cons r rs =>
      have := hr r (by simp)
      omega
  | succ depth ih =>
    induction roots with
    | nil => simp [toList]
    | cons r rs ihr =>
      have hch := h.fits (hr r (by simp))
      rw [plant_cons, toList, List.mem_cons, List.mem_append, ih hch,
        ihr fun r' hr' => hr r' (by simp [hr'])]
      simp only [List.mem_cons, exists_eq_or_imp]
      rw [show Reaches children r id ↔ id = r ∨ ∃ c ∈ children r, Reaches children c id by
        rw [Reaches, ReflTransGen.cases_head_iff, eq_comm], or_assoc]

/-- What a forest lists is a root, or a child of something that it lists. -/
theorem mem_plant_iff (h : Climbing children size) {depth : Nat} {roots : List Nat}
    (hr : ∀ r ∈ roots, r < size ∧ size ≤ r + depth) {id : Nat} :
    id ∈ (plant children depth roots).toList ↔
      id ∈ roots ∨ ∃ p ∈ (plant children depth roots).toList, id ∈ children p := by
  simp only [mem_plant h hr]
  constructor
  · rintro ⟨r, hroot, hreach⟩
    rcases ReflTransGen.cases_tail hreach with rfl | ⟨p, hp, hid⟩
    · exact .inl hroot
    · exact .inr ⟨p, ⟨r, hroot, hp⟩, hid⟩
  · rintro (hroot | ⟨p, ⟨r, hroot, hp⟩, hid⟩)
    · exact ⟨id, hroot, .refl⟩
    · exact ⟨r, hroot, hp.tail hid⟩

/-- Of two numbers above a third one, one is above the other. -/
theorem Reaches.total (hone : ∀ {a b c}, c ∈ children a → c ∈ children b → a = b) {a b c : Nat}
    (ha : Reaches children a c) (hb : Reaches children b c) :
    Reaches children a b ∨ Reaches children b a := by
  induction ha with
  | refl => exact .inr hb
  | tail hap hpc ih =>
    rcases ReflTransGen.cases_tail hb with rfl | ⟨q, hbq, hqc⟩
    · exact .inl (hap.tail hpc)
    · cases hone hpc hqc
      exact ih hbq

/-- A root is not below another one if no parent of a root is as large as a root. -/
private theorem not_reaches_root (h : Climbing children size) {roots : List Nat}
    (habove : ∀ r ∈ roots, ∀ a, r ∈ children a → ∀ r' ∈ roots, a < r') {r r' : Nat} (hr : r ∈ roots)
    (hr' : r' ∈ roots) (hne : r ≠ r') : ¬ Reaches children r' r := by
  intro hrr
  rcases ReflTransGen.cases_tail hrr with he | ⟨a, ha, har⟩
  · exact hne he
  · have := habove r hr a har r' hr'
    have := Reaches.le h ha
    omega

/-- A forest in which every number has one parent lists nothing twice. -/
theorem nodup_plant (h : Climbing children size)
    (hone : ∀ {a b c}, c ∈ children a → c ∈ children b → a = b)
    (hnd : ∀ a, (children a).Nodup) {depth : Nat} {roots : List Nat}
    (hr : ∀ r ∈ roots, r < size ∧ size ≤ r + depth) (hrn : roots.Nodup)
    (habove : ∀ r ∈ roots, ∀ a, r ∈ children a → ∀ r' ∈ roots, a < r') :
    (plant children depth roots).toList.Nodup := by
  induction depth generalizing roots with
  | zero => simp [plant, toList]
  | succ depth ih =>
    induction roots with
    | nil => simp [toList]
    | cons r rs ihr =>
      have hrs : ∀ r' ∈ rs, r' < size ∧ size ≤ r' + (depth + 1) := fun r' hr' => hr r' (by simp [hr'])
      have hch := h.fits (hr r (by simp))
      have hbelow := ih hch (hnd r) fun c hc a hca c' hc' => hone hc hca ▸ h.gt hc'
      have hlater := ihr hrs (List.nodup_cons.mp hrn).2
        fun r' hr' a ha r'' hr'' => habove r' (by simp [hr']) a ha r'' (by simp [hr''])
      have hne : ∀ r' ∈ rs, r ≠ r' := fun r' hr' he => (List.nodup_cons.mp hrn).1 (he ▸ hr')
      rw [plant_cons, toList, List.nodup_cons, List.nodup_append, List.mem_append, mem_plant h hch,
        mem_plant h hrs]
      refine ⟨?_, hbelow, hlater, ?_⟩
      · rintro (⟨c, hc, hcr⟩ | ⟨r', hr', hrr⟩)
        · have := h.gt hc
          have := Reaches.le h hcr
          omega
        · exact not_reaches_root h habove (by simp) (by simp [hr']) (hne r' hr') hrr
      · intro x hx y hy he
        subst he
        obtain ⟨c, hc, hcx⟩ := (mem_plant h hch).mp hx
        obtain ⟨r', hr', hrx⟩ := (mem_plant h hrs).mp hy
        rcases Reaches.total hone (hcx.head hc) hrx with hab | hab
        · exact not_reaches_root h habove (by simp [hr']) (by simp) (hne r' hr').symm hab
        · exact not_reaches_root h habove (by simp) (by simp [hr']) (hne r' hr') hab

/-- Once no chain is cut off, a greater depth changes nothing. -/
theorem plant_depth (h : Climbing children size) {depth depth' : Nat} {roots : List Nat}
    (hr : ∀ r ∈ roots, r < size ∧ size ≤ r + depth) (hr' : ∀ r ∈ roots, size ≤ r + depth') :
    plant children depth roots = plant children depth' roots := by
  induction depth generalizing depth' roots with
  | zero =>
    cases roots with
    | nil => simp
    | cons r rs =>
      have := hr r (by simp)
      omega
  | succ depth ih =>
    induction roots with
    | nil => simp
    | cons r rs ihr =>
      have hroot := hr r (by simp)
      have hroot' := hr' r (by simp)
      obtain ⟨depth', rfl⟩ : ∃ n, depth' = n + 1 := ⟨depth' - 1, by omega⟩
      have hbelow : plant children depth (children r) = plant children depth' (children r) :=
        ih (h.fits hroot) fun c hc => (h.fits ⟨hroot.1, hroot'⟩ c hc).2
      rw [plant_cons, plant_cons, hbelow,
        ihr (fun q hq => hr q (by simp [hq])) fun q hq => hr' q (by simp [hq])]

/-- A forest lists its roots, each in front of what is below it. -/
theorem toList_plant (h : Climbing children size) {depth : Nat} {roots : List Nat}
    (hr : ∀ r ∈ roots, r < size ∧ size ≤ r + depth) :
    (plant children depth roots).toList =
      roots.flatMap fun r => r :: (plant children depth (children r)).toList := by
  induction roots with
  | nil => simp [toList]
  | cons r rs ih =>
    have hroot := hr r (by simp)
    obtain ⟨depth, rfl⟩ : ∃ n, depth = n + 1 := ⟨depth - 1, by omega⟩
    have hchildren := h.fits hroot
    have hbelow : plant children depth (children r) = plant children (depth + 1) (children r) :=
      plant_depth h hchildren fun c hc => Nat.le_succ_of_le (hchildren c hc).2
    rw [plant_cons, toList, ih fun q hq => hr q (by simp [hq]), hbelow]
    rfl

theorem roots_sublist (h : Climbing children size) {depth : Nat} {roots : List Nat}
    (hr : ∀ r ∈ roots, r < size ∧ size ≤ r + depth) :
    roots.Sublist (plant children depth roots).toList := by
  rw [toList_plant h hr]
  induction roots with
  | nil => simp
  | cons r rs ih =>
    have hrs := ih fun q hq => hr q (by simp [hq])
    exact (hrs.trans (List.sublist_append_right _ _)).cons_cons r

/-- A forest lists every device in front of what is below it, in the order of the tree of the device. -/
theorem tree_sublist (h : Climbing children size) {depth : Nat} {roots : List Nat}
    (hr : ∀ r ∈ roots, r < size ∧ size ≤ r + depth) {id : Nat}
    (hid : id ∈ (plant children depth roots).toList) :
    (id :: (plant children depth (children id)).toList).Sublist (plant children depth roots).toList := by
  have tree : ∀ {roots : List Nat} {r : Nat}, (∀ r ∈ roots, r < size ∧ size ≤ r + depth) →
      r ∈ roots → (r :: (plant children depth (children r)).toList).Sublist
        (plant children depth roots).toList := by
    intro roots r hr hmem
    rw [toList_plant h hr]
    simpa using (List.singleton_sublist.mpr hmem).flatMap
      fun r => r :: (plant children depth (children r)).toList
  obtain ⟨r, hroot, hreach⟩ := (mem_plant h hr).mp hid
  apply List.Sublist.trans ?_ (tree hr hroot)
  have hfit := hr r hroot
  clear hid hr hroot
  induction hreach using ReflTransGen.head_induction_on with
  | refl => exact .refl _
  | head hc _ ih =>
    have hchildren := h.fits ⟨hfit.1, Nat.le_succ_of_le hfit.2⟩
    exact ((ih (hchildren _ hc)).trans (tree hchildren hc)).cons _

/-- A forest lists every parent in front of its children, and these in order. -/
theorem children_sublist (h : Climbing children size) {depth : Nat} {roots : List Nat}
    (hr : ∀ r ∈ roots, r < size ∧ size ≤ r + depth) {id : Nat}
    (hid : id ∈ (plant children depth roots).toList) :
    (id :: children id).Sublist (plant children depth roots).toList := by
  obtain ⟨r, hroot, hreach⟩ := (mem_plant h hr).mp hid
  have hle := Reaches.le h hreach
  have hfit : id < size ∧ size ≤ id + (depth + 1) := by
    have := hr r hroot
    rcases ReflTransGen.cases_tail hreach with rfl | ⟨p, -, hp⟩
    · exact ⟨this.1, by omega⟩
    · exact ⟨h.lt hp, by omega⟩
  exact ((roots_sublist h (h.fits hfit)).cons_cons id).trans (tree_sublist h hr hid)

/-- Pruning a planted forest leaves out the same children everywhere. -/
theorem prune_plant (drop : Nat → Bool) (depth : Nat) (roots : List Nat) :
    (plant children depth roots).prune drop =
      plant (fun id => (children id).filter (!drop ·)) depth (roots.filter (!drop ·)) := by
  induction depth generalizing roots with
  | zero => rfl
  | succ depth ih =>
    induction roots with
    | nil => simp [prune]
    | cons r rs ihr =>
      rw [plant_cons, prune]
      by_cases hd : drop r
      · simp [hd, ihr]
      · simp [hd, ihr, ih, plant_cons]

/-- Leaving out some roots and what is below them leaves a sublist. -/
theorem prune_sublist (drop : Nat → Bool) (f : Forest) :
    (f.prune drop).toList.Sublist f.toList := by
  induction f with
  | empty => simp [prune]
  | grow id below later ihb ihl =>
    by_cases hd : drop id
    · simp only [prune, hd, if_true, toList]
      exact (ihl.trans (List.sublist_append_right _ _)).cons id
    · simp only [prune, hd, toList]
      exact (ihb.append ihl).cons_cons id

/-- Children first. -/
def postorder : Forest → List Nat
  | empty => []
  | grow id below later => below.postorder ++ id :: later.postorder

theorem postorder_perm (f : Forest) : f.postorder.Perm f.toList := by
  induction f with
  | empty => rfl
  | grow id below later ihb ihl =>
    refine List.perm_middle.trans ?_
    exact (ihb.append ihl).cons id

end ShotTiming.Forest
