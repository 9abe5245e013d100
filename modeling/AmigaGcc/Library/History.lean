import Mathlib.Data.Finset.Union
import Mathlib.Data.Int.Notation

/-!
# Commit histories

A `History` gives each commit its parents and its date; `age` makes it acyclic.
`firstParents` is the chain that `git rev-list --first-parent` walks, and `revList`
the first commit on it that is dated at or before a given day.

A clone of depth `k` is again a history, `shallow`: it has the commits at a distance
less than `k` from the tip, and those at the distance `k - 1` have no parents in it.
All that is proved about it comes from `Cuts`: parents are only taken away, all of
them or none. So the chain of a shallow clone is a prefix of the full one, and what is
found on it is what the full one has.
-/

namespace Library

structure History (C : Type*) where
  parents : C → List C
  date : C → ℤ
  age : C → ℕ
  age_lt : ∀ c, ∀ p ∈ parents c, age p < age c

namespace History

variable {C : Type*}

/-- `n` steps along the first parents. -/
def walk (h : History C) : ℕ → C → List C
  | 0, c => [c]
  | n + 1, c =>
      match h.parents c with
      | [] => [c]
      | p :: _ => c :: h.walk n p

def firstParents (h : History C) (c : C) : List C := h.walk (h.age c) c

/-- No more steps are needed than the commit is old. -/
theorem walk_eq_walk (h : History C) {m n : ℕ} {c : C} (hm : h.age c ≤ m)
    (hn : h.age c ≤ n) : h.walk m c = h.walk n c := by
  induction m generalizing c n with
  | zero =>
      cases n with
      | zero => rfl
      | succ n =>
          cases hp : h.parents c with
          | nil => rw [walk, walk, hp]
          | cons p ps =>
              have hlt := h.age_lt c p (hp ▸ List.mem_cons_self)
              omega
  | succ m ih =>
      cases hp : h.parents c with
      | nil => cases n <;> simp [walk, hp]
      | cons p ps =>
          have hlt := h.age_lt c p (hp ▸ List.mem_cons_self)
          cases n with
          | zero => omega
          | succ n =>
              rw [walk, walk, hp]
              exact congrArg (c :: ·) (ih (by omega) (by omega))

theorem walk_eq_firstParents (h : History C) {n : ℕ} {c : C} (hn : h.age c ≤ n) :
    h.walk n c = h.firstParents c :=
  h.walk_eq_walk hn (Nat.le_refl _)

theorem firstParents_of_nil {h : History C} {c : C} (hc : h.parents c = []) :
    h.firstParents c = [c] := by
  rw [← h.walk_eq_firstParents (Nat.le_succ _), walk, hc]

theorem firstParents_of_cons {h : History C} {c p : C} {ps : List C}
    (hc : h.parents c = p :: ps) : h.firstParents c = c :: h.firstParents p := by
  have hlt := h.age_lt c p (hc ▸ List.mem_cons_self)
  rw [← h.walk_eq_firstParents (Nat.le_succ _), walk, hc]
  exact congrArg (c :: ·) (h.walk_eq_firstParents hlt.le)

theorem head_mem_firstParents (h : History C) (c : C) : c ∈ h.firstParents c := by
  cases hp : h.parents c with
  | nil => simp [firstParents_of_nil hp]
  | cons p ps => simp [firstParents_of_cons hp]

/-- `git rev-list -n 1 --first-parent --before=D c` -/
def revList (h : History C) (c : C) (D : ℤ) : Option C :=
  (h.firstParents c).find? fun d => h.date d ≤ D

theorem revList_ne_none_iff {h : History C} {c : C} {D : ℤ} :
    h.revList c D ≠ none ↔ ∃ d ∈ h.firstParents c, h.date d ≤ D := by
  simp [revList]

/-! ## Cutting a history -/

/-- `k` has the commits of `h` with the same dates, some of them without parents. -/
structure Cuts (k h : History C) : Prop where
  date : k.date = h.date
  parents : ∀ c, k.parents c = h.parents c ∨ k.parents c = []

theorem Cuts.firstParents_prefix {k h : History C} (hk : Cuts k h) (c : C) :
    k.firstParents c <+: h.firstParents c := by
  induction hn : h.age c using Nat.strong_induction_on generalizing c with
  | _ n ih =>
      subst hn
      cases hc : h.parents c with
      | nil =>
          have hkc : k.parents c = [] := (hk.parents c).elim (fun he => he.trans hc) id
          rw [firstParents_of_nil hc, firstParents_of_nil hkc]
      | cons p ps =>
          rw [firstParents_of_cons hc]
          rcases hk.parents c with hkc | hkc
          · rw [firstParents_of_cons (hkc.trans hc), List.cons_prefix_cons]
            exact ⟨rfl, ih _ (h.age_lt c p (hc ▸ List.mem_cons_self)) p rfl⟩
          · rw [firstParents_of_nil hkc, List.cons_prefix_cons]
            exact ⟨rfl, List.nil_prefix⟩

/-- What is found in a cut history is what the history has. -/
theorem Cuts.revList_eq {k h : History C} (hk : Cuts k h) {c d : C} {D : ℤ}
    (hd : k.revList c D = some d) : h.revList c D = some d := by
  obtain ⟨l, hl⟩ := hk.firstParents_prefix c
  have hfind : (k.firstParents c).find? (fun d => h.date d ≤ D) = some d := hk.date ▸ hd
  rw [revList, ← hl, List.find?_append, hfind]
  rfl

/-! ## Shallow clones -/

section Shallow

variable [DecidableEq C]

/-- The commits at a distance less than `k` from the tip. -/
def within (h : History C) (tip : C) : ℕ → Finset C
  | 0 => ∅
  | k + 1 => insert tip ((h.within tip k).biUnion fun c => (h.parents c).toFinset)

def shallow (h : History C) (tip : C) (k : ℕ) : History C where
  parents c := if c ∈ h.within tip (k - 1) then h.parents c else []
  date := h.date
  age := h.age
  age_lt c p hp := by
    split at hp
    · exact h.age_lt c p hp
    · cases hp

theorem within_mono (h : History C) (tip : C) {j k : ℕ} (hjk : j ≤ k) :
    h.within tip j ⊆ h.within tip k := by
  induction j generalizing k with
  | zero => exact Finset.empty_subset _
  | succ j ih =>
      cases k with
      | zero => exact absurd hjk (Nat.not_succ_le_zero j)
      | succ k =>
          exact Finset.insert_subset_insert tip
            (Finset.biUnion_subset_biUnion_of_subset_left _ (ih (Nat.le_of_succ_le_succ hjk)))

theorem cuts_shallow (h : History C) (tip : C) (k : ℕ) : Cuts (h.shallow tip k) h := by
  refine ⟨rfl, fun c => ?_⟩
  rw [shallow]
  dsimp only
  split
  · exact Or.inl rfl
  · exact Or.inr rfl

theorem cuts_shallow_of_le (h : History C) (tip : C) {j k : ℕ} (hjk : j ≤ k) :
    Cuts (h.shallow tip j) (h.shallow tip k) := by
  refine ⟨rfl, fun c => ?_⟩
  simp only [shallow]
  by_cases hj : c ∈ h.within tip (j - 1)
  · have hk : c ∈ h.within tip (k - 1) := h.within_mono tip (Nat.sub_le_sub_right hjk 1) hj
    rw [if_pos hj, if_pos hk]
    exact Or.inl rfl
  · rw [if_neg hj]
    exact Or.inr rfl

theorem mem_within_of_parent {h : History C} {tip c p : C} {j : ℕ}
    (hc : c ∈ h.within tip j) (hp : p ∈ h.parents c) : p ∈ h.within tip (j + 1) :=
  Finset.mem_insert_of_mem (Finset.mem_biUnion.mpr ⟨c, hc, List.mem_toFinset.mpr hp⟩)

/-- A clone that is as deep as the chain from the commit `c` on shows all of it. -/
theorem firstParents_shallow_eq {h : History C} {tip c : C} {j k : ℕ}
    (hc : c ∈ h.within tip (j + 1)) (hk : j + (h.firstParents c).length ≤ k) :
    (h.shallow tip k).firstParents c = h.firstParents c := by
  induction hn : h.age c using Nat.strong_induction_on generalizing c j with
  | _ n ih =>
      subst hn
      cases hp : h.parents c with
      | nil =>
          have hsp : (h.shallow tip k).parents c = [] :=
            ((cuts_shallow h tip k).parents c).elim (fun he => he.trans hp) id
          rw [firstParents_of_nil hp, firstParents_of_nil hsp]
      | cons p ps =>
          have hpc : p ∈ h.parents c := hp ▸ List.mem_cons_self
          rw [firstParents_of_cons hp, List.length_cons] at hk
          have hpos : 0 < (h.firstParents p).length :=
            List.length_pos_of_mem (h.head_mem_firstParents p)
          have hkept : c ∈ h.within tip (k - 1) := h.within_mono tip (by omega) hc
          have hsp : (h.shallow tip k).parents c = p :: ps := (if_pos hkept).trans hp
          rw [firstParents_of_cons hp, firstParents_of_cons hsp,
            ih _ (h.age_lt c p hpc) (mem_within_of_parent hc hpc) (by omega) rfl]

end Shallow

end History

end Library
