import Mathlib.Logic.Function.Basic
import AmigaGcc.Library.History
import AmigaGcc.Registry.Branch

/-!
# Switching to a given date

`make v date=D` checks out, in every module, the last commit of the branch's first
parents that is dated at or before `D`. The clones are shallow, so `search` deepens a
clone, twice as much each time, until `git rev-list` prints a commit.

What it finds is what the complete history has (`switch_eq_full`). It does find
something exactly when the branch has such a commit (`v_terminates_iff`); for a date
before all of them the loop goes on forever.

The tips of the branches stay where they are, and all commands of git succeed on the
depths that git takes. `DEPTH` is a number of 64 bits in the shell and an `int` in git:
`git pull` refuses the ones from `2 ^ 31` on, and leaves the clone alone.
-/

namespace AmigaGcc

namespace Registry

open Library Library.Text

inductive Shown where
  | full
  | depth (k : ℕ)
  deriving DecidableEq, Repr

inductive Head (C : Type*) where
  | branch (b : Chars)
  | commit (c : C)
  deriving DecidableEq

/-- A clone, with the history and the tips of its remote. -/
structure Clone (C : Type*) where
  history : History C
  tip : Chars → C
  shown : Shown
  head : Head C

variable {C : Type*} [DecidableEq C]

def Clone.view (cl : Clone C) (b : Chars) : History C :=
  match cl.shown with
  | .full => cl.history
  | .depth k => cl.history.shallow (cl.tip b) k

/-- `git rev-list -n 1 --first-parent --before="$D" $bra` -/
def Clone.revList (cl : Clone C) (b : Chars) (D : ℤ) : Option C :=
  (cl.view b).revList (cl.tip b) D

/-- `git checkout $bra` -/
def Clone.checkout (cl : Clone C) (b : Chars) : Clone C := { cl with head := .branch b }

/-- `git pull --depth $DEPTH`; a depth that is no positive `int` is refused. -/
def Clone.pull (cl : Clone C) (depth : ℤ) : Clone C :=
  if 0 < depth ∧ depth < 2 ^ 31 then { cl with shown := .depth depth.toNat } else cl

/-- ``git checkout `git rev-list ..` `` -/
def Clone.checkoutDate (cl : Clone C) (b : Chars) (D : ℤ) : Clone C :=
  match cl.revList b D with
  | some c => { cl with head := .commit c }
  | none => cl

/-- `$(($DEPTH+$DEPTH))` -/
def double (depth : ℤ) : ℤ := (depth + depth).bmod (2 ^ 64)

/-- The loop that deepens a clone, for at most `fuel` turns. -/
def search (b : Chars) (D : ℤ) : ℕ → ℤ → Clone C → Option (Clone C)
  | 0, _, _ => none
  | fuel + 1, depth, cl =>
      match cl.revList b D with
      | some _ => some cl
      | none => search b D fuel (double depth) (cl.pull depth)

/-- What `v` does in the clone of a module with the branch `b`. -/
def switch (fuel : ℕ) (date : Option ℤ) (b : Chars) (cl : Clone C) : Option (Clone C) :=
  match date with
  | none => some (cl.checkout b)
  | some D => (search b D fuel 16 (cl.checkout b)).map fun cl => cl.checkoutDate b D

/-- The clones below `projects`, and the one the Makefile is in. -/
structure Workspace (C : Type*) where
  projects : Chars → Option (Clone C)
  main : Clone C

/-- The turn of the loop of `v` for the module `i`. -/
def visit (g : Grep) (fuel : ℕ) (date : Option ℤ) (repos : List Chars) (w : Workspace C)
    (i : Chars) : Option (Workspace C) :=
  match w.projects i with
  | none => some w
  | some cl =>
      (switch fuel date (repoBranch g i repos) cl).map fun cl =>
        { w with projects := Function.update w.projects i (some cl) }

/-- What `v` does in its own clone. -/
def visitMain (date : Option ℤ) (w : Workspace C) : Workspace C :=
  let master := w.main.checkout "master".toList
  match date with
  | none => { w with main := master }
  | some D => { w with main := master.checkoutDate "master".toList D }

/-- `make v date=D`, with at most `fuel` turns of each loop. -/
def v (g : Grep) (fuel : ℕ) (date : Option ℤ) (repos : List Chars) (w : Workspace C) :
    Option (Workspace C) :=
  (((modules repos).filter fun m => m ≠ []).foldlM (visit g fuel date repos) w).map
    (visitMain date)

/-! ## What is found -/

theorem cuts_view (cl : Clone C) (b : Chars) : (cl.view b).Cuts cl.history := by
  rw [Clone.view]
  split
  · exact ⟨rfl, fun _ => Or.inl rfl⟩
  · exact History.cuts_shallow _ _ _

/-- The loop changes only how much of the history is there, and it ends where
`git rev-list` prints a commit. -/
theorem search_spec {b : Chars} {D : ℤ} {fuel : ℕ} {depth : ℤ} {cl cl' : Clone C}
    (h : search b D fuel depth cl = some cl') :
    (∃ k, cl' = { cl with shown := k }) ∧ ∃ c, cl'.revList b D = some c := by
  induction fuel generalizing depth cl with
  | zero => cases h
  | succ fuel ih =>
      rw [search] at h
      split at h
      · next c hc =>
          obtain rfl := Option.some.inj h
          exact ⟨⟨cl.shown, rfl⟩, c, hc⟩
      · obtain ⟨⟨k, hk⟩, hc⟩ := ih h
        refine ⟨⟨k, ?_⟩, hc⟩
        rw [hk, Clone.pull]
        split <;> rfl

/-- Whenever the loop ends, the commit that is checked out is the one the complete
history has. -/
theorem switch_eq_full {fuel : ℕ} {b : Chars} {D : ℤ} {cl cl' : Clone C}
    (h : switch fuel (some D) b cl = some cl') :
    ∃ c, cl.history.revList (cl.tip b) D = some c ∧ cl'.head = .commit c := by
  obtain ⟨found, hsearch, rfl⟩ := Option.map_eq_some_iff.mp h
  obtain ⟨⟨k, rfl⟩, c, hc⟩ := search_spec hsearch
  refine ⟨c, (cuts_view { cl.checkout b with shown := k } b).revList_eq hc, ?_⟩
  rw [Clone.checkoutDate, hc]

/-! ## When the loops end -/

/-- The branch `b` has a commit of the day `D` or before, in what the clone has of it
or in what a depth of `2 ^ 30` shows, the largest that is tried and not refused. -/
def Clone.Found (cl : Clone C) (b : Chars) (D : ℤ) : Prop :=
  cl.revList b D ≠ none ∨ (cl.history.shallow (cl.tip b) (2 ^ 30)).revList (cl.tip b) D ≠ none

/-- The values of `DEPTH`: powers of two, then the least number there is, then 0. -/
def Doubling (depth : ℤ) : Prop :=
  (∃ k ≤ 62, depth = (2 ^ k : ℕ)) ∨ depth = -2 ^ 63 ∨ depth = 0

theorem double_two_pow {k : ℕ} (hk : k < 62) : double (2 ^ k : ℕ) = (2 ^ (k + 1) : ℕ) := by
  have hlt : 2 ^ k < 2 ^ 62 := Nat.pow_lt_pow_right (by decide) hk
  have hsucc : 2 ^ (k + 1) = 2 ^ k + 2 ^ k := by omega
  rw [double, hsucc]
  generalize 2 ^ k = n at hlt ⊢
  apply (Int.bmod_eq_iff (by decide)).mpr
  refine ⟨by omega, by omega, ⟨0, by omega⟩⟩

theorem doubling_double {depth : ℤ} (h : Doubling depth) : Doubling (double depth) := by
  rcases h with ⟨k, hk, rfl⟩ | rfl | rfl
  · rcases Nat.lt_or_eq_of_le hk with hlt | rfl
    · exact Or.inl ⟨k + 1, hlt, double_two_pow hlt⟩
    · exact Or.inr (Or.inl (by decide))
  · exact Or.inr (Or.inr (by decide))
  · exact Or.inr (Or.inr (by decide))

omit [DecidableEq C] in
theorem pull_two_pow (cl : Clone C) {k : ℕ} (hk : k ≤ 30) :
    cl.pull (2 ^ k : ℕ) = { cl with shown := .depth (2 ^ k) } := by
  have hle : 2 ^ k ≤ 2 ^ 30 := Nat.pow_le_pow_right (by decide) hk
  have hpos : 0 < 2 ^ k := Nat.two_pow_pos k
  rw [Clone.pull, if_pos ⟨by omega, by omega⟩, Int.toNat_natCast]

omit [DecidableEq C] in
theorem pull_of_refused (cl : Clone C) {depth : ℤ} (h : depth ≤ 0 ∨ 2 ^ 31 ≤ depth) :
    cl.pull depth = cl := if_neg fun hif => by omega

theorem revList_shallow_mono (h : History C) (tip : C) (D : ℤ) {j k : ℕ} (hjk : j ≤ k)
    (hj : (h.shallow tip j).revList tip D ≠ none) : (h.shallow tip k).revList tip D ≠ none := by
  obtain ⟨c, hc⟩ := Option.ne_none_iff_exists'.mp hj
  rw [(h.cuts_shallow_of_le tip hjk).revList_eq hc]
  exact Option.some_ne_none c

theorem found_of_search {b : Chars} {D : ℤ} {fuel : ℕ} {depth : ℤ} {cl : Clone C}
    (hdepth : Doubling depth) (h : search b D fuel depth cl ≠ none) : cl.Found b D := by
  induction fuel generalizing depth cl with
  | zero => exact absurd rfl h
  | succ fuel ih =>
      rw [search] at h
      split at h
      · next c hc => exact Or.inl (hc ▸ Option.some_ne_none c)
      · have hpull := ih (doubling_double hdepth) h
        rcases hdepth with ⟨k, hk, rfl⟩ | rfl | rfl
        · by_cases htaken : k ≤ 30
          · rw [pull_two_pow cl htaken] at hpull
            rcases hpull with hshown | hdeep
            · have hle : 2 ^ k ≤ 2 ^ 30 := Nat.pow_le_pow_right (by decide) htaken
              exact Or.inr (revList_shallow_mono _ _ _ hle hshown)
            · exact Or.inr hdeep
          · have hle : 2 ^ 31 ≤ 2 ^ k := Nat.pow_le_pow_right (by decide) (by omega)
            rwa [pull_of_refused cl (Or.inr (by omega))] at hpull
        · exact hpull
        · exact hpull

/-- From `2 ^ k` on, `DEPTH` comes to `2 ^ 30`. -/
theorem search_of_deep {b : Chars} {D : ℤ} {cl : Clone C}
    (hdeep : (cl.history.shallow (cl.tip b) (2 ^ 30)).revList (cl.tip b) D ≠ none)
    {j k : ℕ} (hjk : j + k = 30) : search b D (j + 2) (2 ^ k : ℕ) cl ≠ none := by
  induction j generalizing k cl with
  | zero =>
      obtain rfl : k = 30 := by omega
      rw [search]
      split
      · exact Option.some_ne_none _
      · obtain ⟨c, hc⟩ := Option.ne_none_iff_exists'.mp hdeep
        have hfound : (cl.pull (2 ^ 30 : ℕ)).revList b D = some c := by
          rw [pull_two_pow cl (Nat.le_refl 30)]
          exact hc
        rw [search, hfound]
        exact Option.some_ne_none _
  | succ j ih =>
      rw [search]
      split
      · exact Option.some_ne_none _
      · rw [double_two_pow (by omega), pull_two_pow cl (by omega)]
        have hgo : ({ cl with shown := .depth (2 ^ k) } : Clone C).history = cl.history := rfl
        exact ih (hgo ▸ hdeep) (by omega)

theorem search_mono {b : Chars} {D : ℤ} {m n : ℕ} (hmn : m ≤ n) {depth : ℤ}
    {cl cl' : Clone C} (h : search b D m depth cl = some cl') :
    search b D n depth cl = some cl' := by
  induction m generalizing n depth cl with
  | zero => cases h
  | succ m ih =>
      cases n with
      | zero => exact absurd hmn (Nat.not_succ_le_zero m)
      | succ n =>
          rw [search] at h ⊢
          split at h
          · exact h
          · exact ih (Nat.le_of_succ_le_succ hmn) h

/-- The loop for a clone ends exactly when there is something to be found: then 28
turns are enough. -/
theorem search_ne_none_iff {b : Chars} {D : ℤ} {cl : Clone C} {fuel : ℕ} (hfuel : 28 ≤ fuel) :
    search b D fuel 16 cl ≠ none ↔ cl.Found b D := by
  constructor
  · exact found_of_search (Or.inl ⟨4, by decide, rfl⟩)
  · rintro (hshown | hdeep)
    · obtain ⟨c, hc⟩ := Option.ne_none_iff_exists'.mp hshown
      have hone : search b D 1 16 cl = some cl := by rw [search, hc]
      rw [search_mono (by omega) hone]
      exact Option.some_ne_none cl
    · obtain ⟨cl', h⟩ := Option.ne_none_iff_exists'.mp
        (search_of_deep hdeep (j := 26) (k := 4) rfl)
      have hfull : search b D fuel 16 cl = some cl' := search_mono (m := 28) hfuel h
      rw [hfull]
      exact Option.some_ne_none cl'

/-- A clone that has been switched to a day had something of this day, and has it
still. -/
theorem found_of_switch {fuel : ℕ} {b : Chars} {D : ℤ} {cl cl' : Clone C}
    (h : switch fuel (some D) b cl = some cl') : cl.Found b D ∧ cl'.Found b D := by
  obtain ⟨found, hsearch, rfl⟩ := Option.map_eq_some_iff.mp h
  have hsome : search b D fuel 16 (cl.checkout b) ≠ none := hsearch ▸ Option.some_ne_none found
  have hfound : (cl.checkout b).Found b D := found_of_search (Or.inl ⟨4, by decide, rfl⟩) hsome
  refine ⟨hfound, ?_⟩
  obtain ⟨-, c, hc⟩ := search_spec hsearch
  have hshown : found.Found b D := Or.inl (hc ▸ Option.some_ne_none c)
  rw [Clone.checkoutDate, hc]
  exact hshown

section Modules

variable (g : Grep) (D : ℤ) (repos : List Chars)

/-- What the loop of `v` needs to come to its end. -/
def AllFound (l : List Chars) (w : Workspace C) : Prop :=
  ∀ i ∈ l, ∀ cl, w.projects i = some cl → cl.Found (repoBranch g i repos) D

theorem allFound_of_visit {fuel : ℕ} {l : List Chars} {w w' : Workspace C}
    (h : l.foldlM (visit g fuel (some D) repos) w = some w') : AllFound g D repos l w := by
  induction l generalizing w with
  | nil => exact fun i hi => absurd hi List.not_mem_nil
  | cons i l ih =>
      rw [List.foldlM_cons] at h
      obtain ⟨u, hu, htail⟩ := Option.bind_eq_some_iff.mp h
      rw [visit] at hu
      split at hu
      · next hnone =>
          obtain rfl := Option.some.inj hu
          refine List.forall_mem_cons.mpr ⟨fun cl hcl => ?_, ih htail⟩
          rw [hnone] at hcl
          cases hcl
      · next cl hcl =>
          obtain ⟨cl', hswitch, rfl⟩ := Option.map_eq_some_iff.mp hu
          have hi : ∀ cl, w.projects i = some cl → cl.Found (repoBranch g i repos) D := by
            intro cl₁ hcl₁
            obtain rfl : cl = cl₁ := Option.some.inj (hcl.symm.trans hcl₁)
            exact (found_of_switch hswitch).1
          refine List.forall_mem_cons.mpr ⟨hi, fun j hj => ?_⟩
          by_cases hji : j = i
          · exact hji ▸ hi
          · have hj' := ih htail j hj
            simp only [Function.update_of_ne hji] at hj'
            exact hj'

theorem visit_of_allFound {l : List Chars} {w : Workspace C} (h : AllFound g D repos l w) :
    ∃ w', l.foldlM (visit g 28 (some D) repos) w = some w' := by
  induction l generalizing w with
  | nil => exact ⟨w, rfl⟩
  | cons i l ih =>
      obtain ⟨hi, hl⟩ := List.forall_mem_cons.mp h
      rw [List.foldlM_cons, visit]
      split
      · exact ih hl
      · next cl hcl =>
          have hfound : (cl.checkout (repoBranch g i repos)).Found (repoBranch g i repos) D :=
            hi cl hcl
          obtain ⟨found, hsearch⟩ := Option.ne_none_iff_exists'.mp
            ((search_ne_none_iff (Nat.le_refl 28)).mpr hfound)
          have hswitch : switch 28 (some D) (repoBranch g i repos) cl =
              some (found.checkoutDate (repoBranch g i repos) D) := by
            rw [switch, hsearch]
            rfl
          rw [hswitch, Option.map_some]
          apply ih
          intro j hj cl' hcl'
          by_cases hji : j = i
          · subst hji
            simp only [Function.update_self] at hcl'
            obtain rfl := Option.some.inj hcl'
            exact (found_of_switch hswitch).2
          · simp only [Function.update_of_ne hji] at hcl'
            exact hl j hj cl' hcl'

/-- `make v date=D` comes to an end exactly when, in every module that has a clone, the
branch has a commit of the day `D` or before: among those the clone has, or among those
that a depth of `2 ^ 30` shows. -/
theorem v_terminates_iff (w : Workspace C) :
    (∃ fuel, v g fuel (some D) repos w ≠ none) ↔
      ∀ m ∈ modules repos, m ≠ [] → ∀ cl, w.projects m = some cl →
        cl.Found (repoBranch g m repos) D := by
  have hall : AllFound g D repos ((modules repos).filter fun m => m ≠ []) w ↔
      ∀ m ∈ modules repos, m ≠ [] → ∀ cl, w.projects m = some cl →
        cl.Found (repoBranch g m repos) D := by
    simp [AllFound]
  rw [← hall]
  constructor
  · rintro ⟨fuel, h⟩
    obtain ⟨w', hw'⟩ := Option.ne_none_iff_exists'.mp h
    obtain ⟨u, hu, -⟩ := Option.map_eq_some_iff.mp hw'
    exact allFound_of_visit g D repos hu
  · intro h
    obtain ⟨u, hu⟩ := visit_of_allFound g D repos h
    refine ⟨28, ?_⟩
    rw [v, hu]
    exact Option.some_ne_none _

end Modules

/-- A branch with no more than `2 ^ 30` first parents has something to be found when one
of them is of the day `D` or before. -/
theorem found_of_length_le {cl : Clone C} {b : Chars} {D : ℤ}
    (hlen : (cl.history.firstParents (cl.tip b)).length ≤ 2 ^ 30)
    (h : ∃ c ∈ cl.history.firstParents (cl.tip b), cl.history.date c ≤ D) : cl.Found b D := by
  right
  have htip : cl.tip b ∈ cl.history.within (cl.tip b) (0 + 1) := Finset.mem_insert_self _ _
  have hchain := History.firstParents_shallow_eq htip ((Nat.zero_add _).trans_le hlen)
  apply History.revList_ne_none_iff.mpr
  rw [hchain]
  exact h

theorem exists_of_found {cl : Clone C} {b : Chars} {D : ℤ} (h : cl.Found b D) :
    ∃ c ∈ cl.history.firstParents (cl.tip b), cl.history.date c ≤ D := by
  have hfull : ∀ {k : History C}, k.Cuts cl.history → k.revList (cl.tip b) D ≠ none →
      cl.history.revList (cl.tip b) D ≠ none := by
    intro k hk hne
    obtain ⟨c, hc⟩ := Option.ne_none_iff_exists'.mp hne
    exact hk.revList_eq hc ▸ Option.some_ne_none c
  apply History.revList_ne_none_iff.mp
  rcases h with hshown | hdeep
  · exact hfull (cuts_view cl b) hshown
  · exact hfull (History.cuts_shallow _ _ _) hdeep

/-! ## A small repository -/

/-- Commits 0, 1, 2, .. on one another, each on its own day. -/
def days : History ℕ where
  parents c := match c with
    | 0 => []
    | n + 1 => [n]
  date c := c
  age c := c
  age_lt c p hp := by
    cases c with
    | zero => cases hp
    | succ n => exact Nat.lt_succ_of_le (List.mem_singleton.mp hp).le

/-- A clone of depth 2 whose branches stand at the commit 5. -/
def shallowClone : Clone ℕ := ⟨days, fun _ => 5, .depth 2, .branch "master".toList⟩

/-- The second turn finds the commit of day 1, which is not in the clone at first. -/
theorem switch_eq_full_days :
    ∃ c, days.revList 5 1 = some c ∧
      ((shallowClone.pull 16).checkoutDate "master".toList 1).head = .commit c := by
  have hrun : switch 2 (some 1) "master".toList shallowClone =
      some ((shallowClone.pull 16).checkoutDate "master".toList 1) := rfl
  exact switch_eq_full hrun

/-- No commit is of the day -1 or before, so that the loop for `gcc` does not end. -/
theorem v_searches_forever :
    ¬ ∃ fuel, v Grep.plain fuel (some (-1)) ["gcc https://x master".toList]
      ⟨fun m => if m = "gcc".toList then some shallowClone else none, shallowClone⟩ ≠ none := by
  rintro ⟨fuel, h⟩
  obtain ⟨w', hw'⟩ := Option.ne_none_iff_exists'.mp h
  obtain ⟨u, hu, -⟩ := Option.map_eq_some_iff.mp hw'
  have hmem : "gcc".toList ∈
      (modules ["gcc https://x master".toList]).filter fun m => m ≠ [] := by
    repeat rw [toList_eq rfl]
    decide
  have hfound := allFound_of_visit Grep.plain (-1) _ hu _ hmem shallowClone (by simp)
  obtain ⟨c, -, hc⟩ := exists_of_found hfound
  exact absurd (Int.natCast_nonneg c) (Int.not_le.mpr (Int.lt_of_le_of_lt hc (by decide)))

end Registry

end AmigaGcc
