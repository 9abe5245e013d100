import AmigaGcc.Library.Make.Schedule

/-!
# What a run rebuilds

`Dirty` is the set of targets that are outdated before a run, or need one that
is. When the recipes are `Tidy`, the files that a run makes are those of the dirty
targets, in whatever order the run takes them (`rebuilt_iff`), and nothing that it
has updated is dirty afterwards (`not_dirty_of_updated`). What the next run does
after files are removed or edited follows from `dirty_remove_iff` and
`dirty_edit_iff`.
-/

namespace Library

namespace Make

open Transition

variable {τ : Type*} (R : Rules τ)

/-- Outdated, or in need of a target that is. -/
inductive Dirty (files : Files τ) : τ → Prop where
  | outdated {t : τ} (h : Outdated R files t) : Dirty files t
  | prereq {t p : τ} (hp : p ∈ R.prereqs t) (h : Dirty files p) : Dirty files t

/-- The targets whose recipes are known: `fresh` are those whose recipe gives its
file the time at which it ends, and not one that the file had elsewhere. -/
structure Scope where
  mem : τ → Prop
  fresh : τ → Prop
  closed : ∀ t, mem t → ∀ p ∈ R.prereqs t, mem p
  /-- a file has no phony prerequisites -/
  concrete : ∀ t, mem t → R.phony t = false → ∀ p ∈ R.prereqs t, R.phony p = false
  file : ∀ t, fresh t → R.phony t = false

variable {R}

/-- What a recipe that succeeds leaves as its target. -/
def Made (S : Scope R) (t : τ) (now : ℕ) (files : Files τ) : Prop :=
  (S.fresh t ∧ files t = some now) ∨
    (¬ S.fresh t ∧ ¬ Outdated R files t ∧ ∃ m ≤ now, files t = some m)

/-- What the recipe of `t` may do to another file: nothing; or give a time to a
prerequisite of its own that is no one else's and has none itself; or make it, with
a make of its own, when its turn has come. -/
def Spared (S : Scope R) (s : State τ) (t : τ) (now : ℕ) (new : Files τ) (u : τ) : Prop :=
  new u = s.files u ∨
    (u ∈ R.prereqs t ∧ R.prereqs u = [] ∧ ¬ S.fresh u ∧
      (∀ v, S.mem v → u ∈ R.prereqs v → v = t) ∧ ∃ n ≤ now, new u = some n) ∨
    (S.fresh u ∧ s.phase u = .waiting ∧ Ready R s u ∧ Outdated R s.files u ∧
      ∃ n, s.now ≤ n ∧ n ≤ now ∧ new u = some n)

/-- A recipe that succeeds has made its target, and every recipe spares the other
files. -/
def Tidy (S : Scope R) (s : State τ) : Event τ → Prop
  | .finish t status now files =>
      (status = 0 → S.mem t → R.phony t = false → Made S t now files) ∧
        ∀ u, u ≠ t → S.mem u → Spared S s t now files u
  | _ => True

def Past (S : Scope R) (files : Files τ) (now : ℕ) : Prop :=
  ∀ t, S.mem t → ∀ m ∈ R.time files t, m < now

/-- What has to be made before a run although its time may be that of an old file is
needed by missing files only. -/
def Firm (S : Scope R) (files : Files τ) : Prop :=
  ∀ t, S.mem t → ∀ p ∈ R.prereqs t, ¬ S.fresh p → Dirty R files p → R.time files t = none

def Rebuilt (now : ℕ) (s : State τ) (t : τ) : Prop := ∃ n, now ≤ n ∧ s.files t = some n

variable {S : Scope R} {goals : List τ} {s s' : State τ} {t u p : τ} {files old : Files τ}

theorem not_outdated_iff : ¬ Outdated R files t ↔
    ∃ m, R.time files t = some m ∧ ∀ p ∈ R.prereqs t, ∃ n, R.time files p = some n ∧ n ≤ m := by
  simp [Outdated]

theorem outdated_of_missing (h : R.time files t = none) : Outdated R files t := by
  simp [Outdated, h]

theorem time_congr (h : files t = old t) : R.time files t = R.time old t := by
  rw [Rules.time, Rules.time, h]

theorem time_eq_some {n : ℕ} (hphony : R.phony t = false) (h : files t = some n) :
    R.time files t = some n := by
  simp [Rules.time, hphony, h]

theorem outdated_congr (ht : files t = old t) (hp : ∀ p ∈ R.prereqs t, files p = old p) :
    Outdated R files t ↔ Outdated R old t := by
  rw [Outdated, Outdated, time_congr ht]
  refine forall₂_congr fun m _ => exists_congr fun p => and_congr_right fun hmem => ?_
  rw [time_congr (hp p hmem)]

theorem dirty_iff : Dirty R files t ↔ Outdated R files t ∨ ∃ p ∈ R.prereqs t, Dirty R files p := by
  constructor
  · intro h
    cases h with
    | outdated h => exact .inl h
    | prereq hp h => exact .inr ⟨_, hp, h⟩
  · rintro (h | ⟨p, hp, h⟩)
    · exact .outdated h
    · exact .prereq hp h

theorem dirty_iff_needs : Dirty R files t ↔ ∃ p, R.Needs t p ∧ Outdated R files p := by
  constructor
  · intro h
    induction h with
    | outdated h => exact ⟨_, Rules.needs_refl _, h⟩
    | prereq hp _ ih =>
        obtain ⟨q, hq, h⟩ := ih
        exact ⟨q, (Rules.needs_of_mem hp).trans hq, h⟩
  · rintro ⟨p, hp, h⟩
    induction hp using Relation.ReflTransGen.head_induction_on with
    | refl => exact .outdated h
    | head hmem _ ih => exact .prereq hmem ih

theorem Scope.mem_of_needs (ht : S.mem t) (h : R.Needs t p) : S.mem p := h.mem S.closed ht

/-! ### What a run knows about its start -/

section Tracks

variable {now : ℕ}

/-- What is waiting has its file of the start, if no recipe has made it, only what
was dirty runs, and what is updated and fresh is as it was or has been made, as it
was dirty or not. -/
structure Tracks (S : Scope R) (files : Files τ) (now : ℕ) (s : State τ) : Prop where
  now_le : now ≤ s.now
  waiting : ∀ t, S.mem t → s.phase t = .waiting →
    s.files t = files t ∨ Dirty R files t ∧ S.fresh t ∧ Rebuilt now s t
  running : ∀ t, S.mem t → s.phase t = .running → Dirty R files t
  fresh : ∀ t, S.mem t → S.fresh t → s.phase t = .updated →
    ¬ Dirty R files t ∧ s.files t = files t ∨ Dirty R files t ∧ Rebuilt now s t
  stale : ∀ t, S.mem t → s.phase t = .waiting → ∀ p ∈ R.prereqs t, ¬ S.fresh p →
    s.phase p = .updated → ¬ Dirty R files p → s.files p = files p

theorem tracks_init : Tracks S files now (init files now) where
  now_le := Nat.le_refl now
  waiting _ _ _ := .inl rfl
  running _ _ h := nomatch h
  fresh _ _ _ h := nomatch h
  stale _ _ _ _ _ _ h := nomatch h

namespace Tracks

variable (h : Tracks S files now s)

include h

theorem prereq_eq (ht : S.mem t) (hw : s.phase t = .waiting) (hready : Ready R s t)
    (hp : p ∈ R.prereqs t) (hclean : ¬ Dirty R files p) : s.files p = files p := by
  by_cases hfresh : S.fresh p
  · rcases h.fresh p (S.closed t ht p hp) hfresh (hready p hp) with ⟨-, hsame⟩ | ⟨hdirty, -⟩
    · exact hsame
    · exact absurd hdirty hclean
  · exact h.stale t ht hw p hp hfresh (hready p hp) hclean

theorem dirty_of_outdated (ht : S.mem t) (hw : s.phase t = .waiting) (hready : Ready R s t)
    (hout : Outdated R s.files t) : Dirty R files t := by
  rcases h.waiting t ht hw with hsame | ⟨hdirty, -⟩
  · by_contra hclean
    have hprereq : ∀ p ∈ R.prereqs t, s.files p = files p := fun p hp =>
      h.prereq_eq ht hw hready hp fun hdirty => hclean (.prereq hp hdirty)
    exact hclean (.outdated ((outdated_congr hsame hprereq).mp hout))
  · exact hdirty

theorem rebuilt_of_dirty (hpast : Past S files now) (hfirm : Firm S files) (ht : S.mem t)
    (hw : s.phase t = .waiting) (hready : Ready R s t) (hout : ¬ Outdated R s.files t)
    (hdirty : Dirty R files t) : Rebuilt now s t := by
  rcases h.waiting t ht hw with hsame | ⟨-, -, hrebuilt⟩
  · refine absurd ?_ hout
    by_cases hp : ∃ p ∈ R.prereqs t, Dirty R files p
    · obtain ⟨p, hp, hpdirty⟩ := hp
      by_cases hfresh : S.fresh p
      · obtain ⟨hclean, -⟩ | ⟨-, n, hn, hfile⟩ :=
          h.fresh p (S.closed t ht p hp) hfresh (hready p hp)
        · exact absurd hpdirty hclean
        · -- the file of `t` is from before the run, that of `p` is not
          intro m hm
          rw [time_congr hsame] at hm
          refine ⟨p, hp, fun k hk => ?_⟩
          rw [time_eq_some (S.file p hfresh) hfile] at hk
          exact Option.some.inj hk ▸ Nat.lt_of_lt_of_le (hpast t ht m hm) hn
      · exact outdated_of_missing (time_congr hsame ▸ hfirm t ht p hp hfresh hpdirty)
    · have hprereq : ∀ p ∈ R.prereqs t, s.files p = files p := fun p hmem =>
        h.prereq_eq ht hw hready hmem fun hpdirty => hp ⟨p, hmem, hpdirty⟩
      exact (outdated_congr hsame hprereq).mpr ((dirty_iff.mp hdirty).resolve_right hp)
  · exact hrebuilt

end Tracks

end Tracks

section Run

variable [DecidableEq τ] {e : Event τ} {es : List (Event τ)} {now : ℕ}

namespace Tracks

variable (h : Tracks S files now s)

include h

theorem of_skip (hpast : Past S files now) (hfirm : Firm S files)
    (hstep : step R goals s (.skip t) = some s') : Tracks S files now s' := by
  obtain ⟨⟨-, hw, hready, hout⟩, -⟩ := step_skip_eq_some.mp hstep
  obtain ⟨hself, hfiles, hnow⟩ := skip_spec hstep
  -- what is not updated is another target, as before
  have hother : ∀ u, s'.phase u ≠ .updated → s'.phase u = s.phase u := by
    intro u hu
    refine phase_of_ne hstep ?_
    rintro rfl
    exact hu hself
  have hrebuilt : ∀ u, Rebuilt now s' u ↔ Rebuilt now s u := fun u => by
    rw [Rebuilt, Rebuilt, hfiles]
  refine ⟨hnow ▸ h.now_le, fun u hu hu' => ?_, fun u hu hu' => ?_, fun u hu hfresh hu' => ?_,
    fun u hu hu' p hp hfresh hp' hclean => ?_⟩
  · rw [hfiles, hrebuilt]
    exact h.waiting u hu (hother u (by simp [hu']) ▸ hu')
  · exact h.running u hu (hother u (by simp [hu']) ▸ hu')
  · rw [hfiles, hrebuilt]
    by_cases hut : u = t
    · subst hut
      by_cases hdirty : Dirty R files u
      · exact .inr ⟨hdirty, h.rebuilt_of_dirty hpast hfirm hu hw hready hout hdirty⟩
      · exact .inl ⟨hdirty, (h.waiting u hu hw).resolve_right fun h' => hdirty h'.1⟩
    · exact h.fresh u hu hfresh (phase_of_ne hstep hut ▸ hu')
  · have huw : s.phase u = .waiting := hother u (by simp [hu']) ▸ hu'
    rw [hfiles]
    by_cases hpt : p = t
    · subst hpt
      exact (h.waiting p (S.closed u hu p hp) hw).resolve_right fun h' => hclean h'.1
    · exact h.stale u hu huw p hp hfresh (phase_of_ne hstep hpt ▸ hp') hclean

theorem of_start (hstep : step R goals s (.start t) = some s') : Tracks S files now s' := by
  obtain ⟨⟨-, hw, hready, hout, -⟩, -⟩ := step_start_eq_some.mp hstep
  obtain ⟨hself, hfiles, hnow⟩ := start_spec hstep
  -- what is not running is another target, as before
  have hother : ∀ u, s'.phase u ≠ .running → s'.phase u = s.phase u := by
    intro u hu
    refine phase_of_ne hstep ?_
    rintro rfl
    exact hu hself
  have hrebuilt : ∀ u, Rebuilt now s' u ↔ Rebuilt now s u := fun u => by
    rw [Rebuilt, Rebuilt, hfiles]
  refine ⟨hnow ▸ h.now_le, fun u hu hu' => ?_, fun u hu hu' => ?_, fun u hu hfresh hu' => ?_,
    fun u hu hu' p hp hfresh hp' hclean => ?_⟩
  · rw [hfiles, hrebuilt]
    exact h.waiting u hu (hother u (by simp [hu']) ▸ hu')
  · by_cases hut : u = t
    · subst hut
      exact h.dirty_of_outdated hu hw hready hout
    · exact h.running u hu (phase_of_ne hstep hut ▸ hu')
  · rw [hfiles, hrebuilt]
    exact h.fresh u hu hfresh (hother u (by simp [hu']) ▸ hu')
  · rw [hfiles]
    exact h.stale u hu (hother u (by simp [hu']) ▸ hu') p hp hfresh
      (hother p (by simp [hp']) ▸ hp') hclean

theorem of_finish {status now' : ℕ} {new : Files τ} (hs : Ordered R s)
    (htidy : Tidy S s (.finish t status now' new))
    (hstep : step R goals s (.finish t status now' new) = some s') : Tracks S files now s' := by
  obtain ⟨⟨hr, hle, -⟩, -⟩ := step_finish_eq_some.mp hstep
  obtain ⟨hself, rfl, rfl⟩ := finish_spec hstep
  obtain ⟨hmade, hspared⟩ := htidy
  have hother : ∀ u, u ≠ t → s'.phase u = s.phase u := fun u hu => phase_of_ne hstep hu
  have hne : ∀ {u}, s'.phase u = .waiting ∨ s'.phase u = .running → u ≠ t := by
    rintro u hu rfl
    rw [hself] at hu
    split at hu <;> simp at hu
  refine ⟨Nat.le_trans h.now_le hle, fun u hu hu' => ?_, fun u hu hu' => ?_,
    fun u hu hfresh hu' => ?_, fun u hu hu' p hp hfresh hp' hclean => ?_⟩
  · have hut : u ≠ t := hne (.inl hu')
    have huw : s.phase u = .waiting := hother u hut ▸ hu'
    rcases hspared u hut hu with hsame | ⟨hmem, -⟩ | ⟨hfresh, -, hready, hout, n, hn, -, hfile⟩
    · rw [Rebuilt, hsame]
      exact h.waiting u hu huw
    · -- the prerequisites of what runs are updated
      have := hs t (by simp [hr]) u hmem
      simp [huw] at this
    · exact .inr ⟨h.dirty_of_outdated hu huw hready hout, hfresh, n,
        Nat.le_trans h.now_le hn, hfile⟩
  · exact h.running u hu (hother u (hne (.inr hu')) ▸ hu')
  · by_cases hut : u = t
    · subst hut
      have hstatus : status = 0 := by
        by_contra hstatus
        simp [hself, hstatus] at hu'
      rcases hmade hstatus hu (S.file u hfresh) with ⟨-, hfile⟩ | ⟨hstale, -⟩
      · exact .inr ⟨h.running u hu hr, _, Nat.le_trans h.now_le hle, hfile⟩
      · exact absurd hfresh hstale
    · have hup : s.phase u = .updated := hother u hut ▸ hu'
      rcases hspared u hut hu with hsame | ⟨-, -, hstale, -⟩ | ⟨-, hw, -⟩
      · rw [Rebuilt, hsame]
        exact h.fresh u hu hfresh hup
      · exact absurd hfresh hstale
      · simp [hup] at hw
  · have hut : u ≠ t := hne (.inl hu')
    have hmem : S.mem p := S.closed u hu p hp
    by_cases hpt : p = t
    · exact absurd (h.running p hmem (hpt ▸ hr)) hclean
    · rcases hspared p hpt hmem with hsame | ⟨-, -, -, hsole, -⟩ | ⟨hfresh', -⟩
      · rw [hsame]
        exact h.stale u hu (hother u hut ▸ hu') p hp hfresh (hother p hpt ▸ hp') hclean
      · exact absurd (hsole u hu hp) hut
      · exact absurd hfresh' hfresh

end Tracks

/-! ### What a run leaves behind -/

/-- What is updated is not outdated, and no file is from the future. -/
structure Settled (S : Scope R) (s : State τ) : Prop where
  le_now : ∀ t, S.mem t → s.phase t ≠ .failed → ∀ m ∈ R.time s.files t, m ≤ s.now
  current : ∀ t, S.mem t → s.phase t = .updated → R.phony t = false → ¬ Outdated R s.files t

namespace Settled

variable (h : Settled S s)

include h

theorem of_skip (hstep : step R goals s (.skip t) = some s') : Settled S s' := by
  obtain ⟨⟨-, hw, -, hout⟩, -⟩ := step_skip_eq_some.mp hstep
  obtain ⟨hself, hfiles, hnow⟩ := skip_spec hstep
  refine ⟨fun u hu hu' => ?_, fun u hu hu' hphony => ?_⟩
  · rw [hfiles, hnow]
    by_cases hut : u = t
    · exact h.le_now u hu (by simp [hut, hw])
    · exact h.le_now u hu (phase_of_ne hstep hut ▸ hu')
  · rw [hfiles]
    by_cases hut : u = t
    · exact hut ▸ hout
    · exact h.current u hu (phase_of_ne hstep hut ▸ hu') hphony

theorem of_start (hstep : step R goals s (.start t) = some s') : Settled S s' := by
  obtain ⟨⟨-, hw, -⟩, -⟩ := step_start_eq_some.mp hstep
  obtain ⟨hself, hfiles, hnow⟩ := start_spec hstep
  refine ⟨fun u hu hu' => ?_, fun u hu hu' hphony => ?_⟩
  · rw [hfiles, hnow]
    by_cases hut : u = t
    · exact h.le_now u hu (by simp [hut, hw])
    · exact h.le_now u hu (phase_of_ne hstep hut ▸ hu')
  · rw [hfiles]
    have hut : u ≠ t := by
      rintro rfl
      simp [hself] at hu'
    exact h.current u hu (phase_of_ne hstep hut ▸ hu') hphony

theorem of_finish {status now' : ℕ} {new : Files τ} (hs : Ordered R s)
    (htidy : Tidy S s (.finish t status now' new))
    (hstep : step R goals s (.finish t status now' new) = some s') : Settled S s' := by
  obtain ⟨⟨hr, hle, -⟩, -⟩ := step_finish_eq_some.mp hstep
  obtain ⟨hself, rfl, rfl⟩ := finish_spec hstep
  obtain ⟨hmade, hspared⟩ := htidy
  have hother : ∀ u, u ≠ t → s'.phase u = s.phase u := fun u hu => phase_of_ne hstep hu
  have hstatus : s'.phase t ≠ .failed → status = 0 := by
    intro hne
    by_contra hstatus
    exact hne (by simp [hself, hstatus])
  have hle_now : ∀ u, S.mem u → s'.phase u ≠ .failed → ∀ m ∈ R.time s'.files u, m ≤ s'.now := by
    intro u hu hu' m hm
    cases hphony : R.phony u with
    | true => simp [Rules.time, hphony] at hm
    | false =>
        by_cases hut : u = t
        · subst hut
          rcases hmade (hstatus hu') hu hphony with ⟨-, hfile⟩ | ⟨-, -, n, hn, hfile⟩
          · rw [time_eq_some hphony hfile] at hm
            exact Nat.le_of_eq (Option.some.inj hm).symm
          · rw [time_eq_some hphony hfile] at hm
            exact Option.some.inj hm ▸ hn
        · rcases hspared u hut hu with
            hsame | ⟨-, -, -, -, n, hn, hfile⟩ | ⟨-, -, -, -, n, -, hn, hfile⟩
          · rw [time_congr hsame] at hm
            exact Nat.le_trans (h.le_now u hu (hother u hut ▸ hu') m hm) hle
          · rw [time_eq_some hphony hfile] at hm
            exact Option.some.inj hm ▸ hn
          · rw [time_eq_some hphony hfile] at hm
            exact Option.some.inj hm ▸ hn
  refine ⟨hle_now, fun u hu hu' hphony => ?_⟩
  by_cases hut : u = t
  · subst hut
    rcases hmade (hstatus (by simp [hu'])) hu hphony with ⟨-, hfile⟩ | ⟨-, hout, -⟩
    · refine not_outdated_iff.mpr ⟨_, time_eq_some hphony hfile, fun p hp => ?_⟩
      have hmem : S.mem p := S.closed u hu p hp
      have hpphony : R.phony p = false := S.concrete u hu hphony p hp
      have hup : s.phase p = .updated := hs u (by simp [hr]) p hp
      have hpu : p ≠ u := by
        rintro rfl
        simp [hr] at hup
      have hup' : s'.phase p ≠ .failed := by simp [hother p hpu, hup]
      -- the prerequisite was updated, and is there still
      obtain ⟨n, hn⟩ : ∃ n, R.time s'.files p = some n := by
        rcases hspared p hpu hmem with hsame | ⟨-, -, -, -, n, -, hfile⟩ | ⟨-, hw, -⟩
        · obtain ⟨n, hn, -⟩ := not_outdated_iff.mp (h.current p hmem hup hpphony)
          exact ⟨n, time_congr hsame ▸ hn⟩
        · exact ⟨n, time_eq_some hpphony hfile⟩
        · simp [hup] at hw
      exact ⟨n, hn, hle_now p hmem hup' n hn⟩
    · exact hout
  · have hup : s.phase u = .updated := hother u hut ▸ hu'
    rcases hspared u hut hu with hsame | ⟨-, hleaf, -, -, n, -, hfile⟩ | ⟨-, hw, -⟩
    · rw [outdated_congr hsame fun p hp => ?_]
      · exact h.current u hu hup hphony
      · have hpup : s.phase p = .updated := hs u (by simp [hup]) p hp
        have hpt : p ≠ t := by
          rintro rfl
          simp [hr] at hpup
        rcases hspared p hpt (S.closed u hu p hp) with hsame | ⟨-, -, -, hsole, -⟩ | ⟨-, hw, -⟩
        · exact hsame
        · exact absurd (hsole u hu hp) hut
        · simp [hpup] at hw
    · exact not_outdated_iff.mpr ⟨n, time_eq_some hphony hfile, by simp [hleaf]⟩
    · simp [hup] at hw

end Settled

section Outcome

variable (hpast : Past S files now)
  (htidy : Throughout (step R goals) (Tidy S) (init files now) es)
  (h : run (step R goals) (init files now) es = some s)

include hpast htidy h

theorem settled_of_run : Settled S s := by
  refine (run_invariant_of_throughout (I := fun s => Ordered R s ∧ Settled S s)
    (fun s e s' hs hc hstep => ⟨hs.1.of_step hstep, ?_⟩)
    ⟨ordered_init, fun t ht _ m hm => Nat.le_of_lt (hpast t ht m hm), fun _ _ h => nomatch h⟩
    htidy h).2
  cases e with
  | skip t => exact hs.2.of_skip hstep
  | start t => exact hs.2.of_start hstep
  | finish t status now' new => exact hs.2.of_finish hs.1 hc hstep

theorem tracks_of_run (hfirm : Firm S files) : Tracks S files now s := by
  refine (run_invariant_of_throughout (I := fun s => Ordered R s ∧ Tracks S files now s)
    (fun s e s' hs hc hstep => ⟨hs.1.of_step hstep, ?_⟩) ⟨ordered_init, tracks_init⟩ htidy h).2
  cases e with
  | skip t => exact hs.2.of_skip hpast hfirm hstep
  | start t => exact hs.2.of_start hstep
  | finish t status now' new => exact hs.2.of_finish hs.1 hc hstep

/-- The files made by a run are those of the dirty targets, in whatever order the run
went. -/
theorem rebuilt_iff (hfirm : Firm S files) (ht : S.mem t) (hfresh : S.fresh t)
    (hup : s.phase t = .updated) : Rebuilt now s t ↔ Dirty R files t := by
  constructor
  · rintro ⟨n, hn, hfile⟩
    rcases (tracks_of_run hpast htidy h hfirm).fresh t ht hfresh hup with ⟨-, hsame⟩ | ⟨hdirty, -⟩
    · have hlt := hpast t ht n (time_eq_some (S.file t hfresh) (hsame ▸ hfile))
      exact absurd hn (Nat.not_le.mpr hlt)
    · exact hdirty
  · intro hdirty
    rcases (tracks_of_run hpast htidy h hfirm).fresh t ht hfresh hup with ⟨hclean, -⟩ | ⟨-, h'⟩
    · exact absurd hdirty hclean
    · exact h'

theorem not_dirty_of_updated (ht : S.mem t) (hup : s.phase t = .updated)
    (hphony : R.phony t = false) : ¬ Dirty R s.files t := by
  have hsettled := settled_of_run hpast htidy h
  induction t using Rules.induct (R := R) with
  | h t ih =>
      rw [dirty_iff, not_or]
      refine ⟨hsettled.current t ht hup hphony, ?_⟩
      rintro ⟨p, hp, hdirty⟩
      have hready : Ready R s t := ordered_of_run h t (by simp [hup])
      exact ih p hp (S.closed t ht p hp) (hready p hp) (S.concrete t ht hphony p hp) hdirty

omit hpast in
/-- A run does not touch the file of a target whose turn has not come. -/
theorem eq_or_ready_of_run (ht : S.mem t) (hw : s.phase t = .waiting) :
    s.files t = files t ∨ Ready R s t := by
  refine run_invariant_of_throughout
    (I := fun s => ∀ t, S.mem t → s.phase t = .waiting → s.files t = files t ∨ Ready R s t)
    (fun s e s' hs hc hstep u hu hw => ?_) (fun _ _ _ => .inl rfl) htidy h t ht hw
  -- `u` was waiting before the event, too
  have hue : u ≠ e.target := by
    rintro rfl
    obtain ⟨φ, hφ, ⟨-, -, rfl | rfl⟩ | ⟨-, rfl | rfl⟩⟩ := phase_of_step hstep <;> simp [hφ] at hw
  have hold : s.phase u = .waiting := phase_of_ne hstep hue ▸ hw
  have hkeep : s'.files u = s.files u → s'.files u = files u ∨ Ready R s' u := fun hsame =>
    (hs u hu hold).imp hsame.trans fun hready => hready.of_step hstep
  cases e with
  | skip t => exact hkeep (congrFun (skip_spec hstep).2.1 u)
  | start t => exact hkeep (congrFun (start_spec hstep).2.1 u)
  | finish t status now' new =>
      obtain ⟨-, rfl, -⟩ := finish_spec hstep
      rcases hc.2 u hue hu with hsame | ⟨-, hleaf, -⟩ | ⟨-, -, hready, -⟩
      · exact hkeep hsame
      · exact .inr fun p hp => by simp [hleaf] at hp
      · exact .inr (hready.of_step hstep)

/-- After a run, even one that has failed, from sources alone. -/
theorem firm_of_run (hnew : ∀ t, S.mem t → R.prereqs t ≠ [] → files t = none) :
    Firm S s.files := by
  intro t ht p hp _ hdirty
  cases hphony : R.phony t with
  | true => simp [Rules.time, hphony]
  | false =>
      have hup : s.phase p ≠ .updated := fun hup =>
        not_dirty_of_updated hpast htidy h (S.closed t ht p hp) hup
          (S.concrete t ht hphony p hp) hdirty
      have hw : s.phase t = .waiting := by
        by_contra hw
        exact hup (ordered_of_run h t hw p hp)
      rcases eq_or_ready_of_run htidy h ht hw with hsame | hready
      · have hnone := hnew t ht (List.ne_nil_of_mem hp)
        simp [Rules.time, hsame, hnone]
      · exact absurd (hready p hp) hup

end Outcome

/-- Recipes that make their own files only are tidy, where what is not fresh needs
nothing. -/
theorem tidy_of_plain (hS : ∀ t, S.mem t → R.phony t = false → S.fresh t ∨ R.prereqs t = [])
    (h : Plain s e) : Tidy S s e := by
  cases e with
  | skip t | start t => trivial
  | finish t status now files =>
      obtain ⟨rfl, rfl⟩ := h t status now files rfl
      refine ⟨fun _ ht hphony => ?_, fun u hu _ => .inl (Function.update_of_ne hu _ _)⟩
      have hfile : Function.update s.files t (some now) t = some now := Function.update_self _ _ _
      by_cases hfresh : S.fresh t
      · exact .inl ⟨hfresh, hfile⟩
      · have hleaf := (hS t ht hphony).resolve_left hfresh
        refine .inr ⟨hfresh, ?_, now, Nat.le_refl now, hfile⟩
        exact not_outdated_iff.mpr ⟨now, time_eq_some hphony hfile, by simp [hleaf]⟩

end Run

/-! ### Between two runs -/

def remove (A : τ → Prop) [DecidablePred A] (files : Files τ) : Files τ :=
  fun t => if A t then none else files t

/-- After files are removed, what was up to date is dirty exactly when it needs
one of them. -/
theorem dirty_remove_iff {A : τ → Prop} [DecidablePred A] (h : ¬ Dirty R files t) :
    Dirty R (remove A files) t ↔ ∃ p, R.Needs t p ∧ A p := by
  rw [dirty_iff_needs]
  constructor
  · rintro ⟨p, hp, hout⟩
    by_contra hno
    simp only [not_exists, not_and] at hno
    have hsame : ∀ q, R.Needs t q → remove A files q = files q := fun q hq => by
      simp [remove, hno q hq]
    refine h (dirty_iff_needs.mpr ⟨p, hp, ?_⟩)
    rwa [outdated_congr (hsame p hp) fun q hq => hsame q (hp.trans (Rules.needs_of_mem hq))] at hout
  · rintro ⟨p, hp, hA⟩
    exact ⟨p, hp, outdated_of_missing (by simp [Rules.time, remove, hA])⟩

/-- The files with those in `A` saved at the time `n`. -/
def edit (A : τ → Prop) [DecidablePred A] (n : ℕ) (files : Files τ) : Files τ :=
  fun t => if A t then some n else files t

/-- After files without prerequisites are edited, what was up to date is dirty
exactly when it depends on one of them. -/
theorem dirty_edit_iff {A : τ → Prop} [DecidablePred A] {n : ℕ}
    (hA : ∀ p, A p → R.prereqs p = [] ∧ R.phony p = false)
    (hn : ∀ p, R.Needs t p → ∀ m ∈ R.time files p, m < n) (h : ¬ Dirty R files t) :
    Dirty R (edit A n files) t ↔ ∃ p, R.Depends t p ∧ A p := by
  rw [dirty_iff_needs]
  constructor
  · rintro ⟨p, hp, hout⟩
    by_contra hno
    simp only [not_exists, not_and] at hno
    by_cases hAp : A p
    · -- what is edited is there, and has no prerequisites
      obtain ⟨hleaf, hphony⟩ := hA p hAp
      refine not_outdated_iff.mpr ⟨n, ?_, by simp [hleaf]⟩ hout
      simp [Rules.time, hphony, edit, hAp]
    · have hsame : ∀ q, q ∈ R.prereqs p → edit A n files q = files q := fun q hq => by
        have hdep : R.Depends t q := Rules.depends_of_needs_mem hp hq
        simp [edit, hno q hdep]
      refine h (dirty_iff_needs.mpr ⟨p, hp, ?_⟩)
      rwa [outdated_congr (by simp [edit, hAp]) hsame] at hout
  · rintro ⟨p, hp, hAp⟩
    obtain ⟨q, hq, hmem⟩ := Rules.exists_mem_of_depends hp
    refine ⟨q, hq, fun m hm => ⟨p, hmem, fun k hk => ?_⟩⟩
    have hAq : ¬ A q := fun hAq => by simp [(hA q hAq).1] at hmem
    have hold : m ∈ R.time files q := by
      simpa [Rules.time, edit, hAq] using hm
    have hnew : n = k := by
      simpa [Rules.time, edit, hAp, (hA p hAp).2] using hk
    exact hnew ▸ hn q hq m hold

end Make

end Library
