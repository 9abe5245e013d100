import AmigaGcc.Library.Make.Rules
import AmigaGcc.Library.Transition
import Mathlib.Data.List.Nodup
import Mathlib.Logic.Function.Basic

/-!
# Runs of make

A run of make on some goals, with any number of recipes at the same time. A
target is considered when its prerequisites are updated: if it is outdated its
recipe is started, else it is skipped. A recipe that ends with a status other
than 0 has failed, and after that no recipe is started any more. What a recipe
does to the files is up to it: `finish` carries the times of all files after it.

`Ordered` is the invariant of every run, whatever the order of the events: what
is not waiting has its prerequisites updated.
-/

namespace Library

namespace Make

open Transition

/-- The times of the files that are there. -/
abbrev Files (τ : Type*) := τ → Option ℕ

inductive Phase where
  | waiting
  | running
  /-- made, or found up to date -/
  | updated
  | failed
  deriving DecidableEq, Repr

structure State (τ : Type*) where
  phase : τ → Phase
  files : Files τ
  now : ℕ
  stopped : Bool

inductive Event (τ : Type*) where
  | skip (t : τ)
  | start (t : τ)
  | finish (t : τ) (status now : ℕ) (files : Files τ)

section Step

variable {τ : Type*} (R : Rules τ)

/-- The time make goes by. -/
def Rules.time (files : Files τ) (t : τ) : Option ℕ := if R.phony t then none else files t

/-- A target that is missing, or has a prerequisite that is missing or newer. -/
def Outdated (files : Files τ) (t : τ) : Prop :=
  ∀ m ∈ R.time files t, ∃ p ∈ R.prereqs t, ∀ n ∈ R.time files p, m < n

instance (files : Files τ) (t : τ) : Decidable (Outdated R files t) :=
  match h : R.time files t with
  | none => isTrue fun m hm => by simp [h] at hm
  | some m => decidable_of_iff (∃ p ∈ R.prereqs t, ∀ n ∈ (R.time files p).toList, m < n) <| by
      simp [Outdated, h]

def Ready (s : State τ) (t : τ) : Prop := ∀ p ∈ R.prereqs t, s.phase p = .updated

instance (s : State τ) (t : τ) : Decidable (Ready R s t) :=
  inferInstanceAs (Decidable (∀ p ∈ R.prereqs t, s.phase p = .updated))

def Rules.Wanted (goals : List τ) (t : τ) : Prop := ∃ g ∈ goals, R.Needs g t

variable {R} in
theorem Rules.Wanted.of_needs {goals : List τ} {t p : τ} (h : R.Wanted goals t)
    (hp : R.Needs t p) : R.Wanted goals p := by
  obtain ⟨g, hg, hgt⟩ := h
  exact ⟨g, hg, hgt.trans hp⟩

variable [DecidableEq τ]

instance (goals : List τ) (t : τ) : Decidable (R.Wanted goals t) :=
  inferInstanceAs (Decidable (∃ g ∈ goals, R.Needs g t))

def State.mark (s : State τ) (t : τ) (φ : Phase) : State τ :=
  { s with phase := Function.update s.phase t φ }

def init (files : Files τ) (now : ℕ) : State τ := ⟨fun _ => .waiting, files, now, false⟩

def step (goals : List τ) (s : State τ) : Event τ → Option (State τ)
  | .skip t =>
      if R.Wanted goals t ∧ s.phase t = .waiting ∧ Ready R s t ∧ ¬ Outdated R s.files t then
        some (s.mark t .updated)
      else none
  | .start t =>
      if R.Wanted goals t ∧ s.phase t = .waiting ∧ Ready R s t ∧ Outdated R s.files t ∧
          s.stopped = false then
        some (s.mark t .running)
      else none
  | .finish t status now files =>
      if s.phase t = .running ∧ s.now ≤ now ∧ (status = 0 → R.made t) then
        some ⟨Function.update s.phase t (if status = 0 then .updated else .failed), files, now,
          s.stopped || status != 0⟩
      else none

variable {R} {goals : List τ} {s s' : State τ} {t u p : τ} {e : Event τ} {es : List (Event τ)}

theorem step_skip_eq_some : step R goals s (.skip t) = some s' ↔
    (R.Wanted goals t ∧ s.phase t = .waiting ∧ Ready R s t ∧ ¬ Outdated R s.files t) ∧
      s.mark t .updated = s' := by
  simp [step]

theorem step_start_eq_some : step R goals s (.start t) = some s' ↔
    (R.Wanted goals t ∧ s.phase t = .waiting ∧ Ready R s t ∧ Outdated R s.files t ∧
      s.stopped = false) ∧ s.mark t .running = s' := by
  simp [step]

theorem step_finish_eq_some {status now : ℕ} {files : Files τ} :
    step R goals s (.finish t status now files) = some s' ↔
      (s.phase t = .running ∧ s.now ≤ now ∧ (status = 0 → R.made t)) ∧
        ⟨Function.update s.phase t (if status = 0 then .updated else .failed), files, now,
          s.stopped || status != 0⟩ = s' := by
  simp [step]

def Event.target : Event τ → τ
  | .skip t | .start t | .finish t _ _ _ => t

/-- What one event does to the phases: only that of its target changes, from
waiting or running to a later one. -/
theorem phase_of_step (h : step R goals s e = some s') :
    ∃ φ, s'.phase = Function.update s.phase e.target φ ∧
      (s.phase e.target = .waiting ∧ Ready R s e.target ∧ (φ = .updated ∨ φ = .running) ∨
        s.phase e.target = .running ∧ (φ = .updated ∨ φ = .failed)) := by
  cases e with
  | skip t =>
      obtain ⟨⟨-, hwaiting, hready, -⟩, rfl⟩ := step_skip_eq_some.mp h
      exact ⟨.updated, rfl, .inl ⟨hwaiting, hready, .inl rfl⟩⟩
  | start t =>
      obtain ⟨⟨-, hwaiting, hready, -⟩, rfl⟩ := step_start_eq_some.mp h
      exact ⟨.running, rfl, .inl ⟨hwaiting, hready, .inr rfl⟩⟩
  | finish t status now files =>
      obtain ⟨⟨hrunning, -⟩, rfl⟩ := step_finish_eq_some.mp h
      refine ⟨if status = 0 then .updated else .failed, rfl, .inr ⟨hrunning, ?_⟩⟩
      split
      · exact .inl rfl
      · exact .inr rfl

theorem phase_of_ne (h : step R goals s e = some s') (hu : u ≠ e.target) :
    s'.phase u = s.phase u := by
  obtain ⟨φ, hφ, -⟩ := phase_of_step h
  rw [hφ, Function.update_of_ne hu]

theorem skip_spec (h : step R goals s (.skip t) = some s') :
    s'.phase t = .updated ∧ s'.files = s.files ∧ s'.now = s.now := by
  obtain ⟨-, rfl⟩ := step_skip_eq_some.mp h
  exact ⟨Function.update_self _ _ _, rfl, rfl⟩

theorem start_spec (h : step R goals s (.start t) = some s') :
    s'.phase t = .running ∧ s'.files = s.files ∧ s'.now = s.now := by
  obtain ⟨-, rfl⟩ := step_start_eq_some.mp h
  exact ⟨Function.update_self _ _ _, rfl, rfl⟩

theorem finish_spec {status now : ℕ} {files : Files τ}
    (h : step R goals s (.finish t status now files) = some s') :
    s'.phase t = (if status = 0 then .updated else .failed) ∧ s'.files = files ∧ s'.now = now := by
  obtain ⟨-, rfl⟩ := step_finish_eq_some.mp h
  exact ⟨Function.update_self _ _ _, rfl, rfl⟩

theorem updated_of_step (h : step R goals s e = some s') (hp : s.phase p = .updated) :
    s'.phase p = .updated := by
  have hne : p ≠ e.target := by
    rintro rfl
    obtain ⟨φ, -, ⟨h', -⟩ | ⟨h', -⟩⟩ := phase_of_step h <;> simp [hp] at h'
  rw [phase_of_ne h hne, hp]

theorem updated_of_run (h : run (step R goals) s es = some s') (hp : s.phase p = .updated) :
    s'.phase p = .updated :=
  run_invariant (I := fun s => s.phase p = .updated) (fun _ _ _ hs h => updated_of_step h hs) hp h

theorem Ready.of_step (hready : Ready R s t) (h : step R goals s e = some s') : Ready R s' t :=
  fun p hp => updated_of_step h (hready p hp)

end Step

section Order

variable {τ : Type*} {R : Rules τ} {goals : List τ} {s : State τ} {t u p : τ} {files : Files τ}
  {now : ℕ}

/-- What is not waiting has its prerequisites updated. -/
def Ordered (R : Rules τ) (s : State τ) : Prop := ∀ t, s.phase t ≠ .waiting → Ready R s t

theorem ordered_init : Ordered R (init files now) := fun _ h => absurd rfl h

theorem Ordered.updated (hs : Ordered R s) (ht : s.phase t ≠ .waiting) (h : R.Depends t p) :
    s.phase p = .updated := by
  induction h with
  | single hp => exact hs _ ht _ hp
  | tail _ hp ih => exact hs _ (by simp [ih]) _ hp

/-- Of two recipes at the same time none waits for the other. -/
theorem Ordered.not_depends (hs : Ordered R s) (ht : s.phase t = .running)
    (hu : s.phase u = .running) : ¬ R.Depends t u := by
  intro h
  have := hs.updated (by simp [ht]) h
  simp [hu] at this

/-- Only what the goals need is considered. -/
def Within (R : Rules τ) (goals : List τ) (s : State τ) : Prop :=
  ∀ t, s.phase t ≠ .waiting → R.Wanted goals t

theorem within_init : Within R goals (init files now) := fun _ h => absurd rfl h

end Order

section Run

variable {τ : Type*} [DecidableEq τ] {R : Rules τ} {goals : List τ} {s s' : State τ} {t : τ}
  {e : Event τ} {es : List (Event τ)} {files : Files τ} {now : ℕ}

theorem Ordered.of_step (hs : Ordered R s) (h : step R goals s e = some s') : Ordered R s' := by
  intro t ht
  have hready : Ready R s t := by
    by_cases hte : t = e.target
    · subst hte
      obtain ⟨φ, -, ⟨-, hready, -⟩ | ⟨hrunning, -⟩⟩ := phase_of_step h
      · exact hready
      · exact hs _ (by simp [hrunning])
    · exact hs t (phase_of_ne h hte ▸ ht)
  exact hready.of_step h

theorem ordered_of_run (h : run (step R goals) (init files now) es = some s) : Ordered R s :=
  run_invariant (fun _ _ _ hs hstep => Ordered.of_step hs hstep) ordered_init h

theorem Within.of_step (hs : Within R goals s) (h : step R goals s e = some s') :
    R.Wanted goals e.target ∧ Within R goals s' := by
  have htarget : R.Wanted goals e.target := by
    cases e with
    | skip t => exact (step_skip_eq_some.mp h).1.1
    | start t => exact (step_start_eq_some.mp h).1.1
    | finish t status now files =>
        have hrunning := (step_finish_eq_some.mp h).1.1
        exact hs t (by simp [hrunning])
  refine ⟨htarget, fun t ht => ?_⟩
  by_cases hte : t = e.target
  · exact hte ▸ htarget
  · exact hs t (phase_of_ne h hte ▸ ht)

theorem within_of_run (h : run (step R goals) (init files now) es = some s) : Within R goals s :=
  run_invariant (fun _ _ _ hs hstep => (Within.of_step hs hstep).2) within_init h

end Run

end Make

end Library
