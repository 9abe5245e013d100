import AmigaGcc.Library.Make.Schedule

/-!
# Runs whose recipes are watched

While a recipe runs it sends events to another system, and those of the recipes
that run at the same time come in any order. `script t i` is what the recipe of
`t` does in the circumstances `i`: the status it ends with, and the events it has
sent by then.

A watched run is a run of make (`exists_run_make`), and a run of make in which no
recipe fails can be watched (`exists_watched`).
-/

namespace Library

namespace Make

open Transition

structure Watched (τ ε σ : Type*) where
  make : State τ
  /-- how each recipe will end, and what it has still to send -/
  todo : τ → ℕ × List ε
  seen : σ

inductive Act (τ ι : Type*) where
  | skip (t : τ)
  | start (t : τ) (i : ι)
  | send (t : τ)
  | finish (t : τ) (now : ℕ) (files : Files τ)

variable {τ ι ε σ : Type*} [DecidableEq τ]

def watchedInit (files : Files τ) (now : ℕ) (x : σ) : Watched τ ε σ :=
  ⟨init files now, fun _ => (0, []), x⟩

/-- One event of the recipe of `t` goes to the other system. -/
def Watched.send (obs : σ → ε → Option σ) (s : Watched τ ε σ) (t : τ) :
    Option (Watched τ ε σ) :=
  match s.todo t with
  | (_, []) => none
  | (status, e :: l) => (obs s.seen e).map fun x =>
      { s with seen := x, todo := Function.update s.todo t (status, l) }

section Watch

variable (R : Rules τ) (script : τ → ι → ℕ × List ε) (obs : σ → ε → Option σ)

def watch (goals : List τ) (s : Watched τ ε σ) : Act τ ι → Option (Watched τ ε σ)
  | .skip t => (step R goals s.make (.skip t)).map fun m => { s with make := m }
  | .start t i => (step R goals s.make (.start t)).map fun m =>
      { s with make := m, todo := Function.update s.todo t (script t i) }
  | .send t => s.send obs t
  | .finish t now files =>
      if (s.todo t).2 = [] then
        (step R goals s.make (.finish t (s.todo t).1 now files)).map fun m =>
          { s with make := m }
      else none

variable {R script obs} {goals : List τ} {s s' : Watched τ ε σ} {t : τ} {acts : List (Act τ ι)}

theorem send_eq_some : s.send obs t = some s' ↔
    ∃ e l, (s.todo t).2 = e :: l ∧ ∃ x, obs s.seen e = some x ∧
      { s with seen := x, todo := Function.update s.todo t ((s.todo t).1, l) } = s' := by
  rw [Watched.send]
  rcases s.todo t with ⟨status, _ | ⟨e, l⟩⟩ <;> simp

theorem make_of_watch {a : Act τ ι} (h : watch R script obs goals s a = some s') :
    s'.make = s.make ∨ ∃ e, step R goals s.make e = some s'.make := by
  cases a with
  | skip t =>
      obtain ⟨m, hm, rfl⟩ := Option.map_eq_some_iff.mp h
      exact .inr ⟨_, hm⟩
  | start t i =>
      obtain ⟨m, hm, rfl⟩ := Option.map_eq_some_iff.mp h
      exact .inr ⟨_, hm⟩
  | send t =>
      obtain ⟨e, l, -, x, -, rfl⟩ := send_eq_some.mp h
      exact .inl rfl
  | finish t now files =>
      rw [watch] at h
      split at h
      · obtain ⟨m, hm, rfl⟩ := Option.map_eq_some_iff.mp h
        exact .inr ⟨_, hm⟩
      · cases h

/-- What every event of make keeps, every act keeps. -/
theorem make_invariant {I : State τ → Prop}
    (hI : ∀ m e m', I m → step R goals m e = some m' → I m') {a : Act τ ι} (hs : I s.make)
    (h : watch R script obs goals s a = some s') : I s'.make := by
  rcases make_of_watch h with hmake | ⟨e, he⟩
  · exact hmake ▸ hs
  · exact hI s.make e s'.make hs he

/-! ## Watching a run of make -/

theorem exists_run_send {status : ℕ} {l l' : List ε} {x : σ} (htodo : s.todo t = (status, l ++ l'))
    (hx : run obs s.seen l = some x) :
    ∃ acts, run (watch R script obs goals) s acts =
      some { s with seen := x, todo := Function.update s.todo t (status, l') } := by
  induction l generalizing s with
  | nil =>
      refine ⟨[], congrArg some ?_⟩
      rw [← Option.some.inj hx, ← show s.todo t = (status, l') from htodo,
        Function.update_eq_self]
  | cons e l ih =>
      obtain ⟨y, hy, hx⟩ := Option.bind_eq_some_iff.mp hx
      let u : Watched τ ε σ :=
        { s with seen := y, todo := Function.update s.todo t (status, l ++ l') }
      have hsend : watch R script obs goals s (.send t) = some u :=
        send_eq_some.mpr ⟨e, l ++ l', by rw [htodo]; rfl, y, hy, by simp [u, htodo]⟩
      obtain ⟨acts, hacts⟩ := ih (s := u) (Function.update_self _ _ _) hx
      refine ⟨.send t :: acts, ?_⟩
      rw [run_cons, hsend, Option.bind_some, hacts]
      simp [u]

/-- The recipes that are running have sent nothing yet. -/
def Fresh (script : τ → ι → ℕ × List ε) (good : τ → ι) (s : Watched τ ε σ) : Prop :=
  ∀ t, s.make.phase t = .running → s.todo t = script t (good t)

/-- A run of make without a failure can be watched, if there are circumstances in
which no recipe fails. -/
theorem exists_watched {good : τ → ι} {es : List (Event τ)} {m : State τ}
    (hgood : ∀ t, R.made t = true → (script t (good t)).1 = 0)
    (hobs : ∀ t x, ∃ y, run obs x (script t (good t)).2 = some y)
    (hok : ∀ e ∈ es, e.Succeeds) (h : run (step R goals) s.make es = some m)
    (hs : Fresh script good s) :
    ∃ acts s', run (watch R script obs goals) s acts = some s' ∧ s'.make = m ∧
      Fresh script good s' := by
  induction es generalizing s with
  | nil => exact ⟨[], s, rfl, Option.some.inj h, hs⟩
  | cons e es ih =>
      obtain ⟨m', hm', h⟩ := Option.bind_eq_some_iff.mp h
      obtain ⟨he, hok⟩ := List.forall_mem_cons.mp hok
      -- it is enough to watch the event `e`
      suffices hone : ∃ acts u, run (watch R script obs goals) s acts = some u ∧ u.make = m' ∧
          Fresh script good u by
        obtain ⟨acts, u, hacts, rfl, hu⟩ := hone
        obtain ⟨acts', s', hacts', hs'⟩ := ih hok h hu
        exact ⟨acts ++ acts', s', by rw [run_append, hacts, Option.bind_some, hacts'], hs'⟩
      cases e with
      | skip t =>
          have hskip : watch R script obs goals s (.skip t) = some { s with make := m' } :=
            Option.map_eq_some_iff.mpr ⟨m', hm', rfl⟩
          refine ⟨[.skip t], { s with make := m' }, by rw [run_cons, hskip]; rfl, rfl,
            fun u hu => ?_⟩
          have hut : u ≠ t := by
            rintro rfl
            have hu : m'.phase u = .running := hu
            simp [(skip_spec hm').1] at hu
          exact hs u ((phase_of_ne hm' hut).symm.trans hu)
      | start t =>
          let v : Watched τ ε σ :=
            { s with make := m', todo := Function.update s.todo t (script t (good t)) }
          have hstart : watch R script obs goals s (.start t (good t)) = some v :=
            Option.map_eq_some_iff.mpr ⟨m', hm', rfl⟩
          refine ⟨[.start t (good t)], v, by rw [run_cons, hstart]; rfl, rfl, fun u hu => ?_⟩
          by_cases hut : u = t
          · subst hut
            exact Function.update_self _ _ _
          · exact (Function.update_of_ne hut _ _).trans
              (hs u ((phase_of_ne hm' hut).symm.trans hu))
      | finish t status now files =>
          obtain rfl : status = 0 := he
          obtain ⟨hrunning, -, hmade⟩ := (step_finish_eq_some.mp hm').1
          obtain ⟨y, hy⟩ := hobs t s.seen
          have htodo : s.todo t = (0, (script t (good t)).2 ++ []) := by
            rw [hs t hrunning, List.append_nil, ← hgood t (hmade rfl)]
          obtain ⟨acts, hacts⟩ : ∃ acts, run (watch R script obs goals) s acts = some _ :=
            exists_run_send htodo hy
          let v : Watched τ ε σ := ⟨m', Function.update s.todo t (0, []), y⟩
          have hfinish : watch R script obs goals
              { s with seen := y, todo := Function.update s.todo t (0, []) }
              (.finish t now files) = some v := by
            simpa [watch, v] using hm'
          refine ⟨acts ++ [.finish t now files], v, ?_, rfl, fun u hu => ?_⟩
          · rw [run_append, hacts, Option.bind_some, run_cons, hfinish]
            rfl
          · have hut : u ≠ t := by
              rintro rfl
              have hu : m'.phase u = .running := hu
              simp [(finish_spec hm').1] at hu
            exact (Function.update_of_ne hut _ _).trans
              (hs u ((phase_of_ne hm' hut).symm.trans hu))

end Watch

end Make

end Library
