import AmigaGcc.Library.Shell.Footprint

/-!
# Runs that are killed

`killedAfter m n p x` is the store after the script `p` has been run on `x` and
has been killed after `n` of its commands; a run with fewer commands is a
complete one. `killedAfter_of_along` is the rule for what holds wherever a script
is killed: it is enough that every command along the complete run leaves it.
-/

namespace Library

namespace Shell

open Prog

variable {α τ σ : Type*}

/-- The machine of a shell that is killed; the store comes with the number of
commands that are still carried out. -/
def Machine.upTo (m : Machine α τ σ) : Machine α τ (σ × ℕ) where
  exec c x :=
    match x.2 with
    | 0 => (1, x)
    | n + 1 => ((m.exec c x.1).1, (m.exec c x.1).2, n)
  test t x := m.test t x.1

/-- The store that a run leaves when it is killed after `n` commands. -/
def killedAfter (m : Machine α τ σ) (n : ℕ) (p : Prog α τ) (x : σ) : σ :=
  (start m.upTo p (x, n)).store.1

theorem eval_upTo_dead (m : Machine α τ σ) (p : Prog α τ) {t : State (σ × ℕ)}
    (ht : t.store.2 = 0) : (eval m.upTo p t).store = t.store := by
  refine eval_invariant m.upTo (K := fun _ => True) (I := fun x => x = t.store) ?_
    (all_of_forall (fun _ => trivial) p) rfl
  rintro c x - rfl
  simp only [Machine.upTo, ht]

/-- The shell that is to be killed has done the same so far. -/
abbrev Abreast (t : State (σ × ℕ)) (s : State σ) : Prop :=
  InStep (fun x y => x.1 = y) t s

/-- The state `t` of a shell that is to be killed, where the complete run is in the
state `s`: it meets `I`, and it is abreast of `s` unless it has been killed. -/
structure Cut (I : σ → Prop) (t : State (σ × ℕ)) (s : State σ) : Prop where
  meets : I t.store.1
  alive : t.store.2 ≠ 0 → Abreast t s

/-- After a part in which the shell may have been killed, the next part is run or
not. -/
theorem Cut.next {m : Machine α τ σ} {I : σ → Prop} {q : Prog α τ} {t : State (σ × ℕ)}
    {s : State σ} (h : Cut I t s) {stop stop' : Prop} [Decidable stop] [Decidable stop']
    (hstop : Abreast t s → (stop ↔ stop'))
    (hnext : Abreast t s → ¬ stop' → Cut I (eval m.upTo q t) (eval m q s)) :
    Cut I (if stop then t else eval m.upTo q t) (if stop' then s else eval m q s) := by
  by_cases hdead : t.store.2 = 0
  · have hstore : (if stop then t else eval m.upTo q t).store = t.store := by
      split
      · rfl
      · exact eval_upTo_dead m q hdead
    exact ⟨hstore ▸ h.meets, fun halive => absurd (hstore ▸ hdead) halive⟩
  · have habreast := h.alive hdead
    by_cases hs : stop'
    · rw [if_pos hs, if_pos ((hstop habreast).mpr hs)]
      exact h
    · rw [if_neg hs, if_neg fun h' => hs ((hstop habreast).mp h')]
      exact hnext habreast hs

/-- What holds at first and after every command of the complete run holds where the
run is killed. -/
theorem eval_upTo (m : Machine α τ σ) {I : σ → Prop} {p : Prog α τ} {s : State σ}
    {t : State (σ × ℕ)} (h : Along m (fun c x => I (m.exec c x).2) p s)
    (hst : Abreast t s) (hs : I s.store) :
    Cut I (eval m.upTo p t) (eval m p s) := by
  have hstart : I t.store.1 := hst.store ▸ hs
  induction p generalizing s t with
  | skip => exact ⟨hstart, fun _ => ⟨hst.store, rfl, hst.saved, hst.exited⟩⟩
  | cmd c =>
      obtain ⟨⟨x, n⟩, status, saved, exited⟩ := t
      obtain rfl : x = s.store := hst.store
      cases n with
      | zero => exact ⟨hstart, fun halive => absurd rfl halive⟩
      | succ n => exact ⟨h, fun _ => ⟨rfl, rfl, hst.saved, hst.exited⟩⟩
  | seq p q ihp ihq =>
      have hp := ihp h.1 hst hs hstart
      rw [eval, eval]
      apply hp.next
      · intro hpq
        rw [hpq.exited]
      · intro hpq hgo
        have hI : I (eval m p s).store := hpq.store ▸ hp.meets
        exact ihq (h.2 (by simpa using hgo)) hpq hI hp.meets
  | and p q ihp ihq | or p q ihp ihq =>
      have hp := ihp h.1 hst hs hstart
      rw [eval, eval]
      apply hp.next
      · intro hpq
        rw [hpq.exited, hpq.status]
      · intro hpq hgo
        have hI : I (eval m p s).store := hpq.store ▸ hp.meets
        obtain ⟨hexited, hstatus⟩ := not_or.mp hgo
        exact ihq (h.2 (by simpa using hexited) (by simpa using hstatus)) hpq hI hp.meets
  | cond b p q ihp ihq =>
      have htest : m.upTo.test b t.store = m.test b s.store := congrArg (m.test b) hst.store
      rw [Along] at h
      rw [eval, eval, htest]
      split
      · next hb =>
          rw [if_pos hb] at h
          exact ihp h hst hs hstart
      · next hb =>
          rw [if_neg hb] at h
          exact ihq h hst hs hstart
  | sub p ih =>
      have hp := ih h hst hs hstart
      exact ⟨hp.meets, fun halive =>
        ⟨(hp.alive halive).store, (hp.alive halive).status, hst.saved, hst.exited⟩⟩
  | exit n => exact ⟨hstart, fun _ => ⟨hst.store, rfl, hst.saved, rfl⟩⟩
  | save => exact ⟨hstart, fun _ => ⟨hst.store, rfl, hst.status, hst.exited⟩⟩
  | exitSaved =>
      rw [eval, eval, hst.saved]
      split
      · exact ⟨hstart, fun _ => ⟨hst.store, rfl, rfl, rfl⟩⟩
      · exact ⟨hstart, fun _ => ⟨hst.store, rfl, rfl, hst.exited⟩⟩

/-- The rule for runs that may be killed anywhere. -/
theorem killedAfter_of_along (m : Machine α τ σ) {I : σ → Prop} {p : Prog α τ} {x : σ}
    (h : Along m (fun c x => I (m.exec c x).2) p { store := x }) (hx : I x) (n : ℕ) :
    I (killedAfter m n p x) :=
  (eval_upTo (s := { store := x }) (t := { store := (x, n) }) m h ⟨rfl, rfl, rfl, rfl⟩ hx).meets

/-! ## Complete runs -/

def Prog.size : Prog α τ → ℕ
  | cmd _ => 1
  | seq p q | and p q | or p q | cond _ p q => size p + size q
  | sub p => size p
  | skip | exit _ | save | exitSaved => 0

theorem le_eval_upTo_add_size (m : Machine α τ σ) (p : Prog α τ) (t : State (σ × ℕ)) :
    t.store.2 ≤ (eval m.upTo p t).store.2 + p.size := by
  induction p generalizing t with
  | skip | exit | save => exact Nat.le_refl _
  | cmd c =>
      obtain ⟨⟨x, n⟩, status, saved, exited⟩ := t
      cases n with
      | zero => exact Nat.zero_le _
      | succ n => exact Nat.le_refl _
  | seq p q ihp ihq | and p q ihp ihq | or p q ihp ihq =>
      have hp := ihp t
      have hq := ihq (eval m.upTo p t)
      rw [eval, Prog.size]
      split <;> omega
  | cond b p q ihp ihq =>
      have hp := ihp t
      have hq := ihq t
      rw [eval, Prog.size]
      split <;> omega
  | sub p ih => exact ih t
  | exitSaved =>
      rw [eval]
      split <;> exact Nat.le_refl _

/-- A shell that may still carry out more commands than the script has is abreast of
the complete run in the end. -/
theorem abreast_eval_upTo (m : Machine α τ σ) {p : Prog α τ} (s : State σ) {n : ℕ}
    (h : p.size < n) :
    Abreast (eval m.upTo p { s with store := (s.store, n) }) (eval m p s) := by
  have hcut := eval_upTo (I := fun _ => True) (t := { s with store := (s.store, n) }) m
    (along_of_all (fun _ _ _ => trivial) (all_of_forall (fun _ => trivial) p) s)
    ⟨rfl, rfl, rfl, rfl⟩ trivial
  have hsize : n ≤ (eval m.upTo p { s with store := (s.store, n) }).store.2 + p.size :=
    le_eval_upTo_add_size m p { s with store := (s.store, n) }
  exact hcut.alive (by omega)

/-- A run with fewer commands than it is killed after is a complete one. -/
theorem killedAfter_eq_start (m : Machine α τ σ) {p : Prog α τ} (x : σ) {n : ℕ}
    (h : p.size < n) : killedAfter m n p x = (start m p x).store :=
  (abreast_eval_upTo m { store := x } h).store

end Shell

end Library
