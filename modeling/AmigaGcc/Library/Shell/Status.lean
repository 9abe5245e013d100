import Mathlib.Data.List.Basic
import AmigaGcc.Library.Shell.Basic

/-!
# Which statuses a script heeds

An `oracle` gives each command its exit status beforehand and records what is
run. For the scripts that use `||` only to give up, as in `cmd || exit 1`, the
commands split by what their status does: a failing command of `guards` leaves
the shell, the script ends with status 0 exactly when all of `decisive` succeed,
and the status of the other `commands` is ignored.

`Guarded` is that class of scripts. The three rules are `eval_exited_iff`,
`eval_status_iff` and `eval_flawless_iff`.
-/

namespace Library

namespace Shell

variable {α β τ υ ι : Type*}

/-- A machine whose commands end with the statuses of `ω`, whose tests are
answered by `b`, and which records the commands with their statuses. -/
def oracle (ω : α → ℕ) (b : τ → Bool) : Machine α τ (List (α × ℕ)) where
  exec c ran := (ω c, ran ++ [(c, ω c)])
  test t _ := b t

def Flawless (K : α → Prop) (ran : List (α × ℕ)) : Prop :=
  ∀ e ∈ ran, K e.1 → e.2 = 0

def Succeed (ω : α → ℕ) (l : List α) : Prop := ∀ c ∈ l, ω c = 0

instance (ω : α → ℕ) (l : List α) : Decidable (Succeed ω l) :=
  inferInstanceAs (Decidable (∀ c ∈ l, ω c = 0))

@[simp] theorem succeed_nil (ω : α → ℕ) : Succeed ω [] := by simp [Succeed]

@[simp] theorem succeed_cons (ω : α → ℕ) (c : α) (l : List α) :
    Succeed ω (c :: l) ↔ ω c = 0 ∧ Succeed ω l := by simp [Succeed]

@[simp] theorem succeed_append (ω : α → ℕ) (k l : List α) :
    Succeed ω (k ++ l) ↔ Succeed ω k ∧ Succeed ω l := List.forall_mem_append

@[simp] theorem succeed_map (ω : β → ℕ) (f : α → β) (l : List α) :
    Succeed ω (l.map f) ↔ Succeed (ω ∘ f) l := List.forall_mem_map

theorem Succeed.subset {ω : α → ℕ} {k l : List α} (h : Succeed ω l) (hkl : k ⊆ l) :
    Succeed ω k := fun c hc => h c (hkl hc)

namespace Prog

/-- A script that ends with a status other than 0. -/
def Doomed : Prog α τ → Prop
  | exit n => 0 < n
  | seq p q => Straight p ∧ Doomed q
  | sub p => Doomed p
  | _ => False

/-- The script ends with `exit`, outside a subshell. -/
def leaves : Prog α τ → Bool
  | exit _ => true
  | seq _ q => leaves q
  | _ => false

/-- The commands on the way the tests choose, without those after `||`. -/
def commands (b : τ → Bool) : Prog α τ → List α
  | cmd c => [c]
  | seq p q | and p q => commands b p ++ commands b q
  | or p _ => commands b p
  | cond t p q => if b t then commands b p else commands b q
  | sub p => commands b p
  | skip | exit _ | save | exitSaved => []

mutual

/-- The commands that must succeed for the script to end with status 0. -/
def decisive (b : τ → Bool) : Prog α τ → List α
  | cmd c => [c]
  | seq p q => guards b p ++ decisive b q
  | and p q => decisive b p ++ decisive b q
  | or p _ => decisive b p
  | cond t p q => if b t then decisive b p else decisive b q
  | sub p => decisive b p
  | skip | exit _ | save | exitSaved => []

/-- The commands that leave the shell when they fail. -/
def guards (b : τ → Bool) : Prog α τ → List α
  | seq p q => guards b p ++ guards b q
  | and p _ => guards b p
  | or p q => if leaves q then decisive b p else guards b p
  | cond t p q => if b t then guards b p else guards b q
  | skip | cmd _ | sub _ | exit _ | save | exitSaved => []

end

/-- Nothing leaves the script early or skips a command. -/
def Steady : Prog α τ → Prop
  | and _ _ => False
  | seq p q => Straight p ∧ Steady p ∧ Steady q
  | or p _ => Steady p
  | cond _ p q => Steady p ∧ Steady q
  | sub p => Steady p
  | skip | cmd _ | exit _ | save | exitSaved => True

/-- A script skips commands only when it is left early. -/
def Thorough : Prog α τ → Prop
  | and _ _ => False
  | seq p q | cond _ p q => Thorough p ∧ Thorough q
  | or p _ => Thorough p
  | sub p => Steady p
  | skip | cmd _ | exit _ | save | exitSaved => True

/-- `||` is used only to give up, `&&` does not guard an `exit`, and the commands
in front of both count. -/
def Guarded (K : α → Prop) : Prog α τ → Prop
  | skip | cmd _ => True
  | seq p q | cond _ p q => Guarded K p ∧ Guarded K q
  | and p q => Guarded K p ∧ Guarded K q ∧ Straight q ∧ All K p
  | or p q => Guarded K p ∧ Doomed q ∧ All K p
  | sub p => Guarded K p
  | exit _ | save | exitSaved => False

theorem guards_subset_decisive (b : τ → Bool) (p : Prog α τ) :
    guards b p ⊆ decisive b p := by
  induction p with
  | skip | cmd | exit | save | exitSaved | sub =>
      rw [guards]
      exact List.nil_subset _
  | seq p q _ ihq =>
      rw [guards, decisive]
      exact List.append_subset.mpr ⟨List.subset_append_left _ _,
        List.subset_append_of_subset_right _ ihq⟩
  | and p q ihp _ =>
      rw [guards, decisive]
      exact List.subset_append_of_subset_left _ ihp
  | or p q ihp _ =>
      rw [guards, decisive]
      split
      · exact List.Subset.refl _
      · exact ihp
  | cond t p q ihp ihq =>
      rw [guards, decisive]
      split
      · exact ihp
      · exact ihq

theorem decisive_subset_commands (b : τ → Bool) (p : Prog α τ) :
    decisive b p ⊆ commands b p := by
  induction p with
  | skip | cmd | exit | save | exitSaved =>
      rw [decisive, commands]
      exact List.Subset.refl _
  | seq p q ihp ihq =>
      rw [decisive, commands]
      exact List.append_subset.mpr
        ⟨List.subset_append_of_subset_left _ (List.Subset.trans (guards_subset_decisive b p) ihp),
          List.subset_append_of_subset_right _ ihq⟩
  | and p q ihp ihq =>
      rw [decisive, commands]
      exact List.append_subset.mpr ⟨List.subset_append_of_subset_left _ ihp,
        List.subset_append_of_subset_right _ ihq⟩
  | or p q ihp _ =>
      rw [decisive, commands]
      exact ihp
  | cond t p q ihp ihq =>
      rw [decisive, commands]
      split
      · exact ihp
      · exact ihq
  | sub p ih =>
      rw [decisive, commands]
      exact ih

theorem commands_chain_cons (b : τ → Bool) (p : Prog α τ) (l : List (Prog α τ)) :
    commands b (chain (p :: l)) = commands b p ++ commands b (chain l) := by
  cases l with
  | nil => exact (List.append_nil _).symm
  | cons q l => rfl

theorem All.of_mem_commands {K : α → Prop} {b : τ → Bool} {p : Prog α τ} (h : All K p)
    {c : α} (hc : c ∈ commands b p) : K c := by
  induction p with
  | skip | exit | save | exitSaved => cases hc
  | cmd d => exact List.mem_singleton.mp hc ▸ h
  | seq p q ihp ihq | and p q ihp ihq =>
      rcases List.mem_append.mp hc with hc | hc
      · exact ihp h.1 hc
      · exact ihq h.2 hc
  | or p q ihp _ => exact ihp h.1 hc
  | cond t p q ihp ihq =>
      simp only [commands] at hc
      split at hc
      · exact ihp h.1 hc
      · exact ihq h.2 hc
  | sub p ih => exact ih h hc

end Prog

open Prog

/-! ## The rules -/

section Rules

variable {K : α → Prop} {ω : α → ℕ} {b : τ → Bool}

theorem eval_doomed {σ : Type*} (m : Machine α τ σ) {p : Prog α τ} (hp : Doomed p)
    {s : State σ} (hs : s.exited = false) :
    (eval m p s).status ≠ 0 ∧ (eval m p s).exited = leaves p ∧
      (eval m p s).saved = s.saved := by
  induction p generalizing s with
  | skip | cmd | and | or | cond | save | exitSaved => exact hp.elim
  | exit n => exact ⟨Nat.ne_of_gt hp, rfl, rfl⟩
  | seq p q _ ihq =>
      obtain ⟨hexited, hsaved⟩ := eval_straight m hp.1 s
      rw [eval_seq m hp.1 q hs, ← hsaved]
      exact ihq hp.2 (hexited.trans hs)
  | sub p ih => exact ⟨(ih hp hs).1, hs, rfl⟩

theorem eval_saved {σ : Type*} (m : Machine α τ σ) {p : Prog α τ} (hp : Guarded K p)
    {s : State σ} (hs : s.exited = false) : (eval m p s).saved = s.saved := by
  induction p generalizing s with
  | skip | cmd | sub => rfl
  | exit | save | exitSaved => exact hp.elim
  | seq p q ihp ihq =>
      rw [eval]
      split
      · exact ihp hp.1 hs
      · next hx => exact (ihq hp.2 (Bool.eq_false_iff.mpr hx)).trans (ihp hp.1 hs)
  | and p q ihp ihq =>
      rw [eval]
      split
      · exact ihp hp.1 hs
      · exact (eval_straight m hp.2.2.1 _).2.trans (ihp hp.1 hs)
  | or p q ihp _ =>
      rw [eval]
      split
      · exact ihp hp.1 hs
      · next hx =>
          have hexited : (eval m p s).exited = false :=
            Bool.eq_false_iff.mpr fun h => hx (Or.inl h)
          exact (eval_doomed m hp.2.1 hexited).2.2.trans (ihp hp.1 hs)
  | cond t p q ihp ihq =>
      rw [eval]
      split
      · exact ihp hp.1 hs
      · exact ihq hp.2 hs

theorem Flawless.of_eval {p : Prog α τ} {s : State (List (α × ℕ))}
    (h : Flawless K (eval (oracle ω b) p s).store) : Flawless K s.store := by
  by_contra hno
  refine eval_invariant (oracle ω b) (K := fun _ => True) (I := fun ran => ¬ Flawless K ran)
    ?_ (all_of_forall (fun _ => trivial) p) hno h
  exact fun c ran _ hran hnew => hran fun e he => hnew e (List.mem_append_left _ he)

/-- The statuses of the commands decide how a guarded script ends. -/
theorem eval_exited_status_iff {p : Prog α τ} (hp : Guarded K p) {s : State (List (α × ℕ))}
    (hs : s.exited = false) :
    ((eval (oracle ω b) p s).exited = true ↔ ¬ Succeed ω (guards b p)) ∧
      ((eval (oracle ω b) p s).status = 0 ↔ Succeed ω (decisive b p)) := by
  induction p generalizing s with
  | skip => simp [eval, hs, guards, decisive]
  | cmd c => simp [eval, hs, guards, decisive, oracle]
  | exit | save | exitSaved => exact hp.elim
  | seq p q ihp ihq =>
      obtain ⟨hpe, hps⟩ := ihp hp.1 hs
      rw [guards, decisive, succeed_append, succeed_append, eval]
      by_cases hx : (eval (oracle ω b) p s).exited = true
      · -- a guard of `p` has failed, and `q` is not run
        have hguards : ¬ Succeed ω (guards b p) := hpe.mp hx
        have hstatus : (eval (oracle ω b) p s).status ≠ 0 := fun h0 =>
          hguards ((hps.mp h0).subset (guards_subset_decisive b p))
        simp [hx, hguards, hstatus]
      · have hguards : Succeed ω (guards b p) := not_not.mp fun hno => hx (hpe.mpr hno)
        rw [if_neg hx]
        simpa [hguards] using ihq hp.2 (Bool.eq_false_iff.mpr hx)
  | and p q ihp ihq =>
      obtain ⟨hpe, hps⟩ := ihp hp.1 hs
      rw [guards, decisive, succeed_append, eval]
      by_cases h0 : (eval (oracle ω b) p s).status = 0
      · have hguards : Succeed ω (guards b p) :=
          (hps.mp h0).subset (guards_subset_decisive b p)
        have hx : (eval (oracle ω b) p s).exited = false :=
          Bool.eq_false_iff.mpr fun hx => hpe.mp hx hguards
        have hq := (eval_straight (oracle ω b) hp.2.2.1 (eval (oracle ω b) p s)).1
        rw [if_neg (by simp [hx, h0]), hq, (ihq hp.2.1 hx).2]
        simp [hx, hguards, hps.mp h0]
      · rw [if_pos (Or.inr h0)]
        have hdecisive : ¬ Succeed ω (decisive b p) := fun h => h0 (hps.mpr h)
        simp [hpe, h0, hdecisive]
  | or p q ihp _ =>
      obtain ⟨hpe, hps⟩ := ihp hp.1 hs
      rw [guards, decisive, eval]
      by_cases h0 : (eval (oracle ω b) p s).status = 0
      · have hdecisive : Succeed ω (decisive b p) := hps.mp h0
        have hguards := hdecisive.subset (guards_subset_decisive b p)
        rw [if_pos (Or.inr h0), hpe, hps]
        split <;> simp [hguards, hdecisive]
      · have hdecisive : ¬ Succeed ω (decisive b p) := fun h => h0 (hps.mpr h)
        by_cases hx : (eval (oracle ω b) p s).exited = true
        · have hguards : ¬ Succeed ω (guards b p) := hpe.mp hx
          rw [if_pos (Or.inl hx)]
          split <;> simp [hx, h0, hdecisive, hguards]
        · have hguards : Succeed ω (guards b p) := not_not.mp fun hno => hx (hpe.mpr hno)
          obtain ⟨hstatus, hleaves, -⟩ :=
            eval_doomed (oracle ω b) hp.2.1 (Bool.eq_false_iff.mpr hx)
          rw [if_neg (by simp [hx, h0]), hleaves]
          cases leaves q <;> simp [hstatus, hdecisive, hguards]
  | cond t p q ihp ihq =>
      rw [guards, decisive, eval]
      cases h : b t with
      | true => simpa [oracle, h] using ihp hp.1 hs
      | false => simpa [oracle, h] using ihq hp.2 hs
  | sub p ih =>
      rw [guards, decisive, eval]
      exact ⟨by simp [hs], (ih hp hs).2⟩

theorem eval_exited_iff {p : Prog α τ} (hp : Guarded K p) {s : State (List (α × ℕ))}
    (hs : s.exited = false) :
    (eval (oracle ω b) p s).exited = true ↔ ¬ Succeed ω (guards b p) :=
  (eval_exited_status_iff hp hs).1

theorem eval_status_iff {p : Prog α τ} (hp : Guarded K p) {s : State (List (α × ℕ))}
    (hs : s.exited = false) :
    (eval (oracle ω b) p s).status = 0 ↔ Succeed ω (decisive b p) :=
  (eval_exited_status_iff hp hs).2

theorem of_mem_guards {p : Prog α τ} (hp : Guarded K p) {c : α} (hc : c ∈ guards b p) :
    K c := by
  induction p with
  | skip | cmd | exit | save | exitSaved | sub =>
      rw [guards] at hc
      cases hc
  | seq p q ihp ihq =>
      rw [guards, List.mem_append] at hc
      rcases hc with hc | hc
      · exact ihp hp.1 hc
      · exact ihq hp.2 hc
  | and p q ihp _ =>
      rw [guards] at hc
      exact ihp hp.1 hc
  | or p q ihp _ =>
      rw [guards] at hc
      split at hc
      · exact hp.2.2.of_mem_commands (decisive_subset_commands b p hc)
      · exact ihp hp.1 hc
  | cond t p q ihp ihq =>
      rw [guards] at hc
      split at hc
      · exact ihp hp.1 hc
      · exact ihq hp.2 hc

theorem not_forall_commands {p : Prog α τ} {l : List α} (hl : l ⊆ commands b p)
    (hK : ∀ c ∈ l, K c) (h : ¬ Succeed ω l) : ¬ ∀ c ∈ commands b p, K c → ω c = 0 :=
  fun hall => h fun c hc => hall c (hl hc) (hK c hc)

/-- No counting command of a guarded script has failed exactly when none of its
commands that count fails. -/
theorem eval_flawless_iff {p : Prog α τ} (hp : Guarded K p) {s : State (List (α × ℕ))}
    (hs : s.exited = false) :
    Flawless K (eval (oracle ω b) p s).store ↔
      Flawless K s.store ∧ ∀ c ∈ commands b p, K c → ω c = 0 := by
  induction p generalizing s with
  | skip => simp [eval, commands]
  | cmd c => simp [eval, commands, oracle, Flawless, or_imp, forall_and]
  | exit | save | exitSaved => exact hp.elim
  | seq p q ihp ihq =>
      rw [eval, commands, List.forall_mem_append, ← and_assoc, ← ihp hp.1 hs]
      by_cases hx : (eval (oracle ω b) p s).exited = true
      · have hfail := not_forall_commands
          (List.Subset.trans (guards_subset_decisive b p) (decisive_subset_commands b p))
          (fun c hc => of_mem_guards hp.1 hc) ((eval_exited_iff hp.1 hs).mp hx)
        have hno : ¬ Flawless K (eval (oracle ω b) p s).store := fun h =>
          hfail ((ihp hp.1 hs).mp h).2
        simp [hx, hno]
      · rw [if_neg hx]
        exact ihq hp.2 (Bool.eq_false_iff.mpr hx)
  | and p q ihp ihq =>
      rw [eval, commands, List.forall_mem_append, ← and_assoc, ← ihp hp.1 hs]
      by_cases h0 : (eval (oracle ω b) p s).status = 0
      · have hguards : Succeed ω (guards b p) :=
          ((eval_status_iff hp.1 hs).mp h0).subset (guards_subset_decisive b p)
        have hx : (eval (oracle ω b) p s).exited = false :=
          Bool.eq_false_iff.mpr fun hx => (eval_exited_iff hp.1 hs).mp hx hguards
        rw [if_neg (by simp [hx, h0])]
        exact ihq hp.2.1 hx
      · have hfail := not_forall_commands (decisive_subset_commands b p)
          (fun c hc => hp.2.2.2.of_mem_commands (decisive_subset_commands b p hc))
          (fun h => h0 ((eval_status_iff hp.1 hs).mpr h))
        have hno : ¬ Flawless K (eval (oracle ω b) p s).store := fun h =>
          hfail ((ihp hp.1 hs).mp h).2
        rw [if_pos (Or.inr h0)]
        simp [hno]
  | or p q ihp _ =>
      rw [eval, commands, ← ihp hp.1 hs]
      split
      · exact Iff.rfl
      · next h =>
          -- `p` has failed, and what `q` adds does not undo it
          have h0 : (eval (oracle ω b) p s).status ≠ 0 := fun h0 => h (Or.inr h0)
          have hfail := not_forall_commands (decisive_subset_commands b p)
            (fun c hc => hp.2.2.of_mem_commands (decisive_subset_commands b p hc))
            (fun hsucceed => h0 ((eval_status_iff hp.1 hs).mpr hsucceed))
          have hno : ¬ Flawless K (eval (oracle ω b) p s).store := fun hflawless =>
            hfail ((ihp hp.1 hs).mp hflawless).2
          exact ⟨fun hflawless => absurd hflawless.of_eval hno,
            fun hflawless => absurd hflawless hno⟩
  | cond t p q ihp ihq =>
      rw [commands, eval]
      cases h : b t with
      | true => simpa [oracle, h] using ihp hp.1 hs
      | false => simpa [oracle, h] using ihq hp.2 hs
  | sub p ih => exact ih hp hs

theorem mem_eval_store {e : α × ℕ} {s : State (List (α × ℕ))} (he : e ∈ s.store)
    (p : Prog α τ) : e ∈ (eval (oracle ω b) p s).store :=
  eval_invariant (oracle ω b) (K := fun _ => True) (I := fun ran => e ∈ ran)
    (fun _ _ _ hran => List.mem_append_left _ hran) (all_of_forall (fun _ => trivial) p) he

theorem status_of_mem_eval {p : Prog α τ} {s : State (List (α × ℕ))}
    (hs : ∀ e ∈ s.store, e.2 = ω e.1) : ∀ e ∈ (eval (oracle ω b) p s).store, e.2 = ω e.1 := by
  refine eval_invariant (oracle ω b) (K := fun _ => True)
    (I := fun ran => ∀ e ∈ ran, e.2 = ω e.1) ?_ (all_of_forall (fun _ => trivial) p) hs
  intro c ran _ hran e he
  rcases List.mem_append.mp he with he | he
  · exact hran e he
  · rw [List.mem_singleton.mp he]

theorem mem_eval_of_steady {p : Prog α τ} (hp : Steady p) {s : State (List (α × ℕ))}
    (hs : s.exited = false) {c : α} (hc : c ∈ commands b p) :
    (c, ω c) ∈ (eval (oracle ω b) p s).store := by
  induction p generalizing s with
  | skip | exit | save | exitSaved => cases hc
  | and => exact hp.elim
  | cmd d =>
      rw [List.mem_singleton.mp hc]
      exact List.mem_append_right _ List.mem_cons_self
  | seq p q ihp ihq =>
      have hx := (eval_straight (oracle ω b) hp.1 s).1.trans hs
      rw [eval_seq (oracle ω b) hp.1 q hs]
      rcases List.mem_append.mp hc with hc | hc
      · exact mem_eval_store (ihp hp.2.1 hs hc) q
      · exact ihq hp.2.2 hx hc
  | or p q ihp _ =>
      have hmem := ihp hp hs hc
      rw [eval]
      split
      · exact hmem
      · exact mem_eval_store hmem q
  | cond t p q ihp ihq =>
      rw [commands] at hc
      rw [eval]
      cases h : b t with
      | true =>
          rw [h] at hc
          simpa [oracle, h] using ihp hp.1 hs hc
      | false =>
          rw [h] at hc
          simpa [oracle, h] using ihq hp.2 hs hc
  | sub p ih => exact ih hp hs hc

/-- A thorough script that is not left early runs all of its commands. -/
theorem mem_eval_of_thorough {p : Prog α τ} (hp : Guarded K p) (hthorough : Thorough p)
    {s : State (List (α × ℕ))} (hs : s.exited = false) (hguards : Succeed ω (guards b p))
    {c : α} (hc : c ∈ commands b p) : (c, ω c) ∈ (eval (oracle ω b) p s).store := by
  induction p generalizing s with
  | skip | exit | save | exitSaved => cases hc
  | and => exact hthorough.elim
  | cmd d => exact mem_eval_of_steady (p := .cmd d) trivial hs hc
  | seq p q ihp ihq =>
      rw [guards, succeed_append] at hguards
      have hx : ¬ (eval (oracle ω b) p s).exited = true := fun h =>
        (eval_exited_iff hp.1 hs).mp h hguards.1
      rw [eval, if_neg hx]
      rcases List.mem_append.mp hc with hc | hc
      · exact mem_eval_store (ihp hp.1 hthorough.1 hs hguards.1 hc) q
      · exact ihq hp.2 hthorough.2 (Bool.eq_false_iff.mpr hx) hguards.2 hc
  | or p q ihp _ =>
      have hguardsp : Succeed ω (guards b p) := by
        rw [guards] at hguards
        split at hguards
        · exact hguards.subset (guards_subset_decisive b p)
        · exact hguards
      have hmem := ihp hp.1 hthorough hs hguardsp hc
      rw [eval]
      split
      · exact hmem
      · exact mem_eval_store hmem q
  | cond t p q ihp ihq =>
      rw [guards] at hguards
      rw [commands] at hc
      rw [eval]
      cases h : b t with
      | true =>
          rw [h] at hguards hc
          simpa [oracle, h] using ihp hp.1 hthorough.1 hs hguards hc
      | false =>
          rw [h] at hguards hc
          simpa [oracle, h] using ihq hp.2 hthorough.2 hs hguards hc
  | sub p => exact mem_eval_of_steady (p := .sub p) hthorough hs hc

end Rules

section Guarded

variable {K : α → Prop}

@[simp] theorem guarded_skip : Guarded K (skip : Prog α τ) := trivial

@[simp] theorem guarded_cmd (c : α) : Guarded K (cmd c : Prog α τ) := trivial

@[simp] theorem guarded_seq_iff (p q : Prog α τ) :
    Guarded K (seq p q) ↔ Guarded K p ∧ Guarded K q := Iff.rfl

@[simp] theorem guarded_and_iff (p q : Prog α τ) :
    Guarded K (and p q) ↔ Guarded K p ∧ Guarded K q ∧ Straight q ∧ All K p := Iff.rfl

@[simp] theorem guarded_or_iff (p q : Prog α τ) :
    Guarded K (or p q) ↔ Guarded K p ∧ Doomed q ∧ All K p := Iff.rfl

@[simp] theorem guarded_cond_iff (t : τ) (p q : Prog α τ) :
    Guarded K (cond t p q) ↔ Guarded K p ∧ Guarded K q := Iff.rfl

@[simp] theorem guarded_sub_iff (p : Prog α τ) : Guarded K (sub p) ↔ Guarded K p := Iff.rfl

@[simp] theorem guarded_pipe_iff (p q : Prog α τ) :
    Guarded K (pipe p q) ↔ Guarded K p ∧ Guarded K q := Iff.rfl

theorem guarded_chain {l : List (Prog α τ)} (h : ∀ p ∈ l, Guarded K p) :
    Guarded K (chain l) := by
  induction l with
  | nil => trivial
  | cons p l ih =>
      obtain ⟨hp, hl⟩ := List.forall_mem_cons.mp h
      cases l with
      | nil => exact hp
      | cons q l => exact ⟨hp, ih hl⟩

@[simp] theorem guarded_forEach {l : List ι} {body : ι → Prog α τ}
    (h : ∀ x, Guarded K (body x)) : Guarded K (forEach l body) := by
  apply guarded_chain
  intro p hp
  obtain ⟨x, -, rfl⟩ := List.mem_map.mp hp
  exact h x

theorem guards_chain {b : τ → Bool} {l : List (Prog α τ)}
    (h : ∀ p ∈ l, ∀ c ∈ guards b p, K c) : ∀ c ∈ guards b (chain l), K c := by
  induction l with
  | nil => simp [chain, guards]
  | cons p l ih =>
      obtain ⟨hp, hl⟩ := List.forall_mem_cons.mp h
      cases l with
      | nil => exact hp
      | cons q l => exact List.forall_mem_append.mpr ⟨hp, ih hl⟩

theorem thorough_chain {l : List (Prog α τ)} (h : ∀ p ∈ l, Thorough p) :
    Thorough (chain l) := by
  induction l with
  | nil => trivial
  | cons p l ih =>
      obtain ⟨hp, hl⟩ := List.forall_mem_cons.mp h
      cases l with
      | nil => exact hp
      | cons q l => exact ⟨hp, ih hl⟩

end Guarded

/-! ## Other commands -/

section Map

variable (f : α → β) (b : υ → Bool) (g : τ → υ)

theorem leaves_map (p : Prog α τ) : leaves (p.map f g) = leaves p := by
  induction p with
  | seq p q _ ihq => exact ihq
  | _ => rfl

theorem straight_map (p : Prog α τ) : (p.map f g).Straight ↔ p.Straight := by
  induction p with
  | seq p q ihp ihq | and p q ihp ihq | or p q ihp ihq | cond t p q ihp ihq =>
      exact and_congr ihp ihq
  | _ => exact Iff.rfl

theorem doomed_map (p : Prog α τ) : Doomed (p.map f g) ↔ Doomed p := by
  induction p with
  | seq p q _ ihq => exact and_congr (straight_map f g p) ihq
  | sub p ih => exact ih
  | _ => exact Iff.rfl

theorem all_map (K : β → Prop) (p : Prog α τ) : All K (p.map f g) ↔ All (K ∘ f) p := by
  induction p with
  | seq p q ihp ihq | and p q ihp ihq | or p q ihp ihq | cond t p q ihp ihq =>
      exact and_congr ihp ihq
  | sub p ih => exact ih
  | _ => exact Iff.rfl

theorem guarded_map (K : β → Prop) (p : Prog α τ) :
    Guarded K (p.map f g) ↔ Guarded (K ∘ f) p := by
  induction p with
  | seq p q ihp ihq | cond t p q ihp ihq => exact and_congr ihp ihq
  | and p q ihp ihq =>
      exact and_congr ihp (and_congr ihq (and_congr (straight_map f g q) (all_map f g K p)))
  | or p q ihp _ => exact and_congr ihp (and_congr (doomed_map f g q) (all_map f g K p))
  | sub p ih => exact ih
  | _ => exact Iff.rfl

theorem steady_map (p : Prog α τ) : Steady (p.map f g) ↔ Steady p := by
  induction p with
  | seq p q ihp ihq => exact and_congr (straight_map f g p) (and_congr ihp ihq)
  | cond t p q ihp ihq => exact and_congr ihp ihq
  | or p q ihp _ => exact ihp
  | sub p ih => exact ih
  | _ => exact Iff.rfl

theorem thorough_map (p : Prog α τ) : Thorough (p.map f g) ↔ Thorough p := by
  induction p with
  | seq p q ihp ihq | cond t p q ihp ihq => exact and_congr ihp ihq
  | or p q ihp _ => exact ihp
  | sub p _ => exact steady_map f g p
  | _ => exact Iff.rfl

theorem commands_map (p : Prog α τ) :
    commands b (p.map f g) = (commands (b ∘ g) p).map f := by
  induction p with
  | seq p q ihp ihq | and p q ihp ihq =>
      simp only [Prog.map, commands, ihp, ihq, List.map_append]
  | or p q ihp _ => exact ihp
  | cond t p q ihp ihq =>
      simp only [Prog.map, commands, ihp, ihq, Function.comp_apply]
      split <;> rfl
  | sub p ih => exact ih
  | _ => rfl

theorem decisive_guards_map (p : Prog α τ) :
    decisive b (p.map f g) = (decisive (b ∘ g) p).map f ∧
      guards b (p.map f g) = (guards (b ∘ g) p).map f := by
  induction p with
  | skip | cmd | exit | save | exitSaved => simp [Prog.map, decisive, guards]
  | seq p q ihp ihq | and p q ihp ihq =>
      simp [Prog.map, decisive, guards, ihp, ihq]
  | or p q ihp _ =>
      simp only [Prog.map, decisive, guards, ihp, leaves_map, true_and]
      split <;> rfl
  | cond t p q ihp ihq =>
      simp only [Prog.map, decisive, guards, ihp, ihq, Function.comp_apply]
      split <;> exact ⟨rfl, rfl⟩
  | sub p ih => simp [Prog.map, decisive, guards, ih]

end Map

/-! ## Scripts without a choice -/

namespace Prog

/-- No tests, no `&&`, and no commands after `||`. -/
def Linear : Prog α τ → Prop
  | and _ _ | cond _ _ _ => False
  | seq p q => Linear p ∧ Linear q
  | or p q => Linear p ∧ All (fun _ => False) q
  | sub p => Linear p
  | skip | cmd _ | exit _ | save | exitSaved => True

theorem All.mono {K L : α → Prop} (h : ∀ c, K c → L c) {p : Prog α τ} (hp : All K p) :
    All L p := by
  induction p with
  | cmd c => exact h c hp
  | seq p q ihp ihq | and p q ihp ihq | or p q ihp ihq | cond _ p q ihp ihq =>
      exact ⟨ihp hp.1, ihq hp.2⟩
  | sub p ih => exact ih hp
  | skip | exit | save | exitSaved => trivial

theorem Linear.all_mem_commands {p : Prog α τ} (h : Linear p) (b : τ → Bool) :
    All (fun c => c ∈ commands b p) p := by
  induction p with
  | skip | exit | save | exitSaved => trivial
  | and | cond => exact h.elim
  | cmd c => exact List.mem_singleton.mpr rfl
  | seq p q ihp ihq =>
      exact ⟨(ihp h.1).mono fun _ hc => List.mem_append_left _ hc,
        (ihq h.2).mono fun _ hc => List.mem_append_right _ hc⟩
  | or p q ihp _ => exact ⟨ihp h.1, h.2.mono fun _ hc => hc.elim⟩
  | sub p ih => exact ih h

theorem linear_map {β υ : Type*} (g : α → β) (k : τ → υ) (p : Prog α τ) :
    Linear (p.map g k) ↔ Linear p := by
  induction p with
  | seq p q ihp ihq => exact and_congr ihp ihq
  | or p q ihp _ => exact and_congr ihp (all_map g k _ q)
  | sub p ih => exact ih
  | _ => exact Iff.rfl

theorem linear_chain {l : List (Prog α τ)} (h : ∀ p ∈ l, Linear p) : Linear (chain l) := by
  induction l with
  | nil => trivial
  | cons p l ih =>
      obtain ⟨hp, hl⟩ := List.forall_mem_cons.mp h
      cases l with
      | nil => exact hp
      | cons q l => exact ⟨hp, ih hl⟩

/-! ## Scripts that keep no status -/

def Saveless : Prog α τ → Prop
  | skip | cmd _ | exit _ => True
  | seq p q | and p q | or p q | cond _ p q => Saveless p ∧ Saveless q
  | sub p => Saveless p
  | save | exitSaved => False

theorem saveless_map (f : α → β) (g : τ → υ) {p : Prog α τ} (hp : Saveless p) :
    Saveless (p.map f g) := by
  induction p with
  | skip | cmd | exit => trivial
  | seq p q ihp ihq | and p q ihp ihq | or p q ihp ihq | cond _ p q ihp ihq =>
      exact ⟨ihp hp.1, ihq hp.2⟩
  | sub p ih => exact ih hp
  | save | exitSaved => exact hp.elim

theorem saveless_chain {l : List (Prog α τ)} (h : ∀ p ∈ l, Saveless p) : Saveless (chain l) := by
  induction l with
  | nil => trivial
  | cons p l ih =>
      obtain ⟨hp, hl⟩ := List.forall_mem_cons.mp h
      cases l with
      | nil => exact hp
      | cons q l => exact ⟨hp, ih hl⟩

end Prog

/-- Two states that differ at most in what is saved. -/
structure Alike {σ : Type*} (s t : State σ) : Prop where
  store : s.store = t.store
  exited : s.exited = t.exited
  status : s.status = t.status

section Alike

variable {σ : Type*} {m : Machine α τ σ}

/-- The status before such a script makes no difference. -/
theorem eval_alike {p : Prog α τ} (hp : p.Saveless) {s t : State σ}
    (hstore : s.store = t.store) (hexited : s.exited = t.exited) :
    Alike (eval m p s) (eval m p t) := by
  induction p generalizing s t with
  | skip => exact ⟨hstore, hexited, rfl⟩
  | cmd c => exact ⟨by rw [eval, eval, hstore], hexited, by rw [eval, eval, hstore]⟩
  | exit => exact ⟨hstore, rfl, rfl⟩
  | save | exitSaved => exact hp.elim
  | seq p q ihp ihq | and p q ihp ihq | or p q ihp ihq =>
      have h := ihp hp.1 hstore hexited
      rw [eval, eval, ← h.exited]
      try rw [← h.status]
      split
      · exact h
      · exact ihq hp.2 h.store h.exited
  | cond b p q ihp ihq =>
      rw [eval, eval, ← hstore]
      split
      · exact ihp hp.1 hstore hexited
      · exact ihq hp.2 hstore hexited
  | sub p ih =>
      have h := ih hp hstore hexited
      exact ⟨h.store, hexited, h.status⟩

/-- Once two runs are alike, the rest of the script keeps them so. -/
theorem Alike.chain {p : Prog α τ} {l : List (Prog α τ)} {s t : State σ}
    (h : Alike (eval m p s) (eval m p t)) (hl : ∀ q ∈ l, q.Saveless) :
    Alike (eval m (Prog.chain (p :: l)) s) (eval m (Prog.chain (p :: l)) t) := by
  cases l with
  | nil => exact h
  | cons q l =>
      rw [chain_cons_cons, eval, eval, ← h.exited]
      split
      · exact h
      · exact eval_alike (saveless_chain hl) h.store h.exited

end Alike

end Shell

end Library
