import Mathlib.Data.Nat.Notation
import Mathlib.Tactic.TypeStar

/-!
# Shell control flow

`Prog α τ` is the control flow of a shell script over simple commands `α` and
tests `τ`: `;`, `&&`, `||`, `if`, subshells, `exit`, and the idiom that saves
`$?` in a variable and leaves with it later. A `for` loop over a known list of
words is `forEach`, the chain of its rounds, and a pipeline is `pipe`, since
without `pipefail` only the last status counts.

`eval m p s` runs `p` on a machine `m`, which says what each command does to
the store and with which status. Two rules carry the proofs: `eval_invariant`
for what every command keeps, and `eval_simulation` for two machines whose
commands agree step by step.
-/

namespace Library

namespace Shell

/-- Shell control flow over simple commands `α` and tests `τ`. -/
inductive Prog (α τ : Type*) where
  /-- a command that only assigns a variable -/
  | skip
  | cmd (c : α)
  /-- `p; q` -/
  | seq (p q : Prog α τ)
  /-- `p && q` -/
  | and (p q : Prog α τ)
  /-- `p || q` -/
  | or (p q : Prog α τ)
  /-- `if t; then p; else q; fi` -/
  | cond (t : τ) (p q : Prog α τ)
  /-- `(p)` -/
  | sub (p : Prog α τ)
  | exit (n : ℕ)
  /-- `r=$?` -/
  | save
  /-- `[[ $r -gt 0 ]] && exit $r` -/
  | exitSaved

namespace Prog

variable {α β τ υ ι : Type*}

/-- The chain `p₁; p₂; …`, whose status is the one of its last part. -/
def chain : List (Prog α τ) → Prog α τ
  | [] => skip
  | [p] => p
  | p :: q :: l => seq p (chain (q :: l))

@[simp] theorem chain_singleton (p : Prog α τ) : chain [p] = p := rfl

@[simp] theorem chain_cons_cons (p q : Prog α τ) (l : List (Prog α τ)) :
    chain (p :: q :: l) = seq p (chain (q :: l)) := rfl

/-- `for x in l; do body x; done`. -/
def forEach (l : List ι) (body : ι → Prog α τ) : Prog α τ :=
  chain (l.map body)

/-- `p | q`: both sides run in subshells and the status of `p` is lost. -/
def pipe (p q : Prog α τ) : Prog α τ :=
  seq (sub p) (sub q)

def map (f : α → β) (g : τ → υ) : Prog α τ → Prog β υ
  | skip => skip
  | cmd c => cmd (f c)
  | seq p q => seq (map f g p) (map f g q)
  | and p q => and (map f g p) (map f g q)
  | or p q => or (map f g p) (map f g q)
  | cond t p q => cond (g t) (map f g p) (map f g q)
  | sub p => sub (map f g p)
  | exit n => exit n
  | save => save
  | exitSaved => exitSaved

def All (K : α → Prop) : Prog α τ → Prop
  | cmd c => K c
  | seq p q | and p q | or p q | cond _ p q => All K p ∧ All K q
  | sub p => All K p
  | skip | exit _ | save | exitSaved => True

/-- No `exit` outside a subshell, and no use of the saved status. -/
def Straight : Prog α τ → Prop
  | skip | cmd _ | sub _ => True
  | seq p q | and p q | or p q | cond _ p q => Straight p ∧ Straight q
  | exit _ | save | exitSaved => False

@[simp] theorem straight_skip : (skip : Prog α τ).Straight := trivial

@[simp] theorem straight_cmd (c : α) : (cmd c : Prog α τ).Straight := trivial

@[simp] theorem straight_sub (p : Prog α τ) : (sub p).Straight := trivial

theorem all_of_forall {K : α → Prop} (h : ∀ c, K c) (p : Prog α τ) : p.All K := by
  induction p with
  | cmd c => exact h c
  | seq p q ihp ihq | and p q ihp ihq | or p q ihp ihq | cond _ p q ihp ihq =>
      exact ⟨ihp, ihq⟩
  | sub p ih => exact ih
  | skip | exit | save | exitSaved => trivial

theorem all_chain {K : α → Prop} {l : List (Prog α τ)} (h : ∀ p ∈ l, p.All K) :
    (chain l).All K := by
  induction l with
  | nil => trivial
  | cons p l ih =>
      cases l with
      | nil => exact h p List.mem_cons_self
      | cons q l =>
          exact ⟨h p List.mem_cons_self, ih fun r hr => h r (List.mem_cons_of_mem p hr)⟩

end Prog

/-- What the simple commands and the tests do on a store `σ`. -/
structure Machine (α τ σ : Type*) where
  exec : α → σ → ℕ × σ
  test : τ → σ → Bool

/-- A running shell: the store, `$?`, the saved status, and whether the shell
has been left by `exit`. -/
structure State (σ : Type*) where
  store : σ
  status : ℕ := 0
  saved : ℕ := 0
  exited : Bool := false

variable {α τ σ ρ ι : Type*}

def eval (m : Machine α τ σ) : Prog α τ → State σ → State σ
  | .skip, s => { s with status := 0 }
  | .cmd c, s =>
      { s with store := (m.exec c s.store).2, status := (m.exec c s.store).1 }
  | .seq p q, s =>
      if (eval m p s).exited then eval m p s else eval m q (eval m p s)
  | .and p q, s =>
      if (eval m p s).exited ∨ (eval m p s).status ≠ 0 then eval m p s
      else eval m q (eval m p s)
  | .or p q, s =>
      if (eval m p s).exited ∨ (eval m p s).status = 0 then eval m p s
      else eval m q (eval m p s)
  | .cond t p q, s => if m.test t s.store then eval m p s else eval m q s
  | .sub p, s => { eval m p s with saved := s.saved, exited := s.exited }
  | .exit n, s => { s with status := n, exited := true }
  | .save, s => { s with saved := s.status, status := 0 }
  | .exitSaved, s =>
      if 0 < s.saved then { s with status := s.saved, exited := true }
      else { s with status := 1 }

def start (m : Machine α τ σ) (p : Prog α τ) (x : σ) : State σ :=
  eval m p { store := x }

theorem eval_straight (m : Machine α τ σ) {p : Prog α τ} (hp : p.Straight) (s : State σ) :
    (eval m p s).exited = s.exited ∧ (eval m p s).saved = s.saved := by
  induction p generalizing s with
  | skip | cmd c | sub p => exact ⟨rfl, rfl⟩
  | seq p q ihp ihq | and p q ihp ihq | or p q ihp ihq =>
      obtain ⟨hpe, hps⟩ := ihp hp.1 s
      obtain ⟨hqe, hqs⟩ := ihq hp.2 (eval m p s)
      rw [eval]
      split
      · exact ⟨hpe, hps⟩
      · exact ⟨hqe.trans hpe, hqs.trans hps⟩
  | cond t p q ihp ihq =>
      rw [eval]
      split
      · exact ihp hp.1 s
      · exact ihq hp.2 s
  | exit n | save | exitSaved => exact hp.elim

theorem eval_seq (m : Machine α τ σ) {p : Prog α τ} (hp : p.Straight) (q : Prog α τ)
    {s : State σ} (hs : s.exited = false) :
    eval m (.seq p q) s = eval m q (eval m p s) := by
  rw [eval, (eval_straight m hp s).1, hs]
  exact if_neg Bool.false_ne_true

theorem eval_chain_cons_store (m : Machine α τ σ) (p : Prog α τ) (l : List (Prog α τ))
    {s : State σ} (hs : (eval m p s).exited = false) :
    (eval m (Prog.chain (p :: l)) s).store = (eval m (Prog.chain l) (eval m p s)).store := by
  cases l with
  | nil => rfl
  | cons q l => rw [Prog.chain_cons_cons, eval, if_neg (by simp [hs])]

theorem eval_chain_concat_store (m : Machine α τ σ) {ps : List (Prog α τ)}
    (hps : ∀ p ∈ ps, p.Straight) (c : α) {s : State σ} (hs : s.exited = false) :
    (eval m (Prog.chain (ps ++ [Prog.cmd c])) s).store =
      (m.exec c (eval m (Prog.chain ps) s).store).2 := by
  induction ps generalizing s with
  | nil => rfl
  | cons p ps ih =>
      obtain ⟨hp, hps⟩ := List.forall_mem_cons.mp hps
      have hlive : (eval m p s).exited = false := (eval_straight m hp s).1.trans hs
      rw [List.cons_append, eval_chain_cons_store m p _ hlive, eval_chain_cons_store m p _ hlive]
      exact ih hps hlive

theorem eval_and (m : Machine α τ σ) {p : Prog α τ} (q : Prog α τ) {s : State σ}
    (hexited : (eval m p s).exited = false) (hstatus : (eval m p s).status = 0) :
    eval m (.and p q) s = eval m q (eval m p s) := by
  rw [eval, hexited, hstatus]
  exact if_neg (by simp)

/-- The invariant rule: what every command of a script keeps, the script
keeps. -/
theorem eval_invariant (m : Machine α τ σ) {K : α → Prop} {I : σ → Prop}
    (h : ∀ c x, K c → I x → I (m.exec c x).2) {p : Prog α τ} (hp : p.All K)
    {s : State σ} (hs : I s.store) : I (eval m p s).store := by
  induction p generalizing s with
  | skip | exit | save => exact hs
  | cmd c => exact h c s.store hp hs
  | seq p q ihp ihq | and p q ihp ihq | or p q ihp ihq =>
      rw [eval]
      split
      · exact ihp hp.1 hs
      · exact ihq hp.2 (ihp hp.1 hs)
  | cond t p q ihp ihq =>
      rw [eval]
      split
      · exact ihp hp.1 hs
      · exact ihq hp.2 hs
  | sub p ih => exact ih hp hs
  | exitSaved =>
      rw [eval]
      split <;> exact hs

/-- What every round of a loop keeps of the store, the loop keeps. -/
theorem eval_forEach_keep (m : Machine α τ σ) {β : Type*} {get : σ → β} {l : List ι}
    {body : ι → Prog α τ} (hbody : ∀ j, (body j).Straight)
    (hkeep : ∀ j ∈ l, ∀ s : State σ, get (eval m (body j) s).store = get s.store)
    {s : State σ} (hs : s.exited = false) :
    get (eval m (Prog.forEach l body) s).store = get s.store := by
  induction l generalizing s with
  | nil => rfl
  | cons j l ih =>
      have hexited := (eval_straight m (hbody j) s).1.trans hs
      have htail : ∀ k ∈ l, ∀ s : State σ, get (eval m (body k) s).store = get s.store :=
        fun k hk => hkeep k (List.mem_cons_of_mem j hk)
      rw [Prog.forEach, List.map_cons, eval_chain_cons_store m _ _ hexited]
      exact (ih htail hexited).trans (hkeep j List.mem_cons_self s)

/-- A loop whose rounds each act on a part of the store of their own: the part of
the round `i` is what that round alone makes of it. -/
theorem eval_forEach_part (m : Machine α τ σ) {β : Type*} {get : σ → β} {act : β → β}
    {l : List ι} {i : ι} {body : ι → Prog α τ} (hl : l.Nodup) (hi : i ∈ l)
    (hbody : ∀ j, (body j).Straight)
    (hact : ∀ s : State σ, s.exited = false →
      get (eval m (body i) s).store = act (get s.store))
    (hkeep : ∀ j ∈ l, j ≠ i → ∀ s : State σ, get (eval m (body j) s).store = get s.store)
    {s : State σ} (hs : s.exited = false) :
    get (eval m (Prog.forEach l body) s).store = act (get s.store) := by
  induction l generalizing s with
  | nil => cases hi
  | cons j l ih =>
      have hexited := (eval_straight m (hbody j) s).1.trans hs
      rw [Prog.forEach, List.map_cons, eval_chain_cons_store m _ _ hexited]
      obtain ⟨hj, hl⟩ := List.nodup_cons.mp hl
      rcases List.mem_cons.mp hi with rfl | hi
      · have htail : ∀ k ∈ l, ∀ s : State σ, get (eval m (body k) s).store = get s.store :=
          fun k hk => hkeep k (List.mem_cons_of_mem i hk) fun h => hj (h ▸ hk)
        exact (eval_forEach_keep m hbody htail hexited).trans (hact s hs)
      · have hne : j ≠ i := fun h => hj (h ▸ hi)
        have hhead := hkeep j List.mem_cons_self hne s
        rw [← hhead]
        exact ih hl hi (fun k hk => hkeep k (List.mem_cons_of_mem j hk)) hexited

/-- Two running shells in step: related stores, everything else equal. -/
structure InStep (R : σ → ρ → Prop) (s : State σ) (t : State ρ) : Prop where
  store : R s.store t.store
  status : s.status = t.status
  saved : s.saved = t.saved
  exited : s.exited = t.exited

/-- The simulation rule: if the commands of two machines keep a relation on the
stores with equal statuses, and the tests agree on related stores, then every
script keeps the two shells in step. -/
theorem eval_simulation {m : Machine α τ σ} {n : Machine α τ ρ} {R : σ → ρ → Prop}
    (hexec : ∀ c x y, R x y →
      (m.exec c x).1 = (n.exec c y).1 ∧ R (m.exec c x).2 (n.exec c y).2)
    (htest : ∀ t x y, R x y → m.test t x = n.test t y)
    (p : Prog α τ) {s : State σ} {t : State ρ} (h : InStep R s t) :
    InStep R (eval m p s) (eval n p t) := by
  induction p generalizing s t with
  | skip => exact ⟨h.store, rfl, h.saved, h.exited⟩
  | cmd c =>
      obtain ⟨hstatus, hstore⟩ := hexec c s.store t.store h.store
      exact ⟨hstore, hstatus, h.saved, h.exited⟩
  | seq p q ihp ihq =>
      have hp := ihp h
      simp only [eval, hp.exited]
      split
      · exact hp
      · exact ihq hp
  | and p q ihp ihq | or p q ihp ihq =>
      have hp := ihp h
      simp only [eval, hp.exited, hp.status]
      split
      · exact hp
      · exact ihq hp
  | cond b p q ihp ihq =>
      simp only [eval, htest b _ _ h.store]
      split
      · exact ihp h
      · exact ihq h
  | sub p ih =>
      have hp := ih h
      exact ⟨hp.store, hp.status, h.saved, h.exited⟩
  | exit n => exact ⟨h.store, rfl, h.saved, rfl⟩
  | save => exact ⟨h.store, rfl, h.status, h.exited⟩
  | exitSaved =>
      simp only [eval, h.saved]
      split
      · exact ⟨h.store, rfl, rfl, rfl⟩
      · exact ⟨h.store, rfl, rfl, h.exited⟩

end Shell

end Library
