import Mathlib.Data.Set.Function
import AmigaGcc.Library.Shell.Status

/-!
# Commands with a footprint

A store gives a value to every location. A `Footprint` is a machine that says of
its commands and tests which locations they depend on and which they change.
Two rules compare runs of one script from two stores:

- `eval_level`: if the stores agree on what the script needs, which is what it reads
  before it writes it, the runs go the same way and write the same.
- `eval_finding`: if no command that counts fails in either run, the scripts
  without a choice go the same way anyway, and it is enough that the commands
  have the same effects.

`faulty` is the machine of a run in which commands may fail or be killed.
-/

namespace Library

namespace Shell

open Prog

/-- A machine whose commands and tests have known inputs and outputs. -/
structure Footprint (α τ ι V : Type*) extends Machine α τ (ι → V) where
  /-- what the effect of a command depends on -/
  reads : α → (ι → V) → Set ι
  /-- what the status of a command depends on -/
  heeds : α → (ι → V) → Set ι
  /-- what a command may change -/
  writes : α → Set ι
  /-- what a test depends on -/
  asks : τ → Set ι
  frame : ∀ c x, ∀ i ∉ writes c, (exec c x).2 i = x i
  effect : ∀ c x y, Set.EqOn x y (reads c x) → Set.EqOn (exec c x).2 (exec c y).2 (writes c)
  status : ∀ c x y, Set.EqOn x y (heeds c x) → (exec c x).1 = (exec c y).1
  answer : ∀ t x y, Set.EqOn x y (asks t) → test t x = test t y

variable {α τ σ ι V : Type*}

def restrict [DecidableEq ι] [Inhabited V] (l : List ι) (x : ι → V) : ι → V :=
  fun i => if i ∈ l then x i else default

theorem restrict_congr [DecidableEq ι] [Inhabited V] {l : List ι} {x y : ι → V}
    (h : Set.EqOn x y {i | i ∈ l}) : restrict l x = restrict l y := by
  funext i
  simp only [restrict]
  split
  · next hi => exact h hi
  · rfl

/-- Commands and tests that are given by functions of listed locations. -/
def Footprint.ofFun [DecidableEq ι] [Inhabited V] (reads writes : α → List ι)
    (run : α → (ι → V) → ℕ × (ι → V)) (asks : τ → List ι) (ask : τ → (ι → V) → Bool) :
    Footprint α τ ι V where
  exec c x :=
    let y := run c (restrict (reads c) x)
    (y.1, fun i => if i ∈ writes c then y.2 i else x i)
  test t x := ask t (restrict (asks t) x)
  reads c _ := {i | i ∈ reads c}
  heeds c _ := {i | i ∈ reads c}
  writes c := {i | i ∈ writes c}
  asks t := {i | i ∈ asks t}
  frame _ _ _ hi := if_neg hi
  effect c x y h i hi := by
    have hmem : i ∈ writes c := hi
    simp only [hmem, if_true, restrict_congr h]
  status c x y h := by
    dsimp only
    rw [restrict_congr h]
  answer t x y h := by rw [restrict_congr h]

instance [DecidableEq ι] [Inhabited V] (reads writes : α → List ι)
    (run : α → (ι → V) → ℕ × (ι → V)) (asks : τ → List ι) (ask : τ → (ι → V) → Bool) (c : α) :
    DecidablePred (· ∈ (Footprint.ofFun reads writes run asks ask).writes c) :=
  fun i => inferInstanceAs (Decidable (i ∈ writes c))

/-! ## Along a run -/

/-- Every command meets `Q` where it is run. -/
def Along (m : Machine α τ σ) (Q : α → σ → Prop) : Prog α τ → State σ → Prop
  | .cmd c, s => Q c s.store
  | .seq p q, s =>
      Along m Q p s ∧ ((eval m p s).exited = false → Along m Q q (eval m p s))
  | .and p q, s =>
      Along m Q p s ∧ ((eval m p s).exited = false → (eval m p s).status = 0 →
        Along m Q q (eval m p s))
  | .or p q, s =>
      Along m Q p s ∧ ((eval m p s).exited = false → (eval m p s).status ≠ 0 →
        Along m Q q (eval m p s))
  | .cond t p q, s => if m.test t s.store then Along m Q p s else Along m Q q s
  | .sub p, s => Along m Q p s
  | .skip, _ | .exit _, _ | .save, _ | .exitSaved, _ => True

theorem along_chain_cons (m : Machine α τ σ) (Q : α → σ → Prop) (p : Prog α τ)
    (l : List (Prog α τ)) (s : State σ) :
    Along m Q (chain (p :: l)) s ↔
      Along m Q p s ∧ ((eval m p s).exited = false → Along m Q (chain l) (eval m p s)) := by
  cases l with
  | nil => simp [chain, Along]
  | cons q l => exact Iff.rfl

theorem Along.mono {m : Machine α τ σ} {P Q : α → σ → Prop} (h : ∀ c x, P c x → Q c x)
    {p : Prog α τ} {s : State σ} (hp : Along m P p s) : Along m Q p s := by
  induction p generalizing s with
  | skip | exit | save | exitSaved => trivial
  | cmd c => exact h c s.store hp
  | seq p q ihp ihq => exact ⟨ihp hp.1, fun hx => ihq (hp.2 hx)⟩
  | and p q ihp ihq | or p q ihp ihq => exact ⟨ihp hp.1, fun hx hs => ihq (hp.2 hx hs)⟩
  | cond t p q ihp ihq =>
      rw [Along] at hp ⊢
      split
      · next ht => exact ihp (by rwa [if_pos ht] at hp)
      · next ht => exact ihq (by rwa [if_neg ht] at hp)
  | sub p ih => exact ih hp

theorem along_of_all {m : Machine α τ σ} {K : α → Prop} {Q : α → σ → Prop}
    (h : ∀ c x, K c → Q c x) {p : Prog α τ} (hp : All K p) (s : State σ) : Along m Q p s := by
  induction p generalizing s with
  | skip | exit | save | exitSaved => trivial
  | cmd c => exact h c s.store hp
  | seq p q ihp ihq => exact ⟨ihp hp.1 s, fun _ => ihq hp.2 _⟩
  | and p q ihp ihq | or p q ihp ihq => exact ⟨ihp hp.1 s, fun _ _ => ihq hp.2 _⟩
  | cond t p q ihp ihq =>
      rw [Along]
      split
      · exact ihp hp.1 s
      · exact ihq hp.2 s
  | sub p ih => exact ih hp s

/-- The invariant rule for the commands that are run. -/
theorem eval_along {m : Machine α τ σ} {I : σ → Prop} {p : Prog α τ} {s : State σ}
    (h : Along m (fun c x => I x → I (m.exec c x).2) p s) (hs : I s.store) :
    I (eval m p s).store := by
  induction p generalizing s with
  | skip | exit | save => exact hs
  | cmd c => exact h hs
  | seq p q ihp ihq =>
      rw [eval]
      split
      · exact ihp h.1 hs
      · next hgo => exact ihq (h.2 (by simpa using hgo)) (ihp h.1 hs)
  | and p q ihp ihq | or p q ihp ihq =>
      rw [eval]
      split
      · exact ihp h.1 hs
      · next hgo =>
          obtain ⟨hexited, hstatus⟩ := not_or.mp hgo
          exact ihq (h.2 (by simpa using hexited) (by simpa using hstatus)) (ihp h.1 hs)
  | cond t p q ihp ihq =>
      rw [Along] at h
      rw [eval]
      split
      · next ht => exact ihp (by rwa [if_pos ht] at h) hs
      · next ht => exact ihq (by rwa [if_neg ht] at h) hs
  | sub p ih => exact ih h hs
  | exitSaved =>
      rw [eval]
      split <;> exact hs

/-- When no command that counts fails, a guarded script is not left early, and
ends with status 0 if all of its commands count. -/
theorem eval_of_along {m : Machine α τ σ} {K : α → Prop} {p : Prog α τ} (hp : Guarded K p)
    {s : State σ} (hs : s.exited = false)
    (h : Along m (fun c x => K c → (m.exec c x).1 = 0) p s) :
    (eval m p s).exited = false ∧ (All K p → (eval m p s).status = 0) := by
  induction p generalizing s with
  | skip => exact ⟨hs, fun _ => rfl⟩
  | cmd c => exact ⟨hs, fun hK => h hK⟩
  | exit | save | exitSaved => exact hp.elim
  | seq p q ihp ihq =>
      obtain ⟨hpx, -⟩ := ihp hp.1 hs h.1
      obtain ⟨hqx, hqs⟩ := ihq hp.2 hpx (h.2 hpx)
      rw [eval, if_neg (by simp [hpx])]
      exact ⟨hqx, fun hK => hqs hK.2⟩
  | and p q ihp ihq =>
      obtain ⟨hpx, hps⟩ := ihp hp.1 hs h.1
      have hstatus := hps hp.2.2.2
      obtain ⟨hqx, hqs⟩ := ihq hp.2.1 hpx (h.2 hpx hstatus)
      rw [eval_and m q hpx hstatus]
      exact ⟨hqx, fun hK => hqs hK.2⟩
  | or p q ihp _ =>
      obtain ⟨hpx, hps⟩ := ihp hp.1 hs h.1
      rw [eval, if_pos (Or.inr (hps hp.2.2))]
      exact ⟨hpx, fun _ => hps hp.2.2⟩
  | cond t p q ihp ihq =>
      rw [Along] at h
      rw [eval]
      split
      · next ht =>
          rw [if_pos ht] at h
          exact ⟨(ihp hp.1 hs h).1, fun hK => (ihp hp.1 hs h).2 hK.1⟩
      · next ht =>
          rw [if_neg ht] at h
          exact ⟨(ihq hp.2 hs h).1, fun hK => (ihq hp.2 hs h).2 hK.2⟩
  | sub p ih => exact ⟨hs, (ih hp hs h).2⟩

/-! ## Side by side

`eval_determined` follows two runs of a linear script by the set of locations on which they
are known to be the same. It starts where the two stores agree, and a command adds what it
writes when it makes the same of both. -/

/-- The stores are the same on `D`, and elsewhere those of `X` and `Y`. -/
structure Determined (D : Set ι) (X Y s t : ι → V) : Prop where
  inside : Set.EqOn s t D
  left : Set.EqOn s X Dᶜ
  right : Set.EqOn t Y Dᶜ

namespace Footprint

variable (f : Footprint α τ ι V)

/-- The command makes the same of the files of `X` and of `Y`, whatever is in `D`. -/
def Settles (X Y : ι → V) (D : Set ι) (c : α) : Prop :=
  ∀ s t, Determined D X Y s t → Set.EqOn (f.exec c s).2 (f.exec c t).2 (f.writes c)

/-- Each command does so when all before it have. -/
def SettlesAll (X Y : ι → V) : Set ι → List α → Prop
  | _, [] => True
  | D, c :: cs => f.Settles X Y D c ∧ SettlesAll X Y (D ∪ f.writes c) cs

def outputs (cs : List α) : Set ι := {i | ∃ c ∈ cs, i ∈ f.writes c}

variable {f} {X Y s t : ι → V} {D : Set ι}

theorem outputs_cons (c : α) (cs : List α) :
    f.outputs (c :: cs) = f.writes c ∪ f.outputs cs := by
  ext i
  simp [outputs]

theorem outputs_append (cs ds : List α) :
    f.outputs (cs ++ ds) = f.outputs cs ∪ f.outputs ds := by
  ext i
  simp [outputs, or_and_right, exists_or]

theorem settlesAll_append (cs ds : List α) :
    f.SettlesAll X Y D (cs ++ ds) ↔
      f.SettlesAll X Y D cs ∧ f.SettlesAll X Y (D ∪ f.outputs cs) ds := by
  induction cs generalizing D with
  | nil => simp [SettlesAll, outputs]
  | cons c cs ih =>
      rw [List.cons_append, SettlesAll, SettlesAll, ih, outputs_cons, Set.union_assoc, and_assoc]

/-- A command settles what it writes when all that it reads is the same. -/
theorem settles_of_reads {c : α}
    (h : ∀ s, Set.EqOn s X Dᶜ → ∀ i ∈ f.reads c s, i ∈ D ∨ X i = Y i) : f.Settles X Y D c := by
  intro s t hst
  refine f.effect c s t fun i hi => ?_
  by_cases hD : i ∈ D
  · exact hst.inside hD
  · have heq : X i = Y i := (h s hst.left i hi).resolve_left hD
    exact (hst.left hD).trans (heq.trans (hst.right hD).symm)

/-- What it makes of `X` and of `Y` decides, as long as it reads nothing else. -/
theorem settles_of_exec {c : α} (hX : ∀ i ∈ f.reads c X, i ∉ D) (hY : ∀ i ∈ f.reads c Y, i ∉ D)
    (h : Set.EqOn (f.exec c X).2 (f.exec c Y).2 (f.writes c)) : f.Settles X Y D c := by
  intro s t hst i hi
  have hleft : (f.exec c X).2 i = (f.exec c s).2 i :=
    f.effect c X s (fun j hj => (hst.left (hX j hj)).symm) hi
  have hright : (f.exec c Y).2 i = (f.exec c t).2 i :=
    f.effect c Y t (fun j hj => (hst.right (hY j hj)).symm) hi
  exact hleft.symm.trans ((h hi).trans hright)

theorem Settles.exec {c : α} (h : f.Settles X Y D c) (hst : Determined D X Y s t) :
    Determined (D ∪ f.writes c) X Y (f.exec c s).2 (f.exec c t).2 where
  inside := by
    intro i hi
    by_cases hwrites : i ∈ f.writes c
    · exact h s t hst hwrites
    · have hD : i ∈ D := hi.resolve_right hwrites
      exact (f.frame c s i hwrites).trans ((hst.inside hD).trans (f.frame c t i hwrites).symm)
  left := fun i hi => (f.frame c s i fun hw => hi (Or.inr hw)).trans
    (hst.left fun hD => hi (Or.inl hD))
  right := fun i hi => (f.frame c t i fun hw => hi (Or.inr hw)).trans
    (hst.right fun hD => hi (Or.inl hD))

/-- Two runs of a linear script in which no command that counts fails. -/
theorem eval_determined {K : α → Prop} {p : Prog α τ} (hp : Guarded K p) (hlinear : Linear p)
    (b : τ → Bool) {s t : State (ι → V)} (hs : s.exited = false) (ht : t.exited = false)
    (hsK : Along f.toMachine (fun c x => K c → (f.exec c x).1 = 0) p s)
    (htK : Along f.toMachine (fun c x => K c → (f.exec c x).1 = 0) p t)
    (h : f.SettlesAll X Y D (commands b p)) (hst : Determined D X Y s.store t.store) :
    Determined (D ∪ f.outputs (commands b p)) X Y (eval f.toMachine p s).store
      (eval f.toMachine p t).store := by
  induction p generalizing s t D with
  | skip => simpa [commands, outputs, eval] using hst
  | exit | save | exitSaved => exact hp.elim
  | and | cond => exact hlinear.elim
  | cmd c =>
      have hout : f.outputs [c] = f.writes c := by simp [outputs]
      rw [commands, hout]
      exact h.1.exec hst
  | seq p q ihp ihq =>
      obtain ⟨hsx, -⟩ := eval_of_along hp.1 hs hsK.1
      obtain ⟨htx, -⟩ := eval_of_along hp.1 ht htK.1
      obtain ⟨hcs, hds⟩ := (settlesAll_append _ _).mp h
      rw [eval, eval, if_neg (by simp [hsx]), if_neg (by simp [htx]), commands, outputs_append,
        ← Set.union_assoc]
      exact ihq hp.2 hlinear.2 hsx htx (hsK.2 hsx) (htK.2 htx) hds
        (ihp hp.1 hlinear.1 hs ht hsK.1 htK.1 hcs hst)
  | or p q ihp _ =>
      -- nothing fails, so what follows the bars is not run
      have hss := (eval_of_along hp.1 hs hsK.1).2 hp.2.2
      have hts := (eval_of_along hp.1 ht htK.1).2 hp.2.2
      rw [eval, eval, if_pos (Or.inr hss), if_pos (Or.inr hts)]
      exact ihp hp.1 hlinear.1 hs ht hsK.1 htK.1 h hst
  | sub p ih => exact ih hp hlinear hs ht hsK htK h hst

end Footprint

/-! ## What a script writes and what it needs -/

namespace Footprint

variable (f : Footprint α τ ι V)

/-- What the commands that are run from `s` may change. -/
def written : Prog α τ → State (ι → V) → Set ι
  | .cmd c, _ => f.writes c
  | .seq p q, s =>
      {i | i ∈ written p s ∨
        (eval f.toMachine p s).exited = false ∧ i ∈ written q (eval f.toMachine p s)}
  | .and p q, s =>
      {i | i ∈ written p s ∨
        ((eval f.toMachine p s).exited = false ∧ (eval f.toMachine p s).status = 0) ∧
          i ∈ written q (eval f.toMachine p s)}
  | .or p q, s =>
      {i | i ∈ written p s ∨
        ((eval f.toMachine p s).exited = false ∧ (eval f.toMachine p s).status ≠ 0) ∧
          i ∈ written q (eval f.toMachine p s)}
  | .cond t p q, s => if f.test t s.store then written p s else written q s
  | .sub p, s => written p s
  | .skip, _ | .exit _, _ | .save, _ | .exitSaved, _ => ∅

/-- What the commands and tests that are run from `s` depend on, as far as the
script has not written it before. -/
def needs : Prog α τ → State (ι → V) → Set ι
  | .cmd c, s => f.reads c s.store ∪ f.heeds c s.store
  | .seq p q, s =>
      {i | i ∈ needs p s ∨ (eval f.toMachine p s).exited = false ∧
        i ∈ needs q (eval f.toMachine p s) ∧ i ∉ f.written p s}
  | .and p q, s =>
      {i | i ∈ needs p s ∨
        ((eval f.toMachine p s).exited = false ∧ (eval f.toMachine p s).status = 0) ∧
          i ∈ needs q (eval f.toMachine p s) ∧ i ∉ f.written p s}
  | .or p q, s =>
      {i | i ∈ needs p s ∨
        ((eval f.toMachine p s).exited = false ∧ (eval f.toMachine p s).status ≠ 0) ∧
          i ∈ needs q (eval f.toMachine p s) ∧ i ∉ f.written p s}
  | .cond t p q, s => f.asks t ∪ if f.test t s.store then needs p s else needs q s
  | .sub p, s => needs p s
  | .skip, _ | .exit _, _ | .save, _ | .exitSaved, _ => ∅

/-- Two runs that have gone the same way: what the first has written, the second
has written too, and nothing else. -/
structure Level (W : Set ι) (t s' t' : State (ι → V)) : Prop where
  status : s'.status = t'.status
  saved : s'.saved = t'.saved
  exited : s'.exited = t'.exited
  inside : Set.EqOn s'.store t'.store W
  outside : Set.EqOn t'.store t.store Wᶜ

variable {f}

theorem eval_frame {p : Prog α τ} {s : State (ι → V)} {i : ι} (hi : i ∉ f.written p s) :
    (eval f.toMachine p s).store i = s.store i := by
  induction p generalizing s with
  | skip | exit | save => rfl
  | cmd c => exact f.frame c s.store i hi
  | seq p q ihp ihq | and p q ihp ihq | or p q ihp ihq =>
      obtain ⟨hp, hq⟩ := not_or.mp hi
      rw [eval]
      split
      · exact ihp hp
      · next hgo =>
          refine (ihq fun hmem => hq ?_).trans (ihp hp)
          simpa using And.intro hgo hmem
  | cond t p q ihp ihq =>
      rw [written] at hi
      rw [eval]
      split
      · next ht => exact ihp (by rwa [if_pos ht] at hi)
      · next ht => exact ihq (by rwa [if_neg ht] at hi)
  | sub p ih => exact ih hi
  | exitSaved =>
      rw [eval]
      split <;> rfl

theorem eval_unwritten {p : Prog α τ} {i : ι} (hp : All (fun c => i ∉ f.writes c) p)
    (s : State (ι → V)) : (eval f.toMachine p s).store i = s.store i :=
  eval_invariant f.toMachine (I := fun x => x i = s.store i)
    (fun c x hc hx => (f.frame c x i hc).trans hx) hp rfl

/-- Two runs on a level, in which a second script is run unless they stop. -/
theorem Level.next {W W' : Set ι} {t s₁ t₁ s₂ t₂ : State (ι → V)} {stop stop' go : Prop}
    [Decidable stop] [Decidable stop'] (h : Level W t s₁ t₁) (hstop : stop ↔ stop')
    (hgo : go ↔ ¬ stop) (hnext : go → Level W' t₁ s₂ t₂)
    (hframe : ∀ i ∉ W', s₂.store i = s₁.store i) :
    Level {i | i ∈ W ∨ go ∧ i ∈ W'} t (if stop then s₁ else s₂) (if stop' then t₁ else t₂) := by
  by_cases hs : stop
  · rw [if_pos hs, if_pos (hstop.mp hs)]
    have hno : ¬ go := fun hg => hgo.mp hg hs
    exact ⟨h.status, h.saved, h.exited, fun i hi => h.inside (hi.resolve_right fun h' => hno h'.1),
      fun i hi => h.outside fun hmem => hi (Or.inl hmem)⟩
  · rw [if_neg hs, if_neg fun hs' => hs (hstop.mpr hs')]
    have hg : go := hgo.mpr hs
    have h' := hnext hg
    refine ⟨h'.status, h'.saved, h'.exited, fun i hi => ?_, fun i hi => ?_⟩
    · by_cases hmem : i ∈ W'
      · exact h'.inside hmem
      · have hW : i ∈ W := hi.resolve_right fun h'' => hmem h''.2
        exact (hframe i hmem).trans ((h.inside hW).trans (h'.outside hmem).symm)
    · obtain ⟨hW, hW'⟩ := not_or.mp hi
      exact (h'.outside fun hmem => hW' ⟨hg, hmem⟩).trans (h.outside hW)

/-- What the second of two scripts needs is as it should be when the first has not
been disturbed. -/
theorem Level.eqOn {p : Prog α τ} {s t t' : State (ι → V)} {N : Set ι}
    (h : Level (f.written p s) t (eval f.toMachine p s) t')
    (hN : ∀ i ∈ N, i ∉ f.written p s → s.store i = t.store i) :
    Set.EqOn (eval f.toMachine p s).store t'.store N := by
  intro i hi
  by_cases hw : i ∈ f.written p s
  · exact h.inside hw
  · exact (eval_frame hw).trans ((hN i hi hw).trans (h.outside hw).symm)

/-- A script goes the same way from two stores that agree on what it needs. -/
theorem eval_level {p : Prog α τ} {s t : State (ι → V)}
    (h : Set.EqOn s.store t.store (f.needs p s)) (hstatus : s.status = t.status)
    (hsaved : s.saved = t.saved) (hexited : s.exited = t.exited) :
    Level (f.written p s) t (eval f.toMachine p s) (eval f.toMachine p t) := by
  induction p generalizing s t with
  | skip => exact ⟨rfl, hsaved, hexited, fun _ hi => hi.elim, fun _ _ => rfl⟩
  | exit n => exact ⟨rfl, hsaved, rfl, fun _ hi => hi.elim, fun _ _ => rfl⟩
  | save => exact ⟨rfl, hstatus, hexited, fun _ hi => hi.elim, fun _ _ => rfl⟩
  | exitSaved =>
      simp only [eval, hsaved]
      split
      · exact ⟨rfl, rfl, rfl, fun _ hi => hi.elim, fun _ _ => rfl⟩
      · exact ⟨rfl, rfl, hexited, fun _ hi => hi.elim, fun _ _ => rfl⟩
  | cmd c =>
      have hreads : Set.EqOn s.store t.store (f.reads c s.store) :=
        h.mono Set.subset_union_left
      have hheeds : Set.EqOn s.store t.store (f.heeds c s.store) :=
        h.mono Set.subset_union_right
      exact ⟨f.status c _ _ hheeds, hsaved, hexited, f.effect c _ _ hreads,
        fun i hi => f.frame c _ i hi⟩
  | seq p q ihp ihq =>
      have hp := ihp (fun i hi => h (Or.inl hi)) hstatus hsaved hexited
      rw [eval, eval, written]
      refine hp.next (by rw [hp.exited]) (by simp) (fun hgo => ?_) fun i hi => eval_frame hi
      exact ihq (hp.eqOn fun i hi hw => h (Or.inr ⟨hgo, hi, hw⟩)) hp.status hp.saved hp.exited
  | and p q ihp ihq | or p q ihp ihq =>
      have hp := ihp (fun i hi => h (Or.inl hi)) hstatus hsaved hexited
      rw [eval, eval, written]
      refine hp.next (by rw [hp.exited, hp.status]) (by simp) (fun hgo => ?_)
        fun i hi => eval_frame hi
      exact ihq (hp.eqOn fun i hi hw => h (Or.inr ⟨hgo, hi, hw⟩)) hp.status hp.saved hp.exited
  | cond b p q ihp ihq =>
      have hanswer : f.test b s.store = f.test b t.store :=
        f.answer b _ _ fun i hi => h (Or.inl hi)
      rw [needs] at h
      rw [eval, eval, written, ← hanswer]
      split
      · next hb =>
          rw [if_pos hb] at h
          exact ihp (fun i hi => h (Or.inr hi)) hstatus hsaved hexited
      · next hb =>
          rw [if_neg hb] at h
          exact ihq (fun i hi => h (Or.inr hi)) hstatus hsaved hexited
  | sub p ih =>
      have hp := ih h hstatus hsaved hexited
      exact ⟨hp.status, hsaved, hexited, hp.inside, hp.outside⟩

/-- A script that has nothing to do with `D` does to both stores what it does to `X` and
`Y`. -/
theorem eval_beside {p : Prog α τ} (hp : p.Saveless) {D : Set ι} {X Y : ι → V}
    {s t : State (ι → V)} (hs : s.exited = false) (ht : t.exited = false)
    (hX : ∀ i ∈ D, i ∉ f.needs p { store := X } ∧ i ∉ f.written p { store := X })
    (hY : ∀ i ∈ D, i ∉ f.needs p { store := Y } ∧ i ∉ f.written p { store := Y })
    (h : Determined D X Y s.store t.store) :
    Determined D (start f.toMachine p X).store (start f.toMachine p Y).store
      (eval f.toMachine p s).store (eval f.toMachine p t).store := by
  have hlevel : ∀ {Z : ι → V} {u : State (ι → V)}, u.exited = false →
      (∀ i ∈ D, i ∉ f.needs p { store := Z } ∧ i ∉ f.written p { store := Z }) →
      Set.EqOn u.store Z Dᶜ →
      Set.EqOn (eval f.toMachine p u).store u.store D ∧
        Set.EqOn (eval f.toMachine p u).store (start f.toMachine p Z).store Dᶜ := by
    intro Z u hu hZ hoff
    have hlev := eval_level (f := f) (s := { store := Z }) (t := { store := u.store })
      (fun i hi => (hoff fun hD => (hZ i hD).1 hi).symm) rfl rfl rfl
    have hsame := eval_alike (m := f.toMachine) hp (s := u) (t := { store := u.store }) rfl hu
    rw [hsame.store]
    refine ⟨fun i hi => hlev.outside (hZ i hi).2, fun i hi => ?_⟩
    by_cases hw : i ∈ f.written p { store := Z }
    · exact (hlev.inside hw).symm
    · have hframe : (start f.toMachine p Z).store i = Z i := eval_frame hw
      exact (hlev.outside hw).trans ((hoff hi).trans hframe.symm)
  obtain ⟨hsD, hsX⟩ := hlevel hs hX h.left
  obtain ⟨htD, htY⟩ := hlevel ht hY h.right
  exact ⟨fun i hi => (hsD hi).trans ((h.inside hi).trans (htD hi).symm), hsX, htY⟩

/-- The commands that are run over `x` leave the locations `S` as they are in `x`. -/
def Spares (f : Footprint α τ ι V) (p : Prog α τ) (x : ι → V) (S : Set ι) : Prop :=
  Along f.toMachine (fun c _ => ∀ y, Set.EqOn y x S → Set.EqOn (f.exec c y).2 x S) p
    { store := x }

/-- The commands that are run over `x` and write `i` all leave `v` there. -/
def Leaves (f : Footprint α τ ι V) (p : Prog α τ) (x : ι → V) (i : ι) (v : V) : Prop :=
  Along f.toMachine (fun c _ => i ∈ f.writes c → ∀ y, (f.exec c y).2 i = v) p { store := x }

theorem Spares.eqOn {p : Prog α τ} {x : ι → V} {S : Set ι} (h : f.Spares p x S) :
    Set.EqOn (start f.toMachine p x).store x S :=
  eval_along (I := fun y => Set.EqOn y x S) (h.mono fun _ y hc => hc y) fun _ _ => rfl

theorem spares_of_all {p : Prog α τ} {x : ι → V} {S : Set ι}
    (h : All (fun c => ∀ i ∈ S, i ∈ f.writes c → ∀ y, (f.exec c y).2 i = x i) p) :
    f.Spares p x S := by
  refine along_of_all (fun c _ hc y hy i hi => ?_) h _
  by_cases hw : i ∈ f.writes c
  · exact hc i hi hw y
  · exact (f.frame c y i hw).trans (hy hi)

/-- What is written last is what every command leaves. -/
theorem eval_of_leaves {p : Prog α τ} {i : ι} {v : V} {s : State (ι → V)}
    (h : Along f.toMachine (fun c _ => i ∈ f.writes c → ∀ y, (f.exec c y).2 i = v) p s)
    (hs : s.store i = v ∨ i ∈ f.written p s) : (eval f.toMachine p s).store i = v := by
  induction p generalizing s with
  | skip | exit | save => exact hs.resolve_right fun h => h.elim
  | cmd c =>
      by_cases hi : i ∈ f.writes c
      · exact h hi s.store
      · exact (f.frame c s.store i hi).trans (hs.resolve_right hi)
  | seq p q ihp ihq =>
      rw [eval]
      by_cases hgo : (eval f.toMachine p s).exited = true
      · rw [if_pos hgo]
        exact ihp h.1 (hs.imp_right fun hw => hw.resolve_right fun hq => by simp [hgo] at hq)
      · rw [if_neg hgo]
        have hlive := Bool.eq_false_iff.mpr hgo
        refine ihq (h.2 hlive) ?_
        rcases hs with hs | hw | hw
        · exact Or.inl (ihp h.1 (Or.inl hs))
        · exact Or.inl (ihp h.1 (Or.inr hw))
        · exact Or.inr hw.2
  | and p q ihp ihq | or p q ihp ihq =>
      rw [eval]
      split
      · next hgo =>
          refine ihp h.1 (hs.imp_right fun hw => hw.resolve_right fun hq => ?_)
          rcases hgo with hx | hx
          · exact Bool.false_ne_true (hq.1.1.symm.trans hx)
          · exact absurd hq.1.2 (by simpa using hx)
      · next hgo =>
          obtain ⟨hexited, hstatus⟩ := not_or.mp hgo
          refine ihq (h.2 (by simpa using hexited) (by simpa using hstatus)) ?_
          rcases hs with hs | hw | hw
          · exact Or.inl (ihp h.1 (Or.inl hs))
          · exact Or.inl (ihp h.1 (Or.inr hw))
          · exact Or.inr hw.2
  | cond t p q ihp ihq =>
      rw [Along] at h
      rw [written] at hs
      rw [eval]
      split
      · next ht =>
          rw [if_pos ht] at h hs
          exact ihp h hs
      · next ht =>
          rw [if_neg ht] at h hs
          exact ihq h hs
  | sub p ih => exact ih h hs
  | exitSaved =>
      rw [eval]
      have hstore : s.store i = v := hs.resolve_right fun h => h.elim
      split <;> exact hstore

/-- Two scripts that leave alone what the other one needs, and that leave the same
where both write, can be run in either order. -/
theorem start_comm {f g : Footprint α τ ι V} {p q : Prog α τ} {x : ι → V} {S S' : Set ι}
    (hp : f.needs p { store := x } ⊆ S) (hqS : g.Spares q x S)
    (hq : g.needs q { store := x } ⊆ S') (hpS : f.Spares p x S')
    (hboth : ∀ i ∈ f.written p { store := x } ∩ g.written q { store := x },
      ∃ v, f.Leaves p x i v ∧ g.Leaves q x i v) :
    (start g.toMachine q (start f.toMachine p x).store).store =
        (start f.toMachine p (start g.toMachine q x).store).store ∧
      (start g.toMachine q (start f.toMachine p x).store).status =
        (start g.toMachine q x).status ∧
      (start f.toMachine p (start g.toMachine q x).store).status =
        (start f.toMachine p x).status := by
  have hpq := eval_level (f := f) (s := { store := x })
    (t := { store := (start g.toMachine q x).store }) (fun i hi => (hqS.eqOn (hp hi)).symm)
    rfl rfl rfl
  have hqp := eval_level (f := g) (s := { store := x })
    (t := { store := (start f.toMachine p x).store }) (fun i hi => (hpS.eqOn (hq hi)).symm)
    rfl rfl rfl
  refine ⟨funext fun i => ?_, hqp.status.symm, hpq.status.symm⟩
  by_cases hip : i ∈ f.written p { store := x }
  · have hin : (start f.toMachine p (start g.toMachine q x).store).store i =
        (start f.toMachine p x).store i := (hpq.inside hip).symm
    rw [hin]
    by_cases hiq : i ∈ g.written q { store := x }
    · obtain ⟨v, hpv, hqv⟩ := hboth i ⟨hip, hiq⟩
      have hpi : (start f.toMachine p x).store i = v := eval_of_leaves hpv (Or.inr hip)
      have hqi : (start g.toMachine q x).store i = v := eval_of_leaves hqv (Or.inr hiq)
      exact (hqp.inside hiq).symm.trans (hqi.trans hpi.symm)
    · exact hqp.outside hiq
  · have hx : (start f.toMachine p x).store i = x i := eval_frame hip
    have hout : (start f.toMachine p (start g.toMachine q x).store).store i =
        (start g.toMachine q x).store i := hpq.outside hip
    rw [hout]
    by_cases hiq : i ∈ g.written q { store := x }
    · exact (hqp.inside hiq).symm
    · have hy : (start g.toMachine q x).store i = x i := eval_frame hiq
      exact ((hqp.outside hiq).trans hx).trans hy.symm

end Footprint

/-! ## Runs with failures -/

/-- How one command ends: as it should, with a failure, or with the death of the
shell. In the last two cases `left` is found where the command writes. -/
inductive Fault (ι V : Type*) where
  | none
  | fail (status : ℕ) (left : ι → V)
  | kill (left : ι → V)

structure Faulty (ι V : Type*) where
  disk : ι → V
  faults : List (Fault ι V)
  killed : Bool := false

def overwrite (W : Set ι) [DecidablePred (· ∈ W)] (left disk : ι → V) : ι → V :=
  fun i => if i ∈ W then left i else disk i

/-- The machine of a run with faults. A killed shell does nothing any more. -/
def Footprint.faulty (f : Footprint α τ ι V) [∀ c, DecidablePred (· ∈ f.writes c)] :
    Machine α τ (Faulty ι V) where
  exec c x :=
    if x.killed then (1, x)
    else
      match x.faults with
      | [] => ((f.exec c x.disk).1, { x with disk := (f.exec c x.disk).2 })
      | .none :: l => ((f.exec c x.disk).1, { x with disk := (f.exec c x.disk).2, faults := l })
      | .fail n left :: l =>
          (n, { x with disk := overwrite (f.writes c) left x.disk, faults := l })
      | .kill left :: _ =>
          (1, { x with disk := overwrite (f.writes c) left x.disk, killed := true })
  test t x := f.test t x.disk

/-- Whatever fails, a location that no command of a script writes stays. -/
theorem Footprint.eval_faulty_frame (f : Footprint α τ ι V)
    [∀ c, DecidablePred (· ∈ f.writes c)] {p : Prog α τ} {i : ι}
    (hp : All (fun c => i ∉ f.writes c) p) (s : State (Faulty ι V)) :
    (eval f.faulty p s).store.disk i = s.store.disk i := by
  refine eval_invariant f.faulty (K := fun c => i ∉ f.writes c)
    (I := fun x => x.disk i = s.store.disk i) ?_ hp rfl
  intro c x hc hx
  have hframe : (f.exec c x.disk).2 i = s.store.disk i := (f.frame c x.disk i hc).trans hx
  have hleft : ∀ left, overwrite (f.writes c) left x.disk i = s.store.disk i := fun left => by
    rw [overwrite, if_neg hc, hx]
  simp only [Footprint.faulty]
  split
  · exact hx
  · split
    · exact hframe
    · exact hframe
    · exact hleft _
    · exact hleft _

end Shell

end Library
