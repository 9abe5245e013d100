import Mathlib.Data.List.Basic
import Mathlib.Data.Nat.Notation
import Mathlib.Logic.Relation

/-!
# Rules and what a target needs

The rules of a makefile give the prerequisites of every target. That no target
needs itself is a field, `rank`: a prerequisite has a lower rank. `Needs t p`
says that `p` is `t` or has to be made before `t`, and `cone t` is the list of
all those `p`.
-/

namespace Library

namespace Make

structure Rules (τ : Type*) where
  prereqs : τ → List τ
  /-- the file of the target, if there is one, is not looked at -/
  phony : τ → Bool
  /-- there is a rule for the target -/
  made : τ → Bool
  rank : τ → ℕ
  rank_lt : ∀ t, ∀ p ∈ prereqs t, rank p < rank t

namespace Rules

variable {τ : Type*} (R : Rules τ)

/-- `p` has to be made before `t`. -/
def Depends : τ → τ → Prop := Relation.TransGen fun t p => p ∈ R.prereqs t

/-- `p` is `t` or has to be made before it. -/
def Needs : τ → τ → Prop := Relation.ReflTransGen fun t p => p ∈ R.prereqs t

variable {R} {t p q : τ}

theorem needs_refl (t : τ) : R.Needs t t := Relation.ReflTransGen.refl

theorem needs_of_mem (h : p ∈ R.prereqs t) : R.Needs t p := Relation.ReflTransGen.single h

theorem Needs.trans (h : R.Needs t p) (h' : R.Needs p q) : R.Needs t q :=
  Relation.ReflTransGen.trans h h'

theorem Depends.needs (h : R.Depends t p) : R.Needs t p := Relation.TransGen.to_reflTransGen h

theorem depends_iff : R.Depends t p ↔ ∃ q ∈ R.prereqs t, R.Needs q p :=
  Relation.TransGen.head'_iff

theorem depends_of_needs_mem (h : R.Needs t p) (hq : q ∈ R.prereqs p) : R.Depends t q :=
  Relation.TransGen.tail' h hq

theorem exists_mem_of_depends (h : R.Depends t p) : ∃ q, R.Needs t q ∧ p ∈ R.prereqs q :=
  Relation.TransGen.tail'_iff.mp h

theorem needs_iff : R.Needs t p ↔ p = t ∨ R.Depends t p :=
  Relation.reflTransGen_iff_eq_or_transGen

theorem Needs.depends (h : R.Needs t p) (hne : p ≠ t) : R.Depends t p :=
  (needs_iff.mp h).resolve_left hne

theorem Needs.mem {S : τ → Prop} (hS : ∀ t, S t → ∀ p ∈ R.prereqs t, S p)
    (h : R.Needs t p) (ht : S t) : S p := by
  induction h with
  | refl => exact ht
  | tail _ hp ih => exact hS _ ih _ hp

theorem Depends.rank_lt (h : R.Depends t p) : R.rank p < R.rank t := by
  induction h with
  | single hp => exact R.rank_lt _ _ hp
  | tail _ hp ih => exact Nat.lt_trans (R.rank_lt _ _ hp) ih

theorem not_depends_self (t : τ) : ¬ R.Depends t t := fun h => Nat.lt_irrefl _ h.rank_lt

/-- Rules seen from afar: if the edges to the targets that have an image are
dependencies between images, so are the chains of edges. -/
theorem Depends.project {σ : Type*} {Q : Rules σ} {f : τ → Option σ}
    (hedge : ∀ t, ∀ p ∈ R.prereqs t, ∀ b ∈ f p, ∃ a ∈ f t, Q.Depends a b)
    (h : R.Depends t p) : ∀ b ∈ f p, ∃ a ∈ f t, Q.Depends a b := by
  induction h with
  | single hp => exact hedge _ _ hp
  | tail _ hp ih =>
      intro b hb
      obtain ⟨a, ha, hab⟩ := hedge _ _ hp b hb
      obtain ⟨c, hc, hca⟩ := ih a ha
      exact ⟨c, hc, hca.trans hab⟩

theorem induct {P : τ → Prop} (h : ∀ t, (∀ p ∈ R.prereqs t, P p) → P t) (t : τ) : P t := by
  induction hn : R.rank t using Nat.strongRecOn generalizing t with
  | _ n ih =>
      subst hn
      exact h t fun p hp => ih (R.rank p) (R.rank_lt t p hp) p rfl

variable (R)

/-- `t`, and what it needs along chains of at most `n` prerequisites. -/
def coneUpTo : ℕ → τ → List τ
  | 0, t => [t]
  | n + 1, t => t :: (R.prereqs t).flatMap (coneUpTo n)

def cone (t : τ) : List τ := R.coneUpTo (R.rank t) t

variable {R}

theorem needs_of_mem_coneUpTo {n : ℕ} (h : p ∈ R.coneUpTo n t) : R.Needs t p := by
  induction n generalizing t with
  | zero => exact List.mem_singleton.mp h ▸ needs_refl p
  | succ n ih =>
      rcases List.mem_cons.mp h with rfl | h
      · exact needs_refl _
      · obtain ⟨q, hq, hp⟩ := List.mem_flatMap.mp h
        exact (needs_of_mem hq).trans (ih hp)

theorem mem_coneUpTo {n : ℕ} (hn : R.rank t ≤ n) (h : R.Needs t p) : p ∈ R.coneUpTo n t := by
  induction n generalizing t with
  | zero =>
      rcases needs_iff.mp h with rfl | h
      · exact List.mem_singleton_self p
      · exact absurd h.rank_lt (by omega)
  | succ n ih =>
      rcases needs_iff.mp h with rfl | h
      · exact List.mem_cons_self
      · obtain ⟨q, hq, hp⟩ := depends_iff.mp h
        have hrank : R.rank q ≤ n := by
          have := R.rank_lt t q hq
          omega
        exact List.mem_cons_of_mem _ (List.mem_flatMap.mpr ⟨q, hq, ih hrank hp⟩)

theorem mem_cone_iff : p ∈ R.cone t ↔ R.Needs t p :=
  ⟨needs_of_mem_coneUpTo, mem_coneUpTo (Nat.le_refl _)⟩

instance [DecidableEq τ] (t p : τ) : Decidable (R.Needs t p) :=
  decidable_of_iff (p ∈ R.cone t) mem_cone_iff

end Rules

end Make

end Library
