import Mathlib.Data.Finset.Filter
import Mathlib.Data.Nat.Notation

/-!
# Modification times

Two programs decide by the modification times of files whether there is something
to do. make rebuilds a target that is missing or older than a prerequisite:
`Outdated`. `rsync -a` copies a file unless the copy has the same size and time,
and gives the copy the time of the original: `sync`.

A copy by size and time is right under one condition, `Coherent`: a file of the
copy with the time of its original has its content. It holds as long as all
writes take later and later times.
-/

namespace Library

namespace Mtime

structure File (C : Type*) where
  content : C
  mtime : ℕ
  deriving DecidableEq

variable {ι C : Type*}

/-- A target, with its time if it exists, is missing or older than one of the
prerequisites `deps`. -/
def Outdated (target : Option ℕ) (deps : Finset ι) (file : ι → File C) : Prop :=
  ∀ t ∈ target, ∃ f ∈ deps, t < (file f).mtime

instance (target : Option ℕ) (deps : Finset ι) (file : ι → File C) :
    Decidable (Outdated target deps file) :=
  match target with
  | none => isTrue fun _ h => nomatch h
  | some t => decidable_of_iff (∃ f ∈ deps, t < (file f).mtime) <| by simp [Outdated]

theorem not_outdated_iff {target : Option ℕ} {deps : Finset ι} {file : ι → File C} :
    ¬ Outdated target deps file ↔ ∃ t, target = some t ∧ ∀ f ∈ deps, (file f).mtime ≤ t := by
  simp [Outdated]

/-- What `rsync -a` leaves for the original `x` where it finds `y`. -/
def sync (size : C → ℕ) (x : File C) (y : Option (File C)) : File C :=
  match y with
  | none => x
  | some y => if size y.content = size x.content ∧ y.mtime = x.mtime then y else x

/-- A copy with the time of its original has its content. -/
def Coherent (x : File C) (y : Option (File C)) : Prop :=
  ∀ z ∈ y, z.mtime = x.mtime → z.content = x.content

theorem Coherent.sync_eq {x : File C} {y : Option (File C)} (h : Coherent x y)
    (size : C → ℕ) : sync size x y = x := by
  cases y with
  | none => rfl
  | some y =>
      simp only [sync]
      split
      · next hsame =>
          obtain ⟨content, mtime⟩ := x
          obtain ⟨content', mtime'⟩ := y
          simp only at hsame
          obtain rfl := hsame.2
          have hcontent : content' = content := h _ rfl rfl
          rw [hcontent]
      · rfl

theorem coherent_of_ne {x : File C} {y : Option (File C)}
    (h : ∀ z ∈ y, z.mtime ≠ x.mtime) : Coherent x y :=
  fun z hz hmtime => absurd hmtime (h z hz)

end Mtime

end Library
