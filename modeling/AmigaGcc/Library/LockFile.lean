import Mathlib.Logic.Function.Basic
import Mathlib.Data.Nat.Notation

/-!
# Advisory locks on a path

A lock path names an inode, or nothing. A process opens the path, which creates
a new inode when the path names nothing, takes the exclusive lock of the inode
it has open, and drops both when it closes the descriptor. The kernel keeps one
holder for each inode, so processes exclude each other only as long as they have
the same inode open. `LockFile.Sound` says that they do; every operation keeps
it but `unlink`, which keeps it when nobody has the file open.
-/

namespace Library

/-- A lock path, the lock table of the kernel and the descriptor of each
process. Inodes from `next` on have not been used. -/
structure LockFile (P : Type*) where
  path : Option ℕ
  next : ℕ
  holder : ℕ → Option P
  fd : P → Option ℕ

namespace LockFile

variable {P : Type*}

/-- The path names the inode `lock`, or nothing, and nobody has opened it. -/
def initial (lock : Option ℕ) : LockFile P where
  path := lock
  next := lock.elim 0 (· + 1)
  holder := fun _ => none
  fd := fun _ => none

def target (l : LockFile P) : ℕ := l.path.getD l.next

/-- Open the path, creating it if it is missing. -/
def openPath [DecidableEq P] (l : LockFile P) (p : P) : LockFile P where
  path := some l.target
  next := if l.path.isSome then l.next else l.next + 1
  holder := l.holder
  fd := Function.update l.fd p (some l.target)

/-- Take the exclusive lock of the open inode, which waits while it has a
holder. -/
def flock (l : LockFile P) (p : P) : Option (LockFile P) :=
  (l.fd p).bind fun i =>
    if l.holder i = none then
      some { l with holder := Function.update l.holder i (some p) }
    else none

def close [DecidableEq P] (l : LockFile P) (p : P) : LockFile P where
  path := l.path
  next := l.next
  holder := fun i => if l.holder i = some p then none else l.holder i
  fd := Function.update l.fd p none

/-- Remove the path. Descriptors that are open keep their inode. -/
def unlink (l : LockFile P) : LockFile P := { l with path := none }

def Holds (l : LockFile P) (p : P) : Prop := ∃ i, l.holder i = some p

/-- Everybody who has the lock file open has the file the path names. -/
structure Sound (l : LockFile P) : Prop where
  onPath : ∀ p i, l.fd p = some i → l.path = some i
  open_of_holder : ∀ p i, l.holder i = some p → l.fd p = some i
  lt_next : ∀ i, l.path = some i → i < l.next

namespace Sound

variable {l l' : LockFile P} {p q : P}

theorem initial (lock : Option ℕ) : (LockFile.initial lock : LockFile P).Sound where
  onPath := fun _ _ h => absurd h (by simp [LockFile.initial])
  open_of_holder := fun _ _ h => absurd h (by simp [LockFile.initial])
  lt_next := by
    rintro i rfl
    exact Nat.lt_succ_self i

theorem exclusive (h : l.Sound) (hp : l.Holds p) (hq : l.Holds q) : p = q := by
  obtain ⟨i, hi⟩ := hp
  obtain ⟨j, hj⟩ := hq
  have hpi : l.path = some i := h.onPath p i (h.open_of_holder p i hi)
  have hpj : l.path = some j := h.onPath q j (h.open_of_holder q j hj)
  obtain rfl : i = j := Option.some.inj (hpi.symm.trans hpj)
  exact Option.some.inj (hi.symm.trans hj)

theorem target_of_open {i : ℕ} (h : l.Sound) (hp : l.fd p = some i) : l.target = i := by
  simp [target, h.onPath p i hp]

theorem openPath [DecidableEq P] (h : l.Sound) (hp : l.fd p = none) : (l.openPath p).Sound where
  onPath := by
    intro q i hq
    by_cases hqp : q = p
    · subst hqp
      simpa [LockFile.openPath] using hq
    · have hq' : l.fd q = some i := by simpa [LockFile.openPath, hqp] using hq
      rw [← h.target_of_open hq']
      rfl
  open_of_holder := by
    intro q i hq
    have hq' : l.fd q = some i := h.open_of_holder q i hq
    have hqp : q ≠ p := by
      rintro rfl
      rw [hp] at hq'
      cases hq'
    simpa [LockFile.openPath, hqp] using hq'
  lt_next := by
    intro i hi
    obtain rfl : l.target = i := Option.some.inj hi
    cases hpath : l.path with
    | none => simp [LockFile.openPath, target, hpath]
    | some j => simpa [LockFile.openPath, target, hpath] using h.lt_next j hpath

theorem flock (h : l.Sound) (hl : l.flock p = some l') : l'.Sound := by
  obtain ⟨i, hi, hl⟩ := Option.bind_eq_some_iff.mp hl
  split at hl
  · obtain rfl := Option.some.inj hl
    refine ⟨h.onPath, fun q j hj => ?_, h.lt_next⟩
    by_cases hji : j = i
    · subst hji
      obtain rfl : p = q := by simpa using hj
      exact hi
    · exact h.open_of_holder q j (by simpa [hji] using hj)
  · cases hl

theorem close [DecidableEq P] (h : l.Sound) (p : P) : (l.close p).Sound where
  onPath := by
    intro q i hq
    by_cases hqp : q = p
    · simp [LockFile.close, hqp] at hq
    · exact h.onPath q i (by simpa [LockFile.close, hqp] using hq)
  open_of_holder := by
    intro q i hq
    simp only [LockFile.close] at hq ⊢
    split at hq
    · cases hq
    · next hne =>
        have hqp : q ≠ p := by
          rintro rfl
          exact hne hq
        simpa [hqp] using h.open_of_holder q i hq
  lt_next := h.lt_next

/-- Removing the path is safe when nobody has the file open. -/
theorem unlink (h : l.Sound) (hopen : ∀ q, l.fd q = none) : l.unlink.Sound where
  onPath := fun q i hq => absurd (hopen q) (by simp [show l.fd q = some i from hq])
  open_of_holder := h.open_of_holder
  lt_next := fun _ hi => nomatch hi

end Sound

/-! ## What the operations do to the holders -/

/-- A process that gets the lock is a new holder; the others are as before. -/
theorem holds_flock_iff {l l' : LockFile P} {p : P} (hl : l.flock p = some l') (q : P) :
    l'.Holds q ↔ l.Holds q ∨ q = p := by
  obtain ⟨i, -, hl⟩ := Option.bind_eq_some_iff.mp hl
  split at hl
  · next hfree =>
      obtain rfl := Option.some.inj hl
      constructor
      · rintro ⟨j, hj⟩
        by_cases hji : j = i
        · subst hji
          exact Or.inr (by simpa using hj.symm)
        · exact Or.inl ⟨j, by simpa [hji] using hj⟩
      · rintro (⟨j, hj⟩ | rfl)
        · have hji : j ≠ i := by
            rintro rfl
            rw [hfree] at hj
            cases hj
          exact ⟨j, by simpa [hji] using hj⟩
        · exact ⟨i, by simp⟩
  · cases hl

theorem holds_close_iff [DecidableEq P] (l : LockFile P) (p q : P) :
    (l.close p).Holds q ↔ l.Holds q ∧ q ≠ p := by
  constructor
  · rintro ⟨j, hj⟩
    simp only [LockFile.close] at hj
    split at hj
    · cases hj
    · next hne =>
        refine ⟨⟨j, hj⟩, ?_⟩
        rintro rfl
        exact hne hj
  · rintro ⟨⟨j, hj⟩, hqp⟩
    have hne : ¬ l.holder j = some p := by
      rw [hj]
      exact fun he => hqp (Option.some.inj he)
    exact ⟨j, (if_neg hne).trans hj⟩

theorem Sound.holder_next {l : LockFile P} (h : l.Sound) : l.holder l.next = none := by
  cases hp : l.holder l.next with
  | none => rfl
  | some p =>
      have hpath := h.onPath p l.next (h.open_of_holder p l.next hp)
      exact absurd (h.lt_next l.next hpath) (Nat.lt_irrefl _)

theorem fd_flock {l l' : LockFile P} {p : P} (h : l.flock p = some l') :
    l'.fd = l.fd := by
  obtain ⟨i, -, h⟩ := Option.bind_eq_some_iff.mp h
  split at h
  · obtain rfl := Option.some.inj h
    rfl
  · cases h

end LockFile

end Library
