import Mathlib.Data.Finset.Insert
import AmigaGcc.Library.LockFile
import AmigaGcc.Library.Transition

/-!
# The lock around `libstubs.a`

The `stubs` directive of `sdk/install` adds one object to `libstubs.a` with

    (
      flock -x 200
      ar r libstubs.a name.o || exit 1
    ) 200>/tmp/amiga-gcc-libstubs-lock
    rm -f /tmp/amiga-gcc-libstubs-lock

Here any number of installs run it side by side, each any number of times. The
`rm -f` comes after the lock is released, so it can take the path away from a
process that waits on the old inode while the next one locks a new inode.
`stubs_exclusive_of_rmAlone` says that this is all that can go wrong.
-/

namespace AmigaGcc

namespace Sdk

open Library

/-- Where an install is in the `stubs` directive for the object `o`. -/
inductive Pc (Obj : Type*) where
  | idle
  /-- the redirection has opened the lock file -/
  | opened (o : Obj)
  /-- `flock -x 200` has returned -/
  | locked (o : Obj)
  /-- `ar` has read the archive -/
  | read (o : Obj) (members : Finset Obj)
  /-- `ar` has ended -/
  | done (o : Obj)
  /-- the subshell is left, and with it the descriptor closed -/
  | closed (o : Obj)
  deriving DecidableEq

/-- Between the redirection and the end of the subshell. -/
def Pc.hasOpen {Obj : Type*} : Pc Obj → Bool
  | idle | closed _ => false
  | opened _ | locked _ | read _ _ | done _ => true

/-- Between `flock` and the end of the subshell. -/
def Pc.inSection {Obj : Type*} : Pc Obj → Bool
  | idle | opened _ | closed _ => false
  | locked _ | read _ _ | done _ => true

/-- The lock file, the installs, the members of `libstubs.a`, and the objects of
the `ar` runs that ended well. -/
structure Stubs (P Obj : Type*) where
  lock : LockFile P
  pc : P → Pc Obj
  members : Finset Obj
  added : Finset Obj

/-- The steps of the directive, each by the install `p`. -/
inductive Event (P Obj : Type*) where
  | openLock (p : P) (o : Obj)
  | flock (p : P)
  | arRead (p : P)
  | arWrite (p : P)
  | arFail (p : P)
  | close (p : P)
  | rm (p : P)

namespace Stubs

variable {P Obj : Type*}

def initial (lock : Option ℕ) (members : Finset Obj) : Stubs P Obj where
  lock := LockFile.initial lock
  pc := fun _ => .idle
  members := members
  added := ∅

/-- The install `p` goes to `c`, with the lock file as in `l`. -/
def move [DecidableEq P] (s : Stubs P Obj) (p : P) (c : Pc Obj) (l : LockFile P) : Stubs P Obj where
  lock := l
  pc := Function.update s.pc p c
  members := s.members
  added := s.added

/-- `ar` writes the members it has read with the object `o`. -/
def write [DecidableEq P] [DecidableEq Obj] (s : Stubs P Obj) (p : P) (o : Obj)
    (m : Finset Obj) : Stubs P Obj where
  lock := s.lock
  pc := Function.update s.pc p (.done o)
  members := insert o m
  added := insert o s.added

def step [DecidableEq P] [DecidableEq Obj] (s : Stubs P Obj) :
    Event P Obj → Option (Stubs P Obj)
  | .openLock p o =>
      match s.pc p with
      | .idle => some (s.move p (.opened o) (s.lock.openPath p))
      | _ => none
  | .flock p =>
      match s.pc p with
      | .opened o => (s.lock.flock p).map (s.move p (.locked o))
      | _ => none
  | .arRead p =>
      match s.pc p with
      | .locked o => some (s.move p (.read o s.members) s.lock)
      | _ => none
  | .arWrite p =>
      match s.pc p with
      | .read o m => some (s.write p o m)
      | _ => none
  | .arFail p =>
      -- `|| exit 1` leaves the subshell only
      match s.pc p with
      | .locked o | .read o _ => some (s.move p (.done o) s.lock)
      | _ => none
  | .close p =>
      match s.pc p with
      | .done o => some (s.move p (.closed o) (s.lock.close p))
      | _ => none
  | .rm p =>
      match s.pc p with
      | .closed _ => some (s.move p .idle s.lock.unlink)
      | _ => none

/-- At most one install is between `flock` and `close`, and no object that was
added is missing from the archive. -/
structure Safe (s : Stubs P Obj) : Prop where
  exclusive : ∀ p q, (s.pc p).inSection → (s.pc q).inSection → p = q
  kept : s.added ⊆ s.members

/-- The lock path is removed only while no install has the lock file open. -/
def RmAlone (s : Stubs P Obj) : Event P Obj → Prop
  | .rm _ => ∀ q, (s.pc q).hasOpen = false
  | _ => True

/-- What holds in every state as long as the lock path is removed in peace. -/
structure Inv (s : Stubs P Obj) : Prop where
  sound : s.lock.Sound
  opened : ∀ p, (s.pc p).hasOpen = false ↔ s.lock.fd p = none
  holds : ∀ p, (s.pc p).inSection = true ↔ s.lock.Holds p
  snapshot : ∀ p o m, s.pc p = .read o m → m = s.members
  kept : s.added ⊆ s.members

namespace Inv

variable {s : Stubs P Obj}

theorem initial (lock : Option ℕ) (members : Finset Obj) :
    Inv (initial lock members : Stubs P Obj) where
  sound := .initial lock
  opened := fun _ => ⟨fun _ => rfl, fun _ => rfl⟩
  holds := fun _ => ⟨fun h => (nomatch h), fun ⟨_, h⟩ => (nomatch h)⟩
  snapshot := fun _ _ _ h => nomatch h
  kept := Finset.empty_subset _

theorem exclusive (h : Inv s) {p q : P} (hp : (s.pc p).inSection = true)
    (hq : (s.pc q).inSection = true) : p = q :=
  h.sound.exclusive ((h.holds p).mp hp) ((h.holds q).mp hq)

theorem safe (h : Inv s) : Safe s where
  exclusive := fun _ _ hp hq => h.exclusive hp hq
  kept := h.kept

/-! ## One step -/

variable [DecidableEq P]

/-- A step of `p` that leaves the archive alone keeps the invariant if it keeps
what the other installs have open and hold. -/
theorem move (h : Inv s) {p : P} {c : Pc Obj} {l : LockFile P} (hl : l.Sound)
    (hopen : c.hasOpen = false ↔ l.fd p = none) (hfd : ∀ q, q ≠ p → l.fd q = s.lock.fd q)
    (hin : c.inSection = true ↔ l.Holds p)
    (hholds : ∀ q, q ≠ p → (l.Holds q ↔ s.lock.Holds q))
    (hread : ∀ o m, c = .read o m → m = s.members) : Inv (s.move p c l) where
  sound := hl
  opened := by
    intro q
    by_cases hqp : q = p
    · subst hqp
      simpa [Stubs.move] using hopen
    · simpa [Stubs.move, hqp, hfd q hqp] using h.opened q
  holds := by
    intro q
    by_cases hqp : q = p
    · subst hqp
      simpa [Stubs.move] using hin
    · simpa [Stubs.move, hqp, hholds q hqp] using h.holds q
  snapshot := by
    intro q o m hq
    by_cases hqp : q = p
    · subst hqp
      exact hread o m (by simpa [Stubs.move] using hq)
    · exact h.snapshot q o m (by simpa [Stubs.move, hqp] using hq)
  kept := h.kept

/-- Only the install in the section has read the archive, so what it writes
back has lost nothing. -/
theorem write [DecidableEq Obj] (h : Inv s) {p : P} {o : Obj} {m : Finset Obj}
    (hp : s.pc p = .read o m) : Inv (s.write p o m) where
  sound := h.sound
  opened := by
    intro q
    by_cases hqp : q = p
    · subst hqp
      have hq := h.opened q
      rw [hp] at hq
      simpa [Stubs.write, Pc.hasOpen] using hq
    · simpa [Stubs.write, hqp] using h.opened q
  holds := by
    intro q
    by_cases hqp : q = p
    · subst hqp
      have hq := h.holds q
      rw [hp] at hq
      simpa [Stubs.write, Pc.inSection] using hq
    · simpa [Stubs.write, hqp] using h.holds q
  snapshot := by
    intro q o' m' hq
    have hqp : q ≠ p := by
      rintro rfl
      simp [Stubs.write] at hq
    have hq' : s.pc q = .read o' m' := by simpa [Stubs.write, hqp] using hq
    exact absurd (h.exclusive (by rw [hq']; rfl) (by rw [hp]; rfl)) hqp
  kept := by
    rw [Stubs.write, h.snapshot p o m hp]
    exact Finset.insert_subset_insert o h.kept

/-- Every step keeps the invariant, a `rm` if nobody has the lock file open. -/
theorem step [DecidableEq Obj] {t : Stubs P Obj} (e : Event P Obj) (h : Inv s)
    (hrm : RmAlone s e) (ht : s.step e = some t) : Inv t := by
  cases e with
  | openLock p o =>
      simp only [Stubs.step] at ht
      split at ht
      · next hp =>
          obtain rfl := Option.some.inj ht
          have hfd : s.lock.fd p = none := (h.opened p).mp (by rw [hp]; rfl)
          have hin := h.holds p
          rw [hp] at hin
          refine h.move (h.sound.openPath hfd) ?_ ?_ hin (fun _ _ => Iff.rfl)
            (fun _ _ => by simp)
          · simp [LockFile.openPath, Pc.hasOpen]
          · intro q hq
            simp [LockFile.openPath, hq]
      · cases ht
  | flock p =>
      simp only [Stubs.step] at ht
      split at ht
      · next o hp =>
          obtain ⟨l, hl, rfl⟩ := Option.map_eq_some_iff.mp ht
          have hfd := LockFile.fd_flock hl
          have hopen := h.opened p
          rw [hp, ← hfd] at hopen
          refine h.move (h.sound.flock hl) hopen (fun q _ => congrFun hfd q) ?_ ?_
            (fun _ _ => by simp)
          · simp [LockFile.holds_flock_iff hl, Pc.inSection]
          · intro q hq
            simp [LockFile.holds_flock_iff hl, hq]
      · cases ht
  | arRead p =>
      simp only [Stubs.step] at ht
      split at ht
      · next o hp =>
          obtain rfl := Option.some.inj ht
          have hopen := h.opened p
          have hin := h.holds p
          rw [hp] at hopen hin
          refine h.move h.sound hopen (fun _ _ => rfl) hin (fun _ _ => Iff.rfl) ?_
          rintro o' m' hc
          cases hc
          rfl
      · cases ht
  | arWrite p =>
      simp only [Stubs.step] at ht
      split at ht
      · next o m hp =>
          obtain rfl := Option.some.inj ht
          exact h.write hp
      · cases ht
  | arFail p =>
      have hopen := h.opened p
      have hin := h.holds p
      simp only [Stubs.step] at ht
      split at ht
      · next o hp =>
          obtain rfl := Option.some.inj ht
          rw [hp] at hopen hin
          exact h.move h.sound hopen (fun _ _ => rfl) hin (fun _ _ => Iff.rfl)
            (fun _ _ => by simp)
      · next o m hp =>
          obtain rfl := Option.some.inj ht
          rw [hp] at hopen hin
          exact h.move h.sound hopen (fun _ _ => rfl) hin (fun _ _ => Iff.rfl)
            (fun _ _ => by simp)
      · cases ht
  | close p =>
      simp only [Stubs.step] at ht
      split at ht
      · obtain rfl := Option.some.inj ht
        refine h.move (h.sound.close p) ?_ ?_ ?_ ?_ (fun _ _ => by simp)
        · simp [LockFile.close, Pc.hasOpen]
        · intro q hq
          simp [LockFile.close, hq]
        · simp [LockFile.holds_close_iff, Pc.inSection]
        · intro q hq
          simp [LockFile.holds_close_iff, hq]
      · cases ht
  | rm p =>
      simp only [Stubs.step] at ht
      split at ht
      · next o hp =>
          obtain rfl := Option.some.inj ht
          have hshut : ∀ q, s.lock.fd q = none := fun q => (h.opened q).mp (hrm q)
          have hin := h.holds p
          rw [hp] at hin
          exact h.move (h.sound.unlink hshut) ⟨fun _ => hshut p, fun _ => rfl⟩ (fun _ _ => rfl)
            hin (fun _ _ => Iff.rfl) (fun _ _ => by simp)
      · cases ht

end Inv

/-! ## Runs -/

variable [DecidableEq P] [DecidableEq Obj]

/-- After a `rm` while somebody has the lock file open, the same install can lock
a new inode next to the holder of the old one. -/
theorem unsafe_of_rm {s : Stubs P Obj} (h : Inv s) {p q : P} {o : Obj}
    (hp : s.pc p = .closed o) (hq : (s.pc q).hasOpen = true) :
    ∃ fs t, Transition.run step s (.rm p :: fs) = some t ∧ ¬ Safe t := by
  have hqp : q ≠ p := by
    rintro rfl
    rw [hp] at hq
    cases hq
  obtain ⟨i, hi⟩ : ∃ i, s.lock.fd q = some i := by
    apply Option.ne_none_iff_exists'.mp
    intro hnone
    rw [(h.opened q).mpr hnone] at hq
    cases hq
  have hin : i ≠ s.lock.next := Nat.ne_of_lt (h.sound.lt_next i (h.sound.onPath q i hi))
  -- `p` opens the path again and locks the inode it has created
  let l : LockFile P :=
    { path := some s.lock.next, next := s.lock.next + 1
      holder := Function.update s.lock.holder s.lock.next (some p)
      fd := Function.update s.lock.fd p (some s.lock.next) }
  let u : Stubs P Obj := ⟨l, Function.update s.pc p (.locked o), s.members, s.added⟩
  have hu : Transition.run step s [.rm p, .openLock p o, .flock p] = some u := by
    simp [Transition.run, step, hp, move, LockFile.unlink, LockFile.openPath, LockFile.flock,
      LockFile.target, h.sound.holder_next, u, l]
  have hup : (u.pc p).inSection = true := by simp [u, Pc.inSection]
  -- any other install in the section makes the state unsafe
  have hunsafe : ∀ r, r ≠ p → (s.pc r).inSection = true → ¬ Safe u := by
    intro r hr hsec hsafe
    exact hr (hsafe.exclusive r p (by simpa [u, hr] using hsec) hup)
  by_cases hsec : (s.pc q).inSection = true
  · exact ⟨_, u, hu, hunsafe q hqp hsec⟩
  · obtain ⟨o', ho'⟩ : ∃ o', s.pc q = .opened o' := by
      cases hc : s.pc q <;> simp_all [Pc.hasOpen, Pc.inSection]
    cases hfree : s.lock.holder i with
    | some r =>
        have hr : (s.pc r).inSection = true := (h.holds r).mpr ⟨i, hfree⟩
        have hrp : r ≠ p := by
          rintro rfl
          rw [hp] at hr
          cases hr
        exact ⟨_, u, hu, hunsafe r hrp hr⟩
    | none =>
        -- nobody holds the old inode, so `q` gets it
        have hflock : ∃ t, u.step (.flock q) = some t ∧ (t.pc q).inSection = true ∧
            t.pc p = .locked o := by
          simp [step, u, l, hqp, ho', hi, hin, hfree, LockFile.flock, move, Pc.inSection,
            Ne.symm hqp]
        obtain ⟨t, ht, htq, htp⟩ := hflock
        refine ⟨[.openLock p o, .flock p, .flock q], t, ?_, fun hsafe => ?_⟩
        · have happ := Transition.run_append step s [.rm p, .openLock p o, .flock p] [.flock q]
          simp only [List.cons_append, List.nil_append] at happ
          rw [happ, hu, Option.bind_some, Transition.run_cons, ht]
          rfl
        · exact hqp (hsafe.exclusive q p htq (by rw [htp]; rfl))

/-- With any number of installs and any interleaving: as long as the lock path
is removed only while nobody has the lock file open, the installs exclude each
other and no object is lost. The first removal next to an open lock file can be
followed by two installs in the section. -/
theorem stubs_exclusive_of_rmAlone (lock : Option ℕ) (members : Finset Obj) :
    (∀ es : List (Event P Obj),
      Transition.Throughout step RmAlone (initial lock members) es →
        Transition.Always step Safe (initial lock members) es) ∧
    (∀ (es : List (Event P Obj)) (s : Stubs P Obj) (p : P),
      Transition.Throughout step RmAlone (initial lock members) es →
        Transition.run step (initial lock members) es = some s →
        (s.step (.rm p)).isSome → ¬ RmAlone s (.rm p) →
        ∃ fs t, Transition.run step s (.rm p :: fs) = some t ∧ ¬ Safe t) := by
  have hinv : ∀ es : List (Event P Obj),
      Transition.Throughout step RmAlone (initial lock members) es →
        Transition.Always step Inv (initial lock members) es := fun es h =>
    Transition.always_of_throughout (fun s e t hs hrm ht => hs.step e hrm ht)
      (Inv.initial lock members) h
  constructor
  · intro es h
    exact (hinv es h).mono fun s hs => hs.safe
  · intro es s p h hs hp hrm
    have hI : Inv s := (Transition.always_iff_forall_prefix step Inv _ es).mp (hinv es h) es s
      (List.prefix_refl es) hs
    obtain ⟨q, hq⟩ := not_forall.mp hrm
    cases hc : s.pc p with
    | closed o => exact unsafe_of_rm hI hc (Bool.eq_true_of_not_eq_false hq)
    | idle | opened _ | locked _ | read _ _ | done _ => simp [step, hc] at hp

/-- The steps of an undisturbed `stubs` directive of the install `p`. -/
def directive (p : P) (o : Obj) : List (Event P Obj) :=
  [.openLock p o, .flock p, .arRead p, .arWrite p, .close p, .rm p]

/-- One install alone removes the path in peace; a second one that has opened it
before is in the way. -/
theorem stubs_exclusive_of_rmAlone_two :
    Transition.Always step Safe (initial none ∅ : Stubs (Fin 2) (Fin 2)) (directive 0 0) ∧
      ∃ s, Transition.run step (initial none ∅ : Stubs (Fin 2) (Fin 2))
          [.openLock 0 0, .flock 0, .openLock 1 1, .arRead 0, .arWrite 0, .close 0] = some s ∧
        ∃ fs t, Transition.run step s (.rm 0 :: fs) = some t ∧ ¬ Safe t := by
  constructor
  · apply (stubs_exclusive_of_rmAlone none ∅).1 (directive 0 0)
    simp only [directive]
    iterate 5 refine (Transition.throughout_cons_some rfl _ _).mpr ⟨trivial, ?_⟩
    refine (Transition.throughout_cons_some rfl _ _).mpr ⟨?_, trivial⟩
    show ∀ q : Fin 2, _ = false
    decide
  · refine ⟨_, rfl, (stubs_exclusive_of_rmAlone none ∅).2
      [.openLock 0 0, .flock 0, .openLock 1 1, .arRead 0, .arWrite 0, .close 0] _ 0 ?_ rfl ?_ ?_⟩
    · iterate 6 refine (Transition.throughout_cons_some rfl _ _).mpr ⟨trivial, ?_⟩
      trivial
    · rfl
    · exact fun h => absurd (h 1) (by decide)

/-- Three installs. The second waits on the inode that the first one removes, the
third locks a new inode, and the object of the second one is lost. -/
theorem stubs_lose_update :
    (∃ t, Transition.run step (initial none ∅ : Stubs (Fin 3) (Fin 3))
        [.openLock 0 0, .openLock 1 1, .flock 0, .arRead 0, .arWrite 0, .close 0, .flock 1,
          .rm 0, .openLock 2 2, .flock 2] = some t ∧
      (t.pc 1).inSection ∧ (t.pc 2).inSection) ∧
    (∃ t, Transition.run step (initial none ∅ : Stubs (Fin 3) (Fin 3))
        [.openLock 0 0, .openLock 1 1, .flock 0, .arRead 0, .arWrite 0, .close 0, .flock 1,
          .rm 0, .openLock 2 2, .flock 2, .arRead 1, .arRead 2, .arWrite 1, .arWrite 2,
          .close 1, .close 2, .rm 1, .rm 2] = some t ∧
      (∀ p, t.pc p = .idle) ∧ ¬ t.added ⊆ t.members) :=
  ⟨⟨_, rfl, by decide, by decide⟩, ⟨_, rfl, by decide, by decide⟩⟩

end Stubs

end Sdk

end AmigaGcc
