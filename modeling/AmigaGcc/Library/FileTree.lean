import Mathlib.Data.List.AList
import AmigaGcc.Library.Mtime

/-!
# Directory trees

A tree is a finite map from paths, lists of names below its root, to files and
directories, in which every path leads through directories. What writes a file
into it is `put`; `rsync` for a single file and `touch` decide where, and
whether it can be done.

A `Slot` is all that these two see of the place for a file of a given name in a
given directory. Copying a file of this name to different directories, whose
paths do not contain the name, acts on the slot of each directory by itself:
`slot_rsync_self` and `slot_rsync_of_ne`.
-/

namespace Library

namespace FileTree

open Mtime

inductive Entry (C : Type*) where
  | file (x : File C)
  | dir
  deriving DecidableEq

/-- With every path the directory it is in is there. The root is the empty path. -/
structure Tree (ν C : Type*) [DecidableEq ν] where
  entries : AList fun _ : List ν => Entry C
  closed : ∀ p ∈ entries.keys, p ≠ [] → entries.lookup p.dropLast = some .dir

variable {ν C : Type*} [DecidableEq ν]

namespace Tree

def entry (t : Tree ν C) (p : List ν) : Option (Entry C) := t.entries.lookup p

def IsDir (t : Tree ν C) (p : List ν) : Prop := t.entry p = some .dir

instance (t : Tree ν C) (p : List ν) : Decidable (t.IsDir p) :=
  match h : t.entry p with
  | some .dir => isTrue h
  | some (.file _) => isFalse fun hdir => nomatch h.symm.trans hdir
  | none => isFalse fun hdir => nomatch h.symm.trans hdir

def Leaf (t : Tree ν C) (p : List ν) : Prop := ∀ q ∈ t.entries.keys, q ≠ [] → q.dropLast ≠ p

instance (t : Tree ν C) (p : List ν) : Decidable (t.Leaf p) :=
  inferInstanceAs (Decidable (∀ q ∈ t.entries.keys, q ≠ [] → q.dropLast ≠ p))

variable {t : Tree ν C} {p q : List ν} {n : ν}

theorem mem_keys_iff : p ∈ t.entries.keys ↔ t.entry p ≠ none := by
  rw [← AList.mem_keys, ← AList.lookup_isSome, Option.isSome_iff_ne_none]
  rfl

theorem parent (h : t.entry (p ++ [n]) ≠ none) : t.IsDir p := by
  have hdir := t.closed (p ++ [n]) (mem_keys_iff.mpr h) (List.concat_ne_nil n p)
  rwa [List.dropLast_concat] at hdir

theorem leaf_iff : t.Leaf p ↔ ∀ n, t.entry (p ++ [n]) = none := by
  constructor
  · intro h n
    by_contra hn
    exact h (p ++ [n]) (mem_keys_iff.mpr hn) (List.concat_ne_nil n p) List.dropLast_concat
  · intro h q hq hne hp
    have hsplit := List.dropLast_append_getLast hne
    rw [hp] at hsplit
    rw [← hsplit] at hq
    exact mem_keys_iff.mp hq (h (q.getLast hne))

theorem leaf_of_not_isDir (h : ¬ t.IsDir p) : t.Leaf p :=
  leaf_iff.mpr fun _ => by_contra fun hn => h (parent hn)

/-- Write a file into a directory, over what is there, unless that is a
directory that is not empty. -/
def put (t : Tree ν C) (d : List ν) (n : ν) (x : File C) (hdir : t.IsDir d)
    (hleaf : t.Leaf (d ++ [n])) : Tree ν C where
  entries := t.entries.insert (d ++ [n]) (.file x)
  closed p hp hne := by
    have hother : ∀ q, t.IsDir q → q ≠ d ++ [n] →
        (t.entries.insert (d ++ [n]) (.file x)).lookup q = some .dir := by
      intro q hq hqd
      rw [AList.lookup_insert_ne hqd]
      exact hq
    rw [← AList.mem_keys, AList.mem_insert] at hp
    rcases hp with rfl | hp
    · rw [List.dropLast_concat]
      exact hother d hdir (by simp)
    · exact hother p.dropLast (t.closed p hp hne) (hleaf p hp hne)

section Put

variable {d : List ν} {x : File C} (hdir : t.IsDir d) (hleaf : t.Leaf (d ++ [n]))

theorem entry_put_self : (t.put d n x hdir hleaf).entry (d ++ [n]) = some (.file x) :=
  AList.lookup_insert t.entries

theorem entry_put_of_ne (h : p ≠ d ++ [n]) : (t.put d n x hdir hleaf).entry p = t.entry p :=
  AList.lookup_insert_ne h

end Put

def file (t : Tree ν C) (p : List ν) : Option (File C) :=
  match t.entry p with
  | some (.file x) => some x
  | _ => none

/-- Write the file of the name `n` in the directory `d`, which fails with 3 if
there is no such directory, and with 23 if a directory that is not empty is in
the way. -/
def send (size : C → ℕ) (x : File C) (d : List ν) (n : ν) (t : Tree ν C) : ℕ × Tree ν C :=
  if hdir : t.IsDir d then
    if hleaf : t.Leaf (d ++ [n]) then
      (0, t.put d n (sync size x (t.file (d ++ [n]))) hdir hleaf)
    else (23, t)
  else (3, t)

/-- `rsync -a` of a single file, which has the name `n`, to the path `dest`. A
directory there gets the file below its name; anything else becomes the file, or
is replaced by it, if there is a directory for it. -/
def rsync (size : C → ℕ) (n : ν) (x : Option (File C)) (dest : List ν) (t : Tree ν C) :
    ℕ × Tree ν C :=
  match x with
  | none => (23, t)
  | some x =>
      if t.IsDir dest then t.send size x dest n
      else
        match dest.getLast? with
        | none => (3, t)
        | some m => t.send size x dest.dropLast m

def touch (empty : C) (now : ℕ) (d : List ν) (n : ν) (t : Tree ν C) : ℕ × Tree ν C :=
  if hdir : t.IsDir d then
    if hleaf : t.IsDir (d ++ [n]) then (0, t)
    else
      let content := ((t.file (d ++ [n])).map File.content).getD empty
      (0, t.put d n ⟨content, now⟩ hdir (leaf_of_not_isDir hleaf))
  else (1, t)

end Tree

/-! ## Slots -/

/-- What stands in the place for a file in a directory. -/
inductive Slot (C : Type*) where
  /-- there is no such directory -/
  | missing
  | free
  | holds (x : File C)
  | emptyDir
  /-- a directory that is not empty -/
  | blocked
  deriving DecidableEq

namespace Slot

def receive (size : C → ℕ) (x : File C) : Slot C → Slot C
  | missing => missing
  | free | emptyDir => holds x
  | holds y => holds (sync size x (some y))
  | blocked => blocked

def touch (empty : C) (now : ℕ) : Slot C → Slot C
  | free => holds ⟨empty, now⟩
  | holds x => holds ⟨x.content, now⟩
  | missing => missing
  | emptyDir => emptyDir
  | blocked => blocked

/-- A file of the content `c`. -/
def Has (c : C) : Slot C → Prop
  | holds x => x.content = c
  | missing | free | emptyDir | blocked => False

/-- Once the file `x` has been copied here, there is one of the content `c`. -/
def Takes (size : C → ℕ) (x : File C) (c : C) : Slot C → Prop
  | free | emptyDir => x.content = c
  | holds y =>
      if size y.content = size x.content ∧ y.mtime = x.mtime then y.content = c
      else x.content = c
  | missing | blocked => False

theorem has_receive_iff (size : C → ℕ) (x : File C) (c : C) (s : Slot C) :
    (s.receive size x).Has c ↔ s.Takes size x c := by
  cases s with
  | missing | free | emptyDir | blocked => exact Iff.rfl
  | holds y =>
      simp only [receive, Has, Takes, sync]
      split <;> exact Iff.rfl

theorem has_touch_iff {empty c : C} (hc : c ≠ empty) (now : ℕ) (s : Slot C) :
    (s.touch empty now).Has c ↔ s.Has c := by
  cases s with
  | missing | emptyDir | blocked | holds x => exact Iff.rfl
  | free => exact iff_of_false (fun h => hc h.symm) id

end Slot

namespace Tree

def slot (t : Tree ν C) (d : List ν) (n : ν) : Slot C :=
  if t.IsDir d then
    match t.entry (d ++ [n]) with
    | none => .free
    | some (.file x) => .holds x
    | some .dir => if t.Leaf (d ++ [n]) then .emptyDir else .blocked
  else .missing

variable {t u : Tree ν C} {d e : List ν} {m n : ν} {x : File C}

theorem slot_eq_holds_iff : t.slot d n = .holds x ↔ t.entry (d ++ [n]) = some (.file x) := by
  constructor
  · intro h
    unfold slot at h
    split at h
    · split at h
      · cases h
      · next hentry =>
          obtain rfl := Slot.holds.inj h
          exact hentry
      · split at h <;> cases h
    · cases h
  · intro h
    have hdir : t.IsDir d := parent (n := n) (by simp [h])
    rw [slot, if_pos hdir, h]

theorem has_slot_iff {c : C} :
    (t.slot d n).Has c ↔ ∃ x, t.entry (d ++ [n]) = some (.file x) ∧ x.content = c := by
  constructor
  · intro h
    cases hslot : t.slot d n with
    | holds x =>
        rw [hslot] at h
        exact ⟨x, slot_eq_holds_iff.mp hslot, h⟩
    | missing | free | emptyDir | blocked =>
        rw [hslot] at h
        exact h.elim
  · rintro ⟨x, hx, rfl⟩
    rw [slot_eq_holds_iff.mpr hx]
    rfl

theorem slot_congr (hdir : t.IsDir d ↔ u.IsDir d)
    (hentry : t.entry (d ++ [n]) = u.entry (d ++ [n]))
    (hbelow : ∀ m, t.entry (d ++ [n] ++ [m]) = u.entry (d ++ [n] ++ [m])) :
    t.slot d n = u.slot d n := by
  have hleaf : t.Leaf (d ++ [n]) ↔ u.Leaf (d ++ [n]) := by
    rw [leaf_iff, leaf_iff]
    exact forall_congr' fun m => by rw [hbelow m]
  simp only [slot, hdir, hentry, hleaf]

section Put

variable (hdir : t.IsDir e) (hleaf : t.Leaf (e ++ [m]))

theorem isDir_put_of_ne (h : e ++ [m] ≠ d) : (t.put e m x hdir hleaf).IsDir d ↔ t.IsDir d := by
  rw [IsDir, IsDir, entry_put_of_ne hdir hleaf h.symm]

theorem slot_put_of_ne (hd : e ++ [m] ≠ d) (hn : e ++ [m] ≠ d ++ [n]) (he : e ≠ d ++ [n]) :
    (t.put e m x hdir hleaf).slot d n = t.slot d n := by
  refine slot_congr (isDir_put_of_ne hdir hleaf hd) (entry_put_of_ne hdir hleaf hn.symm) ?_
  intro k
  refine entry_put_of_ne hdir hleaf fun h => he ?_
  exact (List.append_inj_left' h rfl).symm

end Put

theorem slot_put_self (hdir : t.IsDir d) (hleaf : t.Leaf (d ++ [n])) :
    (t.put d n x hdir hleaf).slot d n = .holds x :=
  slot_eq_holds_iff.mpr (entry_put_self hdir hleaf)

theorem slot_send_of_ne (size : C → ℕ) (hd : e ++ [m] ≠ d) (hn : e ++ [m] ≠ d ++ [n])
    (he : e ≠ d ++ [n]) : (t.send size x e m).2.slot d n = t.slot d n := by
  unfold send
  split
  · next hdir =>
      split
      · next hleaf => exact slot_put_of_ne hdir hleaf hd hn he
      · rfl
  · rfl

/-- The place for the file, when nothing or an empty directory is in the way. -/
theorem receive_slot_of_leaf (size : C → ℕ) (hdir : t.IsDir d) (hleaf : t.Leaf (d ++ [n])) :
    (t.slot d n).receive size x = .holds (sync size x (t.file (d ++ [n]))) := by
  rw [slot, if_pos hdir, file]
  split
  · next hentry => rw [hentry]; rfl
  · next hentry => rw [hentry]; rfl
  · next hentry => rw [hentry, if_pos hleaf]; rfl

theorem slot_of_not_leaf (hdir : t.IsDir d) (hleaf : ¬ t.Leaf (d ++ [n])) :
    t.slot d n = .blocked := by
  have hentry : t.entry (d ++ [n]) = some .dir := by_contra fun h => hleaf (leaf_of_not_isDir h)
  rw [slot, if_pos hdir, hentry]
  exact if_neg hleaf

theorem slot_send_self (size : C → ℕ) :
    (t.send size x d n).2.slot d n = (t.slot d n).receive size x := by
  unfold send
  split
  · next hdir =>
      split
      · next hleaf => rw [slot_put_self, receive_slot_of_leaf size hdir hleaf]
      · next hleaf => rw [slot_of_not_leaf hdir hleaf]; rfl
  · next hdir => rw [slot, if_neg hdir]; rfl

theorem not_isDir_send (size : C → ℕ) (h : ¬ t.IsDir (e ++ [m])) :
    ¬ (t.send size x e m).2.IsDir (e ++ [m]) := by
  unfold send
  split
  · next hdir =>
      split
      · next hleaf =>
          rw [IsDir, entry_put_self hdir hleaf]
          exact nofun
      · exact h
  · exact h

theorem slot_of_not_isDir (h : ¬ t.IsDir d) : t.slot d n = .missing := if_neg h

/-- A single file copied to the directory goes into its slot. -/
theorem slot_rsync_self (size : C → ℕ) :
    (t.rsync size n (some x) d).2.slot d n = (t.slot d n).receive size x := by
  simp only [rsync]
  split
  · exact slot_send_self size
  · next hdir =>
      rw [slot_of_not_isDir hdir]
      split
      · exact slot_of_not_isDir hdir
      · next m hm =>
          obtain ⟨e, rfl⟩ := List.getLast?_eq_some_iff.mp hm
          rw [List.dropLast_concat]
          exact slot_of_not_isDir (not_isDir_send size hdir)

/-- A file of the name `n` below `e` is neither `d`, nor in its slot, nor below it. -/
theorem apart_of_not_mem {α : Type*} {d e : List α} {n : α} (hd : n ∉ d) (he : n ∉ e)
    (hne : d ≠ e) :
    e ++ [n] ≠ d ∧ e ++ [n] ≠ d ++ [n] ∧ e ≠ d ++ [n] :=
  ⟨fun h => hd (h ▸ List.mem_concat_self), fun h => hne (List.append_inj_left' h rfl).symm,
    fun h => he (h ▸ List.mem_concat_self)⟩

theorem slot_rsync_of_ne (size : C → ℕ) (y : Option (File C)) (hd : n ∉ d) (he : n ∉ e)
    (hne : d ≠ e) : (t.rsync size n y e).2.slot d n = t.slot d n := by
  obtain ⟨hd', hn, hroot⟩ := apart_of_not_mem hd he hne
  cases y with
  | none => rfl
  | some x =>
      simp only [rsync]
      split
      · exact slot_send_of_ne size hd' hn hroot
      · split
        · rfl
        · next m hm =>
            obtain ⟨e, rfl⟩ := List.getLast?_eq_some_iff.mp hm
            rw [List.dropLast_concat]
            have he' : e ≠ d ++ [n] := fun h =>
              he (List.mem_append_left [m] (h ▸ List.mem_concat_self))
            exact slot_send_of_ne size hne.symm hroot he'

theorem slot_touch_self (empty : C) (now : ℕ) :
    (t.touch empty now d n).2.slot d n = (t.slot d n).touch empty now := by
  unfold touch
  split
  · next hdir =>
      split
      · next hentry =>
          rw [slot, if_pos hdir, hentry]
          dsimp only
          split <;> rfl
      · next hentry =>
          rw [slot_put_self, slot, if_pos hdir, file]
          cases hcase : t.entry (d ++ [n]) with
          | none => rfl
          | some z =>
              cases z with
              | file x => rfl
              | dir => exact absurd hcase hentry
  · next hdir => rw [slot_of_not_isDir hdir]; rfl

theorem slot_touch_of_ne (empty : C) (now : ℕ) (hd : n ∉ d) (he : n ∉ e) (hne : d ≠ e) :
    (t.touch empty now e n).2.slot d n = t.slot d n := by
  unfold touch
  split
  · next hdir =>
      split
      · rfl
      · next hleaf =>
          obtain ⟨hd', hn, he'⟩ := apart_of_not_mem hd he hne
          exact slot_put_of_ne hdir (leaf_of_not_isDir hleaf) hd' hn he'
  · rfl

end Tree

end FileTree

end Library
