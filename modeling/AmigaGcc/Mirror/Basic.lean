import Mathlib.Data.Finset.Insert
import Mathlib.Logic.Function.Basic
import AmigaGcc.Library.Mtime
import AmigaGcc.Library.Transition

/-!
# Projects that are built in a mirrored tree

Some projects cannot be built outside of their source directory. Their rules copy
the sources from `$(PROJECTS)/P` to `$(BUILD)/P` with `rsync -a` and run a
sub-make there. Which rule copies, which sources it depends on, and which files
the copy takes, differs from project to project: `Project` holds these
differences, and `make` is `make P` for any of them.

A round is some edits followed by a `make P`. `Current` says what a round should
leave: the last sub-make has seen the sources as they are. `Fresh` is the exact
condition for it on one round, and `current_always_iff` carries it to all runs.
-/

namespace AmigaGcc

namespace Mirror

open Library Mtime

abbrev Path := List String

abbrev Content := List UInt8

abbrev makefile : Path := ["Makefile"]

/-- What the rule of the copy does behind the `rsync`. -/
inductive Finish where
  | nothing
  /-- `touch $(BUILD)/P/Makefile` -/
  | touch
  /-- `cd $(BUILD)/P && configure` -/
  | configure
  deriving DecidableEq, Repr

/-- Where the Makefile copies the sources. -/
inductive Copy where
  /-- In a rule of its own for `$(BUILD)/P/Makefile`, which depends on the sources
  `deps`, and on targets of other projects if `others`. -/
  | own (deps : Path → Bool) (others : Bool) (finish : Finish)
  /-- In the rule that runs the sub-make. The copied files in `drops` are deleted
  again. -/
  | within (drops : Path → Bool)

/-- The rules of a project. Paths of sources start below `$(PROJECTS)/P`, those of
the mirror below `$(BUILD)/P`. -/
structure Project where
  /-- the source directory that is mirrored -/
  root : Path
  /-- the source whose rule clones the project -/
  key : Path
  /-- the sources that `find` lists -/
  listed : Path → Bool
  /-- the files below `root` that the copy takes -/
  takes : Path → Bool
  copy : Copy
  /-- the sources on which the rule with the sub-make depends -/
  deps : Path → Bool
  /-- the files that this rule writes between two sub-makes, where it runs two -/
  between : Option (Path → Bool)
  /-- one of the two rules depends on every listed source -/
  covered : ∀ f, listed f = true → deps f = true ∨
    ∃ d o t, copy = .own d o t ∧ d f = true
  takes_makefile : takes makefile = true

/-- The last run of the sub-make: the time of the target of its rule, and the
contents found in the mirror when the sub-makes of the rule were started. -/
structure Build where
  time : ℕ
  seen : List (Path → Option Content)

/-- The source directory, its mirror, and the last build. -/
structure Tree where
  now : ℕ
  files : Finset Path
  file : Path → File Content
  mirror : Path → Option (File Content)
  built : Option Build

structure Sources (p : Project) where
  now : ℕ
  files : Finset Path
  file : Path → File Content
  key_mem : p.key ∈ files
  mtime_le : ∀ f ∈ files, (file f).mtime ≤ now

def Sources.initial {p : Project} (s : Sources p) : Tree where
  now := s.now
  files := s.files
  file := s.file
  mirror := fun _ => none
  built := none

/-- Some edits and a `make P`. What configure and the sub-make do to the mirror is
open. -/
structure Round where
  edits : List (Path × Content)
  /-- a target of another project is newer -/
  others : Bool
  /-- the files configure writes -/
  configured : Path → Option Content
  /-- the files the first of two sub-makes writes or deletes -/
  prepared : Path → Option (Option Content)
  /-- what is written between them -/
  generated : Path → Content
  /-- the files the last sub-make writes or deletes -/
  worked : Path → Option (Option Content)

namespace Tree

/-- Write the source `e.1`, now. -/
def edit (s : Tree) (e : Path × Content) : Tree :=
  { s with
    now := s.now + 1
    files := insert e.1 s.files
    file := Function.update s.file e.1 ⟨e.2, s.now + 1⟩ }

def edits (s : Tree) (es : List (Path × Content)) : Tree := es.foldl edit s

def held (s : Tree) (g : Path) : Option Content := (s.mirror g).map File.content

/-- The time of `$(BUILD)/P/Makefile`. -/
def makefileTime (s : Tree) : Option ℕ := (s.mirror makefile).map File.mtime

def overwrite (s : Tree) (writes : Path → Option (Option Content)) : Tree :=
  { s with
    mirror := fun g =>
      match writes g with
      | none => s.mirror g
      | some c => c.map fun c => ⟨c, s.now + 1⟩ }

end Tree

namespace Project

variable (p : Project)

/-- A listed source, at the path `g` of the mirrored directory. -/
def Source (s : Tree) (g : Path) : Prop :=
  p.root ++ g ∈ s.files ∧ p.listed (p.root ++ g) = true

/-- The rule with the sub-make has something to do for its own prerequisites. -/
def overdue (s : Tree) : Bool :=
  decide (Outdated (s.built.map Build.time) (s.files.filter fun f => p.deps f) s.file)

def copies (s : Tree) (r : Round) : Bool :=
  match p.copy with
  | .own deps others _ =>
      decide (Outdated s.makefileTime (s.files.filter fun f => deps f) s.file) ||
        others && r.others
  | .within _ => p.overdue s || r.others

/-- The sub-make is run. A rule of its own for the copy makes its target a
prerequisite. -/
def builds (s : Tree) (r : Round) : Bool :=
  match p.copy with
  | .own _ _ _ =>
      p.copies s r || p.overdue s ||
        decide (∃ t ∈ s.makefileTime, ∃ b ∈ s.built, b.time < t)
  | .within _ => p.copies s r

/-- `rsync -a` -/
def rsync (s : Tree) : Path → Option (File Content) := fun g =>
  if p.root ++ g ∈ s.files ∧ p.takes g then
    some (sync List.length (s.file (p.root ++ g)) (s.mirror g))
  else s.mirror g

/-- What follows the `rsync` in its rule, at the time `t`. -/
def settle (r : Round) (t : ℕ) (m : Path → Option (File Content)) :
    Path → Option (File Content) :=
  match p.copy with
  | .own _ _ .nothing => m
  | .own _ _ .touch =>
      Function.update m makefile (some ⟨((m makefile).map File.content).getD [], t⟩)
  | .own _ _ .configure => fun g =>
      match r.configured g with
      | none => m g
      | some c => some ⟨c, t⟩
  | .within drops => fun g => if drops g then none else m g

def refresh (r : Round) (s : Tree) : Tree :=
  { s with now := s.now + 1, mirror := p.settle r (s.now + 1) (p.rsync s) }

/-- The rule of the sub-make, up to its last sub-make. -/
def prepare (r : Round) (s : Tree) : Tree :=
  match p.between with
  | none => s
  | some writes => s.overwrite fun g =>
      if writes g then some (some (r.generated g)) else r.prepared g

/-- The rule of the sub-make, up to its target. -/
def build (r : Round) (s : Tree) : Tree :=
  { (p.prepare r s).overwrite r.worked with
    now := s.now + 2
    built := some ⟨s.now + 2, [s.held, (p.prepare r s).held]⟩ }

def make (r : Round) (s : Tree) : Tree :=
  let s₁ := if p.copies s r then p.refresh r s else s
  if p.builds s r then p.build r s₁ else s₁

def step (s : Tree) (r : Round) : Option Tree :=
  some (p.make r (s.edits r.edits))

/-- The last sub-makes have found every source with the content it has now. -/
def Current (s : Tree) : Prop :=
  ∀ b ∈ s.built, ∀ g, p.Source s g →
    ∀ seen ∈ b.seen, seen g = some (s.file (p.root ++ g)).content

def Held (s : Tree) (g : Path) : Prop := s.held g = some (s.file (p.root ++ g)).content

/-- The rule of the copy leaves the source `g` with its content in the mirror: the
copy takes it, or it is there already, and what follows does not spoil it. -/
def Arrives (s : Tree) (r : Round) (g : Path) : Prop :=
  match p.copy with
  | .own _ _ .configure =>
      r.configured g = some (s.file (p.root ++ g)).content ∨
        r.configured g = none ∧ (p.takes g = true ∨ p.Held s g)
  | .own _ _ _ => p.takes g = true ∨ p.Held s g
  | .within drops => drops g = false ∧ (p.takes g = true ∨ p.Held s g)

/-- The copy in the mirror has still the time of the source, or an edit has left the
content that is there. -/
def Unedited (s : Tree) (g : Path) : Prop :=
  ∃ y ∈ s.mirror g, y.mtime = (s.file (p.root ++ g)).mtime ∨
    y.content = (s.file (p.root ++ g)).content

/-- What is written in front of the last sub-make leaves the source `g` as it is. -/
def Spares (s : Tree) (r : Round) (g : Path) : Prop :=
  ∀ writes ∈ p.between,
    if writes g then r.generated g = (s.file (p.root ++ g)).content
    else ∀ c ∈ r.prepared g, c = some (s.file (p.root ++ g)).content

/-- When the sources are copied, they all arrive; when the sub-make is run without
that, they have not been edited since. Between two sub-makes none is spoiled. -/
def Fresh (s : Tree) (r : Round) : Prop :=
  p.builds s r = true → ∀ g, p.Source s g →
    (if p.copies s r then p.Arrives s r g else p.Unedited s g) ∧ p.Spares s r g

@[simp] theorem now_prepare (r : Round) (s : Tree) : (p.prepare r s).now = s.now := by
  rw [prepare]
  split <;> rfl

@[simp] theorem files_prepare (r : Round) (s : Tree) : (p.prepare r s).files = s.files := by
  rw [prepare]
  split <;> rfl

@[simp] theorem file_prepare (r : Round) (s : Tree) : (p.prepare r s).file = s.file := by
  rw [prepare]
  split <;> rfl

@[simp] theorem now_build (r : Round) (s : Tree) : (p.build r s).now = s.now + 2 := rfl

@[simp] theorem files_build (r : Round) (s : Tree) : (p.build r s).files = s.files :=
  p.files_prepare r s

@[simp] theorem file_build (r : Round) (s : Tree) : (p.build r s).file = s.file :=
  p.file_prepare r s

@[simp] theorem built_build (r : Round) (s : Tree) :
    (p.build r s).built = some ⟨s.now + 2, [s.held, (p.prepare r s).held]⟩ := rfl

end Project

/-! ## Times -/

/-- Nothing is newer than the present, and a file of the mirror with the time of
its source has its content. -/
structure Inv (p : Project) (s : Tree) : Prop where
  file_le : ∀ f ∈ s.files, (s.file f).mtime ≤ s.now
  mirror_le : ∀ g, ∀ y ∈ s.mirror g, y.mtime ≤ s.now
  coherent : ∀ g, p.root ++ g ∈ s.files → Coherent (s.file (p.root ++ g)) (s.mirror g)
  built_le : ∀ b ∈ s.built, b.time ≤ s.now

namespace Inv

variable {p : Project} {s : Tree}

theorem initial (s : Sources p) : Inv p s.initial where
  file_le := s.mtime_le
  mirror_le := fun _ _ h => nomatch h
  coherent := fun _ _ _ h => nomatch h
  built_le := fun _ h => nomatch h

theorem edit (h : Inv p s) (e : Path × Content) : Inv p (s.edit e) where
  file_le := by
    intro f hf
    by_cases hfe : f = e.1
    · subst hfe
      simp [Tree.edit]
    · have hmem : f ∈ s.files := by simpa [Tree.edit, hfe] using hf
      simpa [Tree.edit, hfe] using Nat.le_succ_of_le (h.file_le f hmem)
  mirror_le := fun g y hy => Nat.le_succ_of_le (h.mirror_le g y hy)
  coherent := by
    intro g hg
    by_cases hge : p.root ++ g = e.1
    · apply coherent_of_ne
      intro z hz
      have hle := h.mirror_le g z hz
      simp only [Tree.edit, hge, Function.update_self]
      omega
    · have hmem : p.root ++ g ∈ s.files := by simpa [Tree.edit, hge] using hg
      simpa [Tree.edit, hge] using h.coherent g hmem
  built_le := fun b hb => Nat.le_succ_of_le (h.built_le b hb)

theorem edits (h : Inv p s) (es : List (Path × Content)) : Inv p (s.edits es) := by
  induction es generalizing s with
  | nil => exact h
  | cons e es ih => exact ih (h.edit e)

/-- A step that leaves the sources alone, and the files of the mirror as they are,
as their sources are, or with a time that no source has. -/
theorem write {t : Tree} (h : Inv p s) (hfiles : t.files = s.files) (hfile : t.file = s.file)
    (hnow : s.now ≤ t.now)
    (hmirror : ∀ g, ∀ y ∈ t.mirror g, y ∈ s.mirror g ∨
      (p.root ++ g ∈ s.files ∧ y = s.file (p.root ++ g)) ∨ s.now < y.mtime ∧ y.mtime ≤ t.now)
    (hbuilt : ∀ b ∈ t.built, b.time ≤ t.now) : Inv p t where
  file_le := by
    rw [hfiles, hfile]
    exact fun f hf => (h.file_le f hf).trans hnow
  mirror_le := by
    intro g y hy
    rcases hmirror g y hy with hold | ⟨hg, rfl⟩ | hnew
    · exact (h.mirror_le g y hold).trans hnow
    · exact (h.file_le _ hg).trans hnow
    · exact hnew.2
  coherent := by
    intro g hg y hy
    rw [hfiles] at hg
    rw [hfile]
    rcases hmirror g y hy with hold | ⟨-, rfl⟩ | hnew
    · exact h.coherent g hg y hold
    · exact fun _ => rfl
    · intro hmtime
      have hle := h.file_le _ hg
      omega
  built_le := hbuilt

theorem rsync_eq (h : Inv p s) {g : Path} (hg : p.root ++ g ∈ s.files)
    (htakes : p.takes g = true) : p.rsync s g = some (s.file (p.root ++ g)) := by
  rw [Project.rsync, if_pos ⟨hg, htakes⟩, (h.coherent g hg).sync_eq]

theorem mem_rsync (h : Inv p s) {g : Path} {y : File Content} (hy : y ∈ p.rsync s g) :
    y ∈ s.mirror g ∨ (p.root ++ g ∈ s.files ∧ y = s.file (p.root ++ g)) := by
  by_cases htakes : p.root ++ g ∈ s.files ∧ p.takes g = true
  · rw [h.rsync_eq htakes.1 htakes.2] at hy
    exact Or.inr ⟨htakes.1, (Option.mem_some_iff.mp hy).symm⟩
  · rw [Project.rsync, if_neg htakes] at hy
    exact Or.inl hy

theorem mem_settle {r : Round} {t : ℕ} {m : Path → Option (File Content)} {g : Path}
    {y : File Content} (hy : y ∈ p.settle r t m g) : y ∈ m g ∨ y.mtime = t := by
  cases hcopy : p.copy with
  | own deps others finish =>
      cases finish with
      | nothing =>
          simp only [Project.settle, hcopy] at hy
          exact Or.inl hy
      | touch =>
          simp only [Project.settle, hcopy] at hy
          by_cases hg : g = makefile
          · subst hg
            rw [Function.update_self, Option.mem_some_iff] at hy
            exact Or.inr (hy ▸ rfl)
          · rw [Function.update_of_ne hg] at hy
            exact Or.inl hy
      | configure =>
          simp only [Project.settle, hcopy] at hy
          split at hy
          · exact Or.inl hy
          · rw [Option.mem_some_iff] at hy
            exact Or.inr (hy ▸ rfl)
  | within drops =>
      simp only [Project.settle, hcopy] at hy
      split at hy
      · cases hy
      · exact Or.inl hy

theorem refresh (h : Inv p s) (r : Round) : Inv p (p.refresh r s) := by
  refine h.write rfl rfl (Nat.le_succ _) ?_ fun b hb => Nat.le_succ_of_le (h.built_le b hb)
  intro g y hy
  rcases mem_settle hy with hy | hmtime
  · exact (h.mem_rsync hy).imp_right Or.inl
  · refine Or.inr (Or.inr ?_)
    simp [hmtime, Project.refresh]

theorem mem_overwrite {w : Path → Option (Option Content)} {g : Path} {y : File Content}
    (hy : y ∈ (s.overwrite w).mirror g) : y ∈ s.mirror g ∨ y.mtime = s.now + 1 := by
  simp only [Tree.overwrite] at hy
  split at hy
  · exact Or.inl hy
  · obtain ⟨c, -, rfl⟩ := Option.mem_map.mp hy
    exact Or.inr rfl

theorem mem_prepare {r : Round} {g : Path} {y : File Content}
    (hy : y ∈ (p.prepare r s).mirror g) : y ∈ s.mirror g ∨ y.mtime = s.now + 1 := by
  rw [Project.prepare] at hy
  split at hy
  · exact Or.inl hy
  · exact mem_overwrite hy

theorem build (h : Inv p s) (r : Round) : Inv p (p.build r s) := by
  refine h.write (p.files_build r s) (p.file_build r s) (Nat.le_add_right _ 2) ?_ ?_
  · intro g y hy
    have hnew : y ∈ s.mirror g ∨ y.mtime = s.now + 1 := by
      rcases mem_overwrite hy with hy | hmtime
      · exact mem_prepare hy
      · exact Or.inr (by rw [hmtime, p.now_prepare])
    refine hnew.imp_right fun hmtime => Or.inr ?_
    simp [hmtime]
  · intro b hb
    obtain rfl := Option.mem_some_iff.mp hb
    exact Nat.le_refl _

theorem make (h : Inv p s) (r : Round) : Inv p (p.make r s) := by
  have h₁ : Inv p (if p.copies s r then p.refresh r s else s) := by
    split
    · exact h.refresh r
    · exact h
  rw [Project.make]
  split
  · exact h₁.build r
  · exact h₁

theorem step (h : Inv p s) {t : Tree} {r : Round} (ht : p.step s r = some t) : Inv p t := by
  obtain rfl := Option.some.inj ht
  exact (h.edits r.edits).make r

end Inv

/-! ## One round -/

section Round

variable {p : Project} {s : Tree}

theorem edits_built (es : List (Path × Content)) : (s.edits es).built = s.built := by
  induction es generalizing s with
  | nil => rfl
  | cons e es ih => exact ih

theorem file_edits {n : ℕ} (hn : n ≤ s.now) {es : List (Path × Content)} {f : Path}
    (hf : f ∈ (s.edits es).files) (hmtime : ((s.edits es).file f).mtime ≤ n) :
    f ∈ s.files ∧ (s.edits es).file f = s.file f := by
  induction es generalizing s with
  | nil => exact ⟨hf, rfl⟩
  | cons e es ih =>
      obtain ⟨hmem, hfile⟩ := ih (s := s.edit e) (Nat.le_succ_of_le hn) hf hmtime
      have hle : ((s.edit e).file f).mtime ≤ n := hfile ▸ hmtime
      by_cases hfe : f = e.1
      · subst hfe
        simp only [Tree.edit, Function.update_self] at hle
        omega
      · refine ⟨by simpa [Tree.edit, hfe] using hmem, hfile.trans ?_⟩
        simp [Tree.edit, hfe]

theorem builds_of_copies {r : Round} (h : p.copies s r = true) : p.builds s r = true := by
  unfold Project.builds
  split <;> simp [h]

theorem built_of_not_overdue (h : p.overdue s = false) :
    ∃ b, s.built = some b ∧ ∀ f ∈ s.files, p.deps f = true → (s.file f).mtime ≤ b.time := by
  rw [Project.overdue, decide_eq_false_iff_not, not_outdated_iff] at h
  obtain ⟨t, ht, hdeps⟩ := h
  obtain ⟨b, hb, rfl⟩ := Option.map_eq_some_iff.mp ht
  exact ⟨b, hb, fun f hf hf' => hdeps f (Finset.mem_filter.mpr ⟨hf, hf'⟩)⟩

theorem built_of_not_builds {r : Round} (h : p.builds s r = false) :
    ∃ b, s.built = some b ∧
      ∀ f ∈ s.files, p.listed f = true → (s.file f).mtime ≤ b.time := by
  cases hcopy : p.copy with
  | own deps others finish =>
      simp only [Project.builds, hcopy, Bool.or_eq_false_iff, decide_eq_false_iff_not] at h
      obtain ⟨⟨hcopies, hoverdue⟩, hmakefile⟩ := h
      obtain ⟨b, hb, hdeps⟩ := built_of_not_overdue hoverdue
      simp only [Project.copies, hcopy, Bool.or_eq_false_iff, decide_eq_false_iff_not,
        not_outdated_iff] at hcopies
      obtain ⟨t, ht, hcopied⟩ := hcopies.1
      refine ⟨b, hb, fun f hf hlisted => ?_⟩
      rcases p.covered f hlisted with hf' | ⟨d, o, t', hown, hf'⟩
      · exact hdeps f hf hf'
      · -- the source is not newer than the target of the copy
        rw [hcopy, Copy.own.injEq] at hown
        have hle := hcopied f (Finset.mem_filter.mpr ⟨hf, hown.1 ▸ hf'⟩)
        refine hle.trans (Nat.le_of_not_lt fun hlt => hmakefile ?_)
        exact ⟨t, ht, b, hb, hlt⟩
  | within drops =>
      simp only [Project.builds, Project.copies, hcopy, Bool.or_eq_false_iff] at h
      obtain ⟨b, hb, hdeps⟩ := built_of_not_overdue h.1
      refine ⟨b, hb, fun f hf hlisted => ?_⟩
      rcases p.covered f hlisted with hf' | ⟨d, o, t, hown, -⟩
      · exact hdeps f hf hf'
      · rw [hcopy] at hown
        cases hown

theorem built_make (s : Tree) (r : Round) : ((p.make r s).built).isSome = true := by
  rw [Project.make]
  split
  · rfl
  · next hbuilds =>
      obtain ⟨b, hb, -⟩ := built_of_not_builds (Bool.eq_false_iff.mpr hbuilds)
      split
      · simp [Project.refresh, hb]
      · simp [hb]

/-- `rsync` brings over the files it takes, and leaves the others as they are. -/
theorem map_rsync_iff (h : Inv p s) {g : Path} (hg : p.Source s g) :
    (p.rsync s g).map File.content = some (s.file (p.root ++ g)).content ↔
      p.takes g = true ∨ p.Held s g := by
  by_cases htakes : p.takes g = true
  · rw [h.rsync_eq hg.1 htakes]
    simp [htakes]
  · rw [Project.rsync, if_neg fun h => htakes h.2]
    simp [htakes, Project.Held, Tree.held]

/-- The rule of the copy brings over exactly the sources that arrive. -/
theorem held_refresh_iff (h : Inv p s) (r : Round) {g : Path} (hg : p.Source s g) :
    p.Held (p.refresh r s) g ↔ p.Arrives s r g := by
  have hrsync := map_rsync_iff h hg
  simp only [Project.Held, Tree.held, Project.refresh, Project.settle, Project.Arrives] at hrsync ⊢
  cases hcopy : p.copy with
  | own deps others finish =>
      cases finish with
      | nothing => exact hrsync
      | touch =>
          by_cases hmakefile : g = makefile
          · subst hmakefile
            simp [h.rsync_eq hg.1 p.takes_makefile, p.takes_makefile]
          · simpa only [Function.update_of_ne hmakefile] using hrsync
      | configure =>
          cases hconf : r.configured g with
          | none => simpa [hconf] using hrsync
          | some c => simp [hconf]
  | within drops =>
      cases hdrops : drops g with
      | true => simp [hdrops]
      | false => simpa [hdrops] using hrsync

/-- By the times, what is in the mirror as it is in the sources has not been edited since
it was copied. -/
theorem held_iff_unedited (h : Inv p s) {g : Path} (hg : p.root ++ g ∈ s.files) :
    p.Held s g ↔ p.Unedited s g := by
  rw [Project.Held, Tree.held, Option.map_eq_some_iff]
  refine exists_congr fun y => and_congr_right fun hy => ?_
  exact ⟨Or.inr, fun hor => hor.elim (h.coherent g hg y hy) id⟩

/-- A source in the mirror is still there for the last sub-make when it is spared. -/
theorem held_prepare_iff {g : Path} {r : Round} (h : p.Held s g) :
    p.Held (p.prepare r s) g ↔ p.Spares s r g := by
  rw [Project.Held, Tree.held] at h ⊢
  rw [p.file_prepare, Project.prepare, Project.Spares]
  cases hbetween : p.between with
  | none => simp [h]
  | some writes =>
      cases hwrites : writes g with
      | true => simp [Tree.overwrite, hwrites]
      | false => cases hprepared : r.prepared g <;> simp [Tree.overwrite, hwrites, hprepared, h]

theorem seen_build_iff {r : Round} {g : Path} :
    (∀ b ∈ (p.build r s).built, ∀ seen ∈ b.seen, seen g = some (s.file (p.root ++ g)).content) ↔
      p.Held s g ∧ p.Spares s r g := by
  simp only [p.built_build, Option.mem_some_iff, forall_eq', List.forall_mem_cons,
    List.not_mem_nil, IsEmpty.forall_iff, implies_true, and_true]
  refine and_congr_right fun h : p.Held s g => ?_
  rw [← held_prepare_iff h, Project.Held, p.file_prepare]

theorem current_build_iff (r : Round) :
    p.Current (p.build r s) ↔ ∀ g, p.Source s g → p.Held s g ∧ p.Spares s r g := by
  simp only [Project.Current, Project.Source, p.files_build, p.file_build]
  exact ⟨fun h g hg => seen_build_iff.mp fun b hb => h b hb g hg,
    fun h b hb g hg => seen_build_iff.mpr (h g hg) b hb⟩

/-- After a `make P`, the last sub-makes have found the sources as they are exactly
when the round is fresh. -/
theorem current_make_iff (h : Inv p s) (hcur : p.Current s) (r : Round) :
    p.Current (p.make r (s.edits r.edits)) ↔ p.Fresh (s.edits r.edits) r := by
  have hinv : Inv p (s.edits r.edits) := h.edits r.edits
  rw [Project.make, Project.Fresh]
  by_cases hbuilds : p.builds (s.edits r.edits) r = true
  · rw [if_pos hbuilds, current_build_iff]
    by_cases hcopies : p.copies (s.edits r.edits) r = true
    · simp only [if_pos hcopies, hbuilds, true_implies]
      exact forall₂_congr fun g hg => and_congr_left' (held_refresh_iff hinv r hg)
    · simp only [if_neg hcopies, hbuilds, true_implies]
      exact forall₂_congr fun g hg => and_congr_left' (held_iff_unedited hinv hg.1)
  · -- nothing is done, so nothing was edited
    have hcopies : ¬ p.copies (s.edits r.edits) r = true := fun hcopies =>
      hbuilds (builds_of_copies hcopies)
    rw [if_neg hbuilds, if_neg hcopies]
    refine ⟨fun _ hno => absurd hno hbuilds, fun _ b hb g hg => ?_⟩
    obtain ⟨b', hb', hle⟩ := built_of_not_builds (Bool.eq_false_iff.mpr hbuilds)
    obtain rfl : b' = b := Option.some.inj (hb'.symm.trans hb)
    rw [edits_built] at hb
    obtain ⟨hmem, hfile⟩ := file_edits (h.built_le b' hb) hg.1 (hle _ hg.1 hg.2)
    rw [hfile]
    exact hcur b' hb g ⟨hmem, hg.2⟩

end Round

/-- For every run of edits and builds from a fresh clone: each `make P` has built
the sources as they are exactly when every round is fresh. -/
theorem current_always_iff {p : Project} (s : Sources p) (rs : List Round) :
    Transition.Always p.step p.Current s.initial rs ↔
      Transition.Throughout p.step (fun s r => p.Fresh (s.edits r.edits) r) s.initial rs := by
  refine Transition.always_iff_throughout (I := Inv p) (fun _ _ _ h ht => h.step ht) ?_
    (.initial s) (fun _ h => nomatch h) rs
  intro s r t hinv hcur ht
  obtain rfl := Option.some.inj ht
  exact current_make_iff hinv hcur r

/-! ## No build without a copy -/

/-- Every file of the mirror is older than the target of the last build. -/
def Settled (s : Tree) : Prop := ∀ g, ∀ y ∈ s.mirror g, ∃ b ∈ s.built, y.mtime ≤ b.time

section Settled

variable {p : Project} {s : Tree}

theorem mirror_edits (es : List (Path × Content)) : (s.edits es).mirror = s.mirror := by
  induction es generalizing s with
  | nil => rfl
  | cons e es ih => exact ih

theorem Settled.make (h : Settled s) (hinv : Inv p s) (r : Round) : Settled (p.make r s) := by
  have hmake : Inv p (p.make r s) := hinv.make r
  rw [Project.make] at hmake ⊢
  split
  · next hbuilds =>
      rw [if_pos hbuilds] at hmake
      exact fun g y hy => ⟨_, rfl, hmake.mirror_le g y hy⟩
  · next hbuilds => rwa [if_neg fun hcopies => hbuilds (builds_of_copies hcopies)]

theorem Settled.step (h : Settled s) (hinv : Inv p s) {t : Tree} {r : Round}
    (ht : p.step s r = some t) : Settled t := by
  obtain rfl := Option.some.inj ht
  refine Settled.make ?_ (hinv.edits r.edits) r
  rw [Settled, mirror_edits, edits_built]
  exact h

/-- When only the rule of the copy depends on the sources, the sub-make is not run
without a copy. -/
theorem copies_of_builds (hdeps : ∀ d o t, p.copy = .own d o t → ∀ f, p.deps f = false)
    (h : Settled s) {r : Round} (hbuilds : p.builds s r = true) : p.copies s r = true := by
  cases hcopy : p.copy with
  | within drops => simpa only [Project.builds, hcopy] using hbuilds
  | own deps others finish =>
      by_contra hcopies
      rw [Bool.not_eq_true] at hcopies
      have hmakefile : ¬ Outdated s.makefileTime (s.files.filter fun f => deps f) s.file := by
        intro hout
        simp [Project.copies, hcopy, hout] at hcopies
      obtain ⟨t, ht, -⟩ := not_outdated_iff.mp hmakefile
      obtain ⟨y, hy, rfl⟩ := Option.map_eq_some_iff.mp ht
      obtain ⟨b, hb, hle⟩ := h makefile y hy
      have hoverdue : p.overdue s = false := by
        rw [Project.overdue, decide_eq_false_iff_not, not_outdated_iff]
        refine ⟨b.time, by simp [Option.mem_def.mp hb], fun f hf => ?_⟩
        have hf' := (Finset.mem_filter.mp hf).2
        rw [hdeps _ _ _ hcopy f] at hf'
        cases hf'
      have hnewer : ¬ ∃ t ∈ s.makefileTime, ∃ b ∈ s.built, b.time < t := by
        rintro ⟨t, ht', b', hb', hlt⟩
        obtain rfl : y.mtime = t := Option.some.inj (ht.symm.trans ht')
        obtain rfl : b = b' := Option.some.inj (hb.symm.trans hb')
        omega
      simp only [Project.builds, hcopy, hcopies, hoverdue, decide_eq_false hnewer,
        Bool.or_false, Bool.false_eq_true] at hbuilds

end Settled

/-- For these projects it is enough that the sources arrive when they are copied. -/
theorem current_always_iff_arrives {p : Project}
    (hdeps : ∀ d o t, p.copy = .own d o t → ∀ f, p.deps f = false) (s : Sources p)
    (rs : List Round) :
    Transition.Always p.step p.Current s.initial rs ↔
      Transition.Throughout p.step (fun s r =>
        p.copies (s.edits r.edits) r = true → ∀ g, p.Source (s.edits r.edits) g →
          p.Arrives (s.edits r.edits) r g ∧ p.Spares (s.edits r.edits) r g) s.initial rs := by
  rw [current_always_iff]
  refine Transition.throughout_congr (P := fun s => Inv p s ∧ Settled s) ?_ ?_
    ⟨.initial s, fun _ _ h => nomatch h⟩ rs
  · rintro s r t ⟨-, hsettled⟩ -
    have hedits : Settled (s.edits r.edits) := by
      rw [Settled, mirror_edits, edits_built]
      exact hsettled
    rw [Project.Fresh]
    by_cases hcopies : p.copies (s.edits r.edits) r = true
    · simp [hcopies, builds_of_copies hcopies]
    · have hbuilds : ¬ p.builds (s.edits r.edits) r = true := fun h =>
        hcopies (copies_of_builds hdeps hedits h)
      simp [hcopies, hbuilds]
  · rintro s r t ⟨hinv, hsettled⟩ - ht
    exact ⟨hinv.step ht, hsettled.step hinv ht⟩

end Mirror

end AmigaGcc
