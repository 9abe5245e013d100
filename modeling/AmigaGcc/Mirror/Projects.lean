import AmigaGcc.Mirror.Basic

/-!
# The mirrored projects

The rules of sfdc, vasm, vbcc, vlink, clib2, libpthread and libSDL12. In six of
them the rule that copies depends on every source. In vlink it depends on the
`Makefile` of the sources only, while the rule of the sub-make depends on every
source: after an edit of another file the sub-make is run in the old mirror.
-/

namespace AmigaGcc

namespace Mirror

open Library Mtime

/-! ## The patterns of the rules -/

/-- `find $(PROJECTS)/P -not \( -path $(PROJECTS)/P/.git -prune \) -type f` -/
def findPruned (f : Path) : Bool := f.head? ≠ some ".git"

/-- `rsync -a $(PROJECTS)/P $(BUILD)/ --exclude .git` -/
def excludeGit (g : Path) : Bool := ".git" ∉ g

/-- The files below the names that match `*`. -/
def star (g : Path) : Bool :=
  match g with
  | [] => false
  | c :: _ => c.toList.head? ≠ some '.'

/-- `find * -name lib\*.a` -/
def archive (g : Path) : Bool :=
  star g && ("lib".toList.isPrefixOf (g.getLastD "").toList &&
    ".a".toList.isSuffixOf (g.getLastD "").toList)

/-- `c.txt`, which holds the answers for `bin/dtgen`, and what `bin/dtgen` writes -/
def generated (g : Path) : Bool :=
  g = ["c.txt"] || g = ["machines", "m68k", "dt.h"] || g = ["machines", "m68k", "dt.c"]

/-! ## The rules -/

/-- `$(BUILD)/sfdc/Makefile` and `$(PREFIX)/bin/sfdc` -/
def sfdc : Project where
  root := []
  key := ["configure"]
  listed := findPruned
  takes := excludeGit
  copy := .own findPruned false .configure
  deps := fun _ => false
  between := none
  covered := fun _ h => Or.inr ⟨_, _, _, rfl, h⟩
  takes_makefile := by decide

/-- `$(BUILD)/vasm/Makefile` and `$(BUILD)/vasm/_done` -/
def vasm : Project where
  root := []
  key := makefile
  listed := findPruned
  takes := excludeGit
  copy := .own findPruned false .touch
  deps := fun _ => false
  between := none
  covered := fun _ h => Or.inr ⟨_, _, _, rfl, h⟩
  takes_makefile := by decide

/-- `$(BUILD)/vbcc/Makefile` and `$(BUILD)/vbcc/_done` -/
def vbcc : Project where
  root := []
  key := makefile
  listed := findPruned
  takes := excludeGit
  copy := .own findPruned false .touch
  deps := fun _ => false
  between := some generated
  covered := fun _ h => Or.inr ⟨_, _, _, rfl, h⟩
  takes_makefile := by decide

/-- `$(BUILD)/vlink/Makefile` and `$(BUILD)/vlink/_done` -/
def vlink : Project where
  root := []
  key := makefile
  listed := findPruned
  takes := excludeGit
  copy := .own (fun f => f = makefile) false .nothing
  deps := findPruned
  between := none
  covered := fun _ h => Or.inl h
  takes_makefile := by decide

def clib2 : Project where
  root := ["library"]
  key := ["LICENSE"]
  listed := findPruned
  takes := star
  copy := .within archive
  deps := findPruned
  between := none
  covered := fun _ h => Or.inl h
  takes_makefile := by decide

/-- `$(BUILD)/libpthread/Makefile` and `$(BUILD)/libpthread/_done`. The sources are
those in `$(PROJECTS)/aros-stuff/pthreads`. -/
def libpthread : Project where
  root := []
  key := makefile
  listed := fun _ => true
  takes := star
  copy := .own (fun _ => true) true .touch
  deps := fun _ => false
  between := none
  covered := fun _ h => Or.inr ⟨_, _, _, rfl, h⟩
  takes_makefile := by decide

/-- `$(BUILD)/libSDL12/Makefile` and `$(BUILD)/libSDL12/_done` -/
def libSDL12 : Project where
  root := []
  key := makefile
  listed := findPruned
  takes := star
  copy := .own findPruned true .touch
  deps := fun _ => false
  between := none
  covered := fun _ h => Or.inr ⟨_, _, _, rfl, h⟩
  takes_makefile := by decide

/-- The projects that are built in a mirrored tree. -/
inductive Name where
  | sfdc
  | vasm
  | vbcc
  | vlink
  | clib2
  | libpthread
  | libSDL12
  deriving DecidableEq, Repr

def Name.project : Name → Project
  | sfdc => Mirror.sfdc
  | vasm => Mirror.vasm
  | vbcc => Mirror.vbcc
  | vlink => Mirror.vlink
  | clib2 => Mirror.clib2
  | libpthread => Mirror.libpthread
  | libSDL12 => Mirror.libSDL12

/-! ## Edits and builds -/

/-- For each of the projects, every fresh clone, and every sequence of edits and
builds: each `make P` has built the sources as they are exactly when every round
is fresh. -/
theorem mirror_current_iff (P : Name) (s : Sources P.project) (rs : List Round) :
    (∀ r t, (P.project.make r t).built.isSome = true) ∧
    (Transition.Always P.project.step P.project.Current s.initial rs ↔
      Transition.Throughout P.project.step
        (fun t r => P.project.Fresh (t.edits r.edits) r) s.initial rs) :=
  ⟨fun r t => built_make t r, current_always_iff s rs⟩

/-- In all of them but vlink the sources are copied before each sub-make, so what
counts is which files the copy brings over. -/
theorem mirror_current_iff_arrives {P : Name} (hP : P ≠ .vlink) (s : Sources P.project)
    (rs : List Round) :
    Transition.Always P.project.step P.project.Current s.initial rs ↔
      Transition.Throughout P.project.step (fun t r =>
        P.project.copies (t.edits r.edits) r = true → ∀ g,
          P.project.Source (t.edits r.edits) g →
            P.project.Arrives (t.edits r.edits) r g ∧ P.project.Spares (t.edits r.edits) r g)
        s.initial rs := by
  refine current_always_iff_arrives (fun d o t hown f => ?_) s rs
  cases P with
  | vlink => exact absurd rfl hP
  | clib2 => cases hown
  | sfdc | vasm | vbcc | libpthread | libSDL12 => rfl

def vlinkClone : Sources vlink where
  now := 0
  files := {makefile, ["main.c"]}
  file := fun _ => ⟨[0], 0⟩
  key_mem := by decide
  mtime_le := fun _ _ => Nat.le_refl 0

/-- A round in which the sub-make writes no source. -/
def quietRound (edits : List (Path × Content)) : Round where
  edits := edits
  others := false
  configured := fun _ => none
  prepared := fun _ => none
  generated := fun _ => []
  worked := fun _ => none

/-- vlink is built, `main.c` is edited, and vlink is built again: the sub-make runs
on the old `main.c`. -/
theorem vlink_builds_stale_source :
    ¬ Transition.Always vlink.step vlink.Current vlinkClone.initial
      [quietRound [], quietRound [(["main.c"], [1])]] := by
  rintro ⟨-, h⟩
  have hcur := ((h _ rfl).2 _ rfl)
  have hseen := hcur _ rfl ["main.c"] ⟨by decide, by decide⟩ _ List.mem_cons_self
  revert hseen
  decide

end Mirror

end AmigaGcc
