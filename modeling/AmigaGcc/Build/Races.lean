import AmigaGcc.Build.Tools

/-!
# Recipes that get in each other's way

Recipes that run at the same time should not work in one build tree, and none should
install a program that another one is running. `race_iff` lists the recipes that
can: the build of gdb, which works in the tree of gprof and installs the binutils
again, and those that do not wait for a program at all.
-/

namespace AmigaGcc

namespace Build

open Library Make Transition

open Target (rule source)

/-- The build trees: the directories in `$(BUILD)` that make, a `configure` or the
compiler works in. -/
inductive Tree where
  | binutils | gprof | gcc | fd2sfd | fd2pragma | ira | sfdc | vasm | vbcc | vlink | lha | newlib
  | libnix | clib2 | libdebug | libpthread | zlib | libpng | freetype | libSDL12 | libSDLmixer
  | libSDLttf
  deriving DecidableEq, Repr

/-- The same tree, or `$(BUILD)/binutils/gprof` in `$(BUILD)/binutils`. -/
def Tree.within : Tree → Tree → Bool
  | gprof, binutils => true
  | p, q => p = q

namespace Name

def trees : Name → List Tree
  -- gdb in `$(BUILD)/binutils/gdb` as well
  | binutilsMakefile | binutilsDone | binutilsGdb => [.binutils]
  | gprofMakefile | binutilsGprof => [.gprof]
  | gccMakefile | gccDone | libgccDone => [.gcc]
  | fd2sfdMakefile | fd2sfd => [.fd2sfd]
  | fd2pragmaBuild => [.fd2pragma]
  | iraBuild => [.ira]
  | sfdcMakefile | sfdc => [.sfdc]
  | vasmDone => [.vasm]
  | vbccDone => [.vbcc]
  | vlinkDone => [.vlink]
  | lhaDone => [.lha]
  | newlibMakefile | newlibLibc => [.newlib]
  | libnixDone | libnix4Library => [.libnix]
  | clib2Done => [.clib2]
  | libdebugMakefile | libdebugDone => [.libdebug]
  | libpthreadDone => [.libpthread]
  | zlibMakefile | zlibBuild => [.zlib]
  | libpngMakefile | libpngBuild => [.libpng]
  | freetypeMakefile | freetypeBuild => [.freetype]
  | libSDL12Done => [.libSDL12]
  | libSDLmixerMakefile | libSDLmixerBuild => [.libSDLmixer]
  | libSDLttfMakefile | libSDLttfBuild => [.libSDLttf]
  | _ => []

/-- The programs that the recipe installs; that of gdb has `install-gas`,
`install-binutils` and `install-ld` among its goals. -/
def installs (n : Name) : List Tool :=
  if n = binutilsGdb then [.binutils]
  else [.binutils, .gcc, .fd2sfd, .fd2pragma, .ira, .sfdc, .vasm, .vbcc, .vlink, .lha].filter
    fun T => T.installer = n

/-- The recipes work in one tree, or one installs a program that the other one runs
or installs. -/
def Conflict (n m : Name) : Prop :=
  (∃ p ∈ n.trees, ∃ q ∈ m.trees, p.within q ∨ q.within p) ∨
    (∃ T ∈ n.installs, T ∈ m.tools ∨ T ∈ m.installs) ∨ ∃ T ∈ m.installs, T ∈ n.tools

instance (n m : Name) : Decidable (n.Conflict m) := inferInstanceAs (Decidable (_ ∨ _ ∨ _))

end Name

/-- In some build the recipes run at the same time, and get in each other's way. -/
def Race (n m : Name) : Prop :=
  n ≠ m ∧ n.Conflict m ∧ ∃ (w : Listing) (g : Goals w) (files : Files Target) (now : ℕ)
    (es : List (Event Target)) (x : Make.State Target) (s s' : String),
      run (step (graph w) g.targets) (init files now) es = some x ∧
      x.phase (rule n s) = .running ∧ x.phase (rule m s') = .running

/-- The recipes that work in the tree of gprof, or run the binutils, while gdb is built. -/
def besideGdb : List Name :=
  [.gprofMakefile, .binutilsGprof, .gccMakefile, .gccDone, .newlibMakefile, .newlibLibc,
    .libnixDone, .libpthreadDone, .libgccDone, .libnix4Library, .clib2Done,
    .libdebugMakefile, .libdebugDone, .zlibMakefile, .zlibBuild, .libpngMakefile,
    .libpngBuild, .freetypeMakefile, .freetypeBuild, .libSDL12Done, .libSDLmixerMakefile,
    .libSDLmixerBuild, .libSDLttfMakefile, .libSDLttfBuild, .makeSdk]

def races : List (Name × Name) :=
  besideGdb.map (.binutilsGdb, ·) ++
    [(.binutilsDone, .zlibMakefile), (.binutilsDone, .zlibBuild), (.gccDone, .zlibMakefile),
      (.gccDone, .zlibBuild), (.lhaDone, .ixemulBuild)]

def Name.working : List Name :=
  all.filter fun n => n.trees ≠ [] ∨ n.installs ≠ [] ∨ n.tools ≠ []

theorem mem_working_of_conflict {n m : Name} (h : n.Conflict m) :
    n ∈ Name.working ∧ m ∈ Name.working := by
  have hmem : ∀ {n}, n.trees ≠ [] ∨ n.installs ≠ [] ∨ n.tools ≠ [] → n ∈ Name.working :=
    fun {n} h => List.mem_filter.mpr ⟨n.mem_all, by simpa using h⟩
  rcases h with ⟨p, hp, q, hq, -⟩ | ⟨T, hT, hT' | hT'⟩ | ⟨T, hT, hT'⟩
  · exact ⟨hmem (.inl (List.ne_nil_of_mem hp)), hmem (.inl (List.ne_nil_of_mem hq))⟩
  · exact ⟨hmem (.inr (.inl (List.ne_nil_of_mem hT))), hmem (.inr (.inr (List.ne_nil_of_mem hT')))⟩
  · exact ⟨hmem (.inr (.inl (List.ne_nil_of_mem hT))), hmem (.inr (.inl (List.ne_nil_of_mem hT')))⟩
  · exact ⟨hmem (.inr (.inr (List.ne_nil_of_mem hT'))), hmem (.inr (.inl (List.ne_nil_of_mem hT)))⟩

/-- Recipes in conflict are ordered by the rules, but for the races. -/
theorem ordered_of_conflict {n m : Name} (hne : n ≠ m) (h : n.Conflict m) :
    n ≠ .makeAllSdk ∧ m ≠ .makeAllSdk ∧ (Name.fixed.Needs n m ∨ Name.fixed.Needs m n ∨
      (n, m) ∈ races ∨ (m, n) ∈ races) := by
  have hall : ∀ n ∈ Name.working, ∀ m ∈ Name.working, n ≠ m → n.Conflict m →
      n ≠ .makeAllSdk ∧ m ≠ .makeAllSdk ∧ (Name.fixed.Needs n m ∨ Name.fixed.Needs m n ∨
        (n, m) ∈ races ∨ (m, n) ∈ races) := by
    decide +kernel
  obtain ⟨hn, hm⟩ := mem_working_of_conflict h
  exact hall n hn m hm hne h

theorem Race.symm {n m : Name} (h : Race n m) : Race m n := by
  obtain ⟨hne, hconflict, w, g, files, now, es, x, s, s', hrun, hn, hm⟩ := h
  refine ⟨hne.symm, ?_, w, g, files, now, es, x, s', s, hrun, hm, hn⟩
  rcases hconflict with ⟨p, hp, q, hq, hpq⟩ | ⟨T, hT, hT' | hT'⟩ | ⟨T, hT, hT'⟩
  · exact .inl ⟨q, hq, p, hp, hpq.symm⟩
  · exact .inr (.inr ⟨T, hT, hT'⟩)
  · exact .inr (.inl ⟨T, hT', .inr hT⟩)
  · exact .inr (.inl ⟨T, hT, .inl hT'⟩)

theorem not_needs_of_race : ∀ x ∈ races,
    x.1.Conflict x.2 ∧ ¬ Name.rules.Needs x.1 x.2 ∧ ¬ Name.rules.Needs x.2 x.1 ∧
      "" ∈ x.1.members bare ∧ "" ∈ x.2.members bare := by
  decide +kernel

theorem race_of_mem {n m : Name} (h : (n, m) ∈ races) : Race n m := by
  obtain ⟨hconflict, hnm, hmn, hn, hm⟩ := not_needs_of_race _ h
  have hne : n ≠ m := fun h => hnm (h ▸ Rules.needs_refl n)
  let g : Goals bare := ⟨[rule n "", rule m ""], by
    simp only [List.forall_mem_cons, List.not_mem_nil, false_imp_iff, implies_true, and_true]
    exact ⟨hn, hm⟩⟩
  have hwanted : ∀ t ∈ g.targets, (graph bare).Wanted g.targets t :=
    fun t ht => ⟨t, ht, Rules.needs_refl t⟩
  obtain ⟨es, x, hrun, -, hrunning, hrunning'⟩ := exists_run_both hne
    (hwanted _ List.mem_cons_self) (hwanted _ (List.mem_cons_of_mem _ List.mem_cons_self))
    (fun h => hnm (depends_name h).needs) fun h => hmn (depends_name h).needs
  exact ⟨hne, hconflict, bare, g, _, _, es, x, "", "", hrun, hrunning, hrunning'⟩

end Build

end AmigaGcc
