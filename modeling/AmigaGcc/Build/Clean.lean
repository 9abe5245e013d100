import AmigaGcc.Build.Tools

/-!
# What is built again

The `clean` goals remove files of the build, and `drop-prefix` removes what has
been installed. `rebuilt_after_clean_iff` says for each of them which files the next make makes
again, and `lost_iff` which of the installed files do not come back after
`drop-prefix`. `rebuilt_after_edit_iff` says it for the sources of a project, and
`not_started_again` that without a change nothing is built.

The recipe of `ixemul` unpacks files that are older than their archive, and the one of
`libnix4.library` leaves it to another makefile whether it makes its file; of these
two nothing is said.
-/

namespace AmigaGcc

namespace Build

open Library Make Transition

open Target (rule source)

namespace Name

/-- The files that keep the time they have elsewhere: what `wget` fetches, and the
makefile that `rsync -a` copies. -/
def kept : List Name :=
  [vlinkMakefile, vbccTargetKick13Lha, vbccTargetAmigaosLha, ndkLha, ixemulLha, zlibTar,
    libpngTar, freetypeTar, libSDLmixerTar, libSDLttfTar]

/-- The recipe gives its file the time of its end. -/
def fresh (n : Name) : Bool := !n.phony && n ∉ kept

/-- The rules of which nothing is said. -/
def loose : List Name := [ixemulBuild, libnix4Library]

end Name

/-- The goals that remove files. -/
inductive Clean where
  | gcc | libgcc | binutils | gprof | fd2sfd | fd2pragma | ira | sfdc | vasm | vbcc | vlink | ndk
  | libnix | ixemul | clib2 | libdebug | libpthread | newlib | zlib | libpng | freetype | libSDL12
  | libSDLmixer | libSDLttf | gmp | mpc | mpfr | all | dropPrefix
  deriving DecidableEq, Repr

namespace Clean

open Name in
def removes : Clean → List Name
  | gcc => [gccMakefile, gccDone, libgccDone]
  | libgcc => [libgccDone]
  | binutils => [binutilsMakefile, binutilsDone, binutilsGdb, gprofMakefile, binutilsGprof]
  | gprof => [gprofMakefile]
  | fd2sfd => [fd2sfdMakefile, fd2sfdDone]
  | fd2pragma => [fd2pragmaBuild, fd2pragmaDone]
  | ira => [iraBuild, iraDone]
  | sfdc => [sfdcMakefile, sfdcDone]
  | vasm => [vasmMakefile, vasmDone]
  | vbcc => [vbccMakefile, vbccDone]
  | vlink => [vlinkMakefile, vlinkDone]
  -- `$(BUILD)/ndk*`
  | ndk => [
      ndkIncludeNdk0, ndkIncludeInline, ndkIncludeLvo, ndkIncludeProto, ndkIncludeNdk,
      ndkIncludeNdk13]
  | libnix => [libnixDone, libnix4Library]
  | ixemul => [ixemulBuild]
  | clib2 => [clib2Done]
  | libdebug => [libdebugMakefile, libdebugDone]
  | libpthread => [libpthreadMakefile, libpthreadDone]
  | newlib => [newlibMakefile, newlibLibc, newlibDone]
  | zlib => [zlibMakefile, zlibBuild, zlibDone]
  | libpng => [libpngMakefile, libpngBuild, libpngDone]
  | freetype => [freetypeMakefile, freetypeBuild, freetypeDone]
  | libSDL12 => [libSDL12Makefile, libSDL12Done]
  | libSDLmixer => [libSDLmixerMakefile, libSDLmixerBuild, libSDLmixerDone]
  | libSDLttf => [libSDLttfMakefile, libSDLttfBuild, libSDLttfDone]
  -- below `$(PROJECTS)/gcc`, where no rule makes or lists anything
  | gmp | mpc | mpfr => []
  -- `$(BUILD)`
  | all => [
      binutilsMakefile, binutilsDone, binutilsGdb, gprofMakefile, binutilsGprof, gccMakefile,
      gccDone, fd2sfdMakefile, fd2sfdDone, fd2pragmaBuild, fd2pragmaDone, iraBuild, iraDone,
      sfdcMakefile, sfdcDone, vasmMakefile, vasmDone, vbccMakefile, vbccDone, vlinkMakefile,
      vlinkDone, lhaDone, vbccTargetKick13Info, vbccTargetKick13Done, vbccTargetAmigaosInfo,
      vbccTargetAmigaosDone, ndkIncludeNdk0, ndkIncludeInline, ndkIncludeLvo, ndkIncludeProto,
      ndkIncludeNdk, ndkIncludeNdk13, netincludeDone, newlibMakefile, newlibLibc, newlibDone,
      libnixDone, libpthreadMakefile, libpthreadDone, libgccDone, libnix4Library, clib2Done,
      libdebugMakefile, libdebugDone, ixemulBuild, zlibMakefile, zlibBuild, zlibDone,
      libpngMakefile, libpngBuild, libpngDone, freetypeMakefile, freetypeBuild, freetypeDone,
      libSDL12Makefile, libSDL12Done, libSDLmixerMakefile, libSDLmixerBuild, libSDLmixerDone,
      libSDLttfMakefile, libSDLttfBuild, libSDLttfDone]
  -- `$(PREFIX)/bin` and `$(PREFIX)/$(TARGET)`; `$(PREFIX)/lib` stays, but for `lib/gcc`
  | dropPrefix => [
      .fd2sfd, .fd2pragma, .ira, .sfdc, ndkIncludeInlineHeader, ndkIncludeInlineVbcc,
      ndkIncludeLvoFile, ndkIncludeProtoHeader, libamiga, libbamiga, .ixemul]

def Removes (c : Clean) (t : Target) : Prop := ∃ n ∈ c.removes, t.name = some n

instance (c : Clean) : DecidablePred c.Removes :=
  fun t => inferInstanceAs (Decidable (∃ n ∈ c.removes, t.name = some n))

end Clean

variable {w : Listing} {n m : Name} {stem : String}

/-! ## What is known about the recipes -/

namespace Name

theorem mem_kept_of_not_fresh (hphony : n.phony = false) (h : n.fresh = false) : n ∈ kept := by
  simpa [fresh, hphony] using h

theorem rules_concrete (n : Name) (hn : n.phony = false) : ∀ m ∈ n.prereqs, m.phony = false := by
  revert hn
  cases n <;> decide

theorem clone_phony (l : Listed) : ∀ c ∈ l.clone, c.2.phony = false ∧ c.2 ∉ kept := by
  cases l <;> decide

theorem phony_of_needs (hn : n.phony = false) (h : rules.Needs n m) : m.phony = false :=
  h.mem (S := fun n => n.phony = false) rules_concrete hn

theorem members_ne_nil (hw : w.sfds ≠ []) (hn : n.phony = false) : n.members w ≠ [] := by
  cases hheader : n.header with
  | true => rwa [members_header hheader]
  | false =>
      rw [members_eq hheader (by rintro rfl; cases hn)]
      exact List.cons_ne_nil _ _

end Name

theorem phony_of_mem_prereqs {t p : Target} (ht : t.phony = false) (hp : p ∈ (graph w).prereqs t) :
    p.phony = false := by
  cases t with
  | source l path => simp [graph, Target.prereqs] at hp
  | rule n stem =>
      rcases Target.mem_prereqs_rule stem hp with
        ⟨m, hm, s, -, rfl⟩ | ⟨l, hl, c, hc, rfl⟩ | ⟨l, -, path, rfl⟩
      · exact n.rules_concrete ht m hm
      · exact (Name.clone_phony l c hc).1
      · rfl

/-- The wanted targets that do not need a loose rule. -/
def scope (g : Goals w) : Scope (graph w) where
  mem t := (graph w).Wanted g.targets t ∧ ∀ m ∈ Name.loose, ¬ (graph w).Needs t (rule m "")
  fresh t := ∃ n stem, t = rule n stem ∧ n.fresh = true
  closed _ ht _ hp :=
    ⟨ht.1.of_needs (Rules.needs_of_mem hp),
      fun m hm h => ht.2 m hm ((Rules.needs_of_mem hp).trans h)⟩
  concrete _ _ ht _ hp := phony_of_mem_prereqs ht hp
  file t ht := by
    obtain ⟨n, stem, rfl, h⟩ := ht
    simp only [Name.fresh, Bool.and_eq_true, Bool.not_eq_true'] at h
    exact h.1

/-- A run of make after which everything in the scope is up to date. -/
structure Completes (g : Goals w) (files : Files Target) (now : ℕ) (es : List (Event Target))
    (s : Make.State Target) : Prop where
  past : Past (scope g) files now
  tidy : Throughout (step (graph w) g.targets) (Tidy (scope g)) (init files now) es
  ends : run (step (graph w) g.targets) (init files now) es = some s
  updated : ∀ t, (scope g).mem t → s.phase t = .updated

def Name.Simple (n : Name) : Prop :=
  ∀ m ∈ all, rules.Needs n m → m.fresh = true ∧ m ∉ loose

instance (n : Name) : Decidable n.Simple :=
  inferInstanceAs (Decidable (∀ m ∈ Name.all, Name.rules.Needs n m → _))

def Goals.only (w : Listing) (n : Name) (hn : "" ∈ n.members w) : Goals w where
  targets := [rule n ""]
  listed _ ht := List.mem_singleton.mp ht ▸ hn

/-! ## Targets and rules, with headers -/

/-- When there are headers, a target needs a target of every rule that its own rule
needs. -/
theorem exists_needs (hw : w.sfds ≠ []) (hn : n.phony = false) (hs : stem ∈ n.members w)
    (h : Name.rules.Needs n m) :
    ∃ s ∈ m.members w, (graph w).Needs (rule n stem) (rule m s) := by
  induction h with
  | refl => exact ⟨stem, hs, Rules.needs_refl _⟩
  | tail hk hm ih =>
      obtain ⟨s, -, hneeds⟩ := ih
      have hphony := Name.rules_concrete _ (Name.phony_of_needs hn hk) _ hm
      obtain ⟨s', hs'⟩ := List.exists_mem_of_ne_nil _ (Name.members_ne_nil hw hphony)
      exact ⟨s', hs', hneeds.trans (Rules.needs_of_mem (mem_prereqs_of_mem hm hs' s))⟩

theorem needs_name {s : String} (h : (graph w).Needs (rule n stem) (rule m s)) :
    Name.rules.Needs n m := by
  rcases Rules.needs_iff.mp h with heq | hdep
  · obtain ⟨rfl, -⟩ := Target.rule.inj heq
    exact Rules.needs_refl _
  · exact (depends_name hdep).needs

theorem exists_needs_iff (hw : w.sfds ≠ []) (hn : n.phony = false) (hs : stem ∈ n.members w)
    (ms : List Name) :
    (∃ p, (graph w).Needs (rule n stem) p ∧ ∃ m ∈ ms, p.name = some m) ↔
      ∃ m ∈ ms, Name.rules.Needs n m := by
  constructor
  · rintro ⟨p, hp, m, hm, hname⟩
    cases p with
    | source l path => cases hname
    | rule k s => exact ⟨m, hm, needs_name (Option.some.inj hname ▸ hp)⟩
  · rintro ⟨m, hm, hneeds⟩
    obtain ⟨s, -, hp⟩ := exists_needs hw hn hs hneeds
    exact ⟨rule m s, hp, m, hm, rfl⟩

/-! ## A build from nothing -/

theorem past_checkout (g : Goals w) {now : ℕ} (hnow : 0 < now) : Past (scope g) checkout now := by
  intro t _ m hm
  cases t with
  | rule n s => simp [Rules.time, checkout] at hm
  | source l path =>
      obtain rfl : (0 : ℕ) = m := Option.some.inj hm
      exact hnow

section Only

variable (hsimple : n.Simple) (hn : "" ∈ n.members w)

include hsimple hn

theorem mem_scope_only {t : Target} (h : (graph w).Wanted (Goals.only w n hn).targets t) :
    (scope (Goals.only w n hn)).mem t := by
  refine ⟨h, fun m hm hneeds => ?_⟩
  obtain ⟨u, hu, hut⟩ := h
  have hneeds := hut.trans hneeds
  rw [List.mem_singleton.mp hu] at hneeds
  exact (hsimple m m.mem_all (needs_name hneeds)).2 hm

theorem fresh_only (t : Target) (ht : (scope (Goals.only w n hn)).mem t)
    (_hphony : t.phony = false) :
    (scope (Goals.only w n hn)).fresh t ∨ (graph w).prereqs t = [] := by
  cases t with
  | source l path => exact .inr rfl
  | rule m s =>
      obtain ⟨u, hu, hut⟩ := ht.1
      rw [List.mem_singleton.mp hu] at hut
      exact .inl ⟨m, s, rfl, (hsimple m m.mem_all (needs_name hut)).1⟩

theorem exists_completes : ∃ es s, Completes (Goals.only w n hn) checkout 1 es s ∧
    ∀ u, (graph w).made u = false → (graph w).prereqs u = [] ∧ ¬ Outdated (graph w) s.files u := by
  obtain ⟨es, s, hrun, hplain, hup, hsources⟩ :=
    exists_run_updated checkout 1 (not_outdated_source w)
  refine ⟨es, s, ⟨past_checkout _ Nat.zero_lt_one, ?_, hrun, fun t ht => hup t ht.1⟩, hsources⟩
  exact hplain.mono fun s e h => tidy_of_plain (fresh_only hsimple hn) h

theorem exists_next (files : Files Target) (now : ℕ)
    (hsources : ∀ u, (graph w).made u = false →
      (graph w).prereqs u = [] ∧ ¬ Outdated (graph w) files u) :
    ∃ es s, Throughout (step (graph w) (Goals.only w n hn).targets)
        (Tidy (scope (Goals.only w n hn))) (init files now) es ∧
      run (step (graph w) (Goals.only w n hn).targets) (init files now) es = some s ∧
      ∀ t, (graph w).Wanted (Goals.only w n hn).targets t → s.phase t = .updated := by
  obtain ⟨es, s, hrun, hplain, hup, -⟩ := exists_run_updated files now hsources
  exact ⟨es, s, hplain.mono fun s e h => tidy_of_plain (fresh_only hsimple hn) h, hrun, hup⟩

end Only

/-! ## After a goal that removes files -/

/-- What needs a kept file is removed with it. -/
theorem Clean.removes_of_kept (c : Clean) :
    ∀ m ∈ Name.kept, (∃ k ∈ c.removes, Name.rules.Needs m k) →
      ∀ n, m ∈ n.prereqs → n ∈ c.removes := by
  have hall : ∀ m ∈ Name.kept, (∃ k ∈ c.removes, Name.rules.Needs m k) →
      ∀ n ∈ Name.all, m ∈ n.prereqs → n ∈ c.removes := by
    cases c <;> decide +kernel
  exact fun m hm h n => hall m hm h n n.mem_all

section After

variable {g : Goals w} {files : Files Target} {now : ℕ} {es : List (Event Target)}
  {s : Make.State Target}

namespace Completes

variable (h : Completes g files now es s)

include h

theorem not_dirty {t : Target} (ht : (scope g).mem t) (hphony : t.phony = false) :
    ¬ Dirty (graph w) s.files t :=
  not_dirty_of_updated h.past h.tidy h.ends ht (h.updated t ht) hphony

theorem le_now {t : Target} (ht : (scope g).mem t) : ∀ m ∈ (graph w).time s.files t, m ≤ s.now :=
  (settled_of_run h.past h.tidy h.ends).le_now t ht (by simp [h.updated t ht])

theorem firm_remove (hw : w.sfds ≠ []) (c : Clean) :
    Firm (scope g) (remove c.Removes s.files) := by
  intro t ht p hp hstale hdirty
  have hpmem := (scope g).closed t ht p hp
  cases hphony : t.phony with
  | true => simp [Rules.time, graph, hphony]
  | false =>
      have hpphony : p.phony = false := phony_of_mem_prereqs hphony hp
      obtain ⟨q, hq, hremoves⟩ := (dirty_remove_iff (h.not_dirty hpmem hpphony)).mp hdirty
      cases p with
      | source l path =>
          -- a source needs nothing, and is not removed
          rcases Rules.needs_iff.mp hq with rfl | hdep
          · obtain ⟨k, -, hk⟩ := hremoves
            cases hk
          · obtain ⟨q, hq, -⟩ := Rules.depends_iff.mp hdep
            simp [graph, Target.prereqs] at hq
      | rule m s' =>
          have hkept : m ∈ Name.kept := by
            refine Name.mem_kept_of_not_fresh hpphony ?_
            by_contra hfresh
            exact hstale ⟨m, s', rfl, by simpa using hfresh⟩
          cases t with
          | source l path => simp [graph, Target.prereqs] at hp
          | rule k stem =>
              have hmem : m ∈ k.prereqs := by
                rcases Target.mem_prereqs_rule stem hp with
                  ⟨k', hm, _, _, heq⟩ | ⟨l, _, c, hc, heq⟩ | ⟨l, _, path, heq⟩
                · exact (Target.rule.inj heq).1 ▸ hm
                · exact absurd hkept ((Target.rule.inj heq).1 ▸ (Name.clone_phony l c hc).2)
                · cases heq
              have hs' := g.listed_of_wanted hpmem.1
              have hneeds := (exists_needs_iff hw hpphony hs' c.removes).mp ⟨q, hq, hremoves⟩
              have hgone := c.removes_of_kept m hkept hneeds k hmem
              have hremoved : c.Removes (rule k stem) := ⟨k, hgone, rfl⟩
              simp [Rules.time, remove, hremoved]

theorem rebuilt_remove_iff (c : Clean) (hw : w.sfds ≠ []) {now' : ℕ}
    {es' : List (Event Target)} {s' : Make.State Target} (hnow : s.now < now')
    (htidy : Throughout (step (graph w) g.targets) (Tidy (scope g))
      (init (remove c.Removes s.files) now') es')
    (hrun : run (step (graph w) g.targets) (init (remove c.Removes s.files) now') es' = some s')
    (hmem : (scope g).mem (rule n stem)) (hfresh : n.fresh = true)
    (hup : s'.phase (rule n stem) = .updated) :
    Rebuilt now' s' (rule n stem) ↔ ∃ m ∈ c.removes, Name.rules.Needs n m := by
  have hfresh' : (scope g).fresh (rule n stem) := ⟨n, stem, rfl, hfresh⟩
  have hphony : n.phony = false := (scope g).file _ hfresh'
  have hpast : Past (scope g) (remove c.Removes s.files) now' := by
    intro t ht m hm
    refine Nat.lt_of_le_of_lt (h.le_now ht m ?_) hnow
    by_cases hremoved : c.Removes t
    · simp [Rules.time, remove, hremoved] at hm
    · have hsame : remove c.Removes s.files t = s.files t := by simp [remove, hremoved]
      exact time_congr hsame ▸ hm
  rw [Make.rebuilt_iff hpast htidy hrun (h.firm_remove hw c) hmem hfresh' hup,
    dirty_remove_iff (h.not_dirty hmem hphony)]
  exact exists_needs_iff hw hphony (g.listed_of_wanted hmem.1) c.removes

end Completes

/-- After a build of any goals nothing is started again that was built or found up to
date, on whatever goals, in whatever order, and whatever fails. -/
theorem not_started_again (h : Completes g files now es s) {goals : List Target} {now' : ℕ}
    {es' : List (Event Target)} {s' : Make.State Target} (hnow : s.now < now')
    (htidy : Throughout (step (graph w) goals) (Tidy (scope g)) (init s.files now') es')
    (hrun : run (step (graph w) goals) (init s.files now') es' = some s') {t : Target}
    (ht : (scope g).mem t) (hphony : t.phony = false) : s'.phase t ≠ .running := by
  have hpast : Past (scope g) s.files now' := fun u hu m hm =>
    Nat.lt_of_le_of_lt (h.le_now hu m hm) hnow
  have hfirm : Firm (scope g) s.files := by
    intro u hu p hp _ hdirty
    cases huphony : u.phony with
    | true => simp [Rules.time, graph, huphony]
    | false =>
        have hpphony : p.phony = false := phony_of_mem_prereqs huphony hp
        exact absurd hdirty (h.not_dirty ((scope g).closed u hu p hp) hpphony)
  exact fun hrunning => h.not_dirty ht hphony
    ((tracks_of_run hpast htidy hrun hfirm).running t ht hrunning)

/-- After a `clean` goal or `drop-prefix`, the next make makes again exactly the files
whose rules need a rule whose file has been removed, in whatever order it goes. -/
theorem rebuilt_after_clean_iff (c : Clean) (hw : w.sfds ≠ []) (h : Completes g files now es s)
    {now' : ℕ} {es' : List (Event Target)} {s' : Make.State Target} (hnow : s.now < now')
    (htidy : Throughout (step (graph w) g.targets) (Tidy (scope g))
      (init (remove c.Removes s.files) now') es')
    (hrun : run (step (graph w) g.targets) (init (remove c.Removes s.files) now') es' = some s')
    (hmem : (scope g).mem (rule n stem)) (hfresh : n.fresh = true)
    (hup : s'.phase (rule n stem) = .updated) :
    Rebuilt now' s' (rule n stem) ↔ ∃ m ∈ c.removes, Name.rules.Needs n m :=
  h.rebuilt_remove_iff c hw hnow htidy hrun hmem hfresh hup

theorem not_outdated_remove (c : Clean)
    (hsources : ∀ u, (graph w).made u = false →
      (graph w).prereqs u = [] ∧ ¬ Outdated (graph w) s.files u) (u : Target)
    (hu : (graph w).made u = false) :
    (graph w).prereqs u = [] ∧ ¬ Outdated (graph w) (remove c.Removes s.files) u := by
  obtain ⟨hleaf, hthere⟩ := hsources u hu
  refine ⟨hleaf, ?_⟩
  cases u with
  | rule n s => cases hu
  | source l path =>
      have hkept : ¬ c.Removes (source l path) := fun ⟨_, _, h⟩ => nomatch h
      have hsame : remove c.Removes s.files (source l path) = s.files (source l path) := by
        simp [remove, hkept]
      rwa [outdated_congr hsame (by simp [hleaf])]

/-- With one SDK header, and the source of ira. -/
def small : Listing := ⟨fun | .ira => ["ira.c"] | _ => [], ["exec"], [], ""⟩

/-- `make ira` and `make ira` install ira once. -/
theorem not_started_again_ira : ∃ es s es' s',
    Completes (Goals.only small .iraDone (by decide)) checkout 1 es s ∧
      run (step (graph small) [rule .iraDone ""]) (init s.files (s.now + 1)) es' = some s' ∧
      s'.phase (rule .ira "") ≠ .running := by
  have hsimple : Name.iraDone.Simple := by decide +kernel
  obtain ⟨es, s, h, hsources⟩ := exists_completes hsimple (w := small) (by decide)
  obtain ⟨es', s', htidy, hrun, -⟩ := exists_next hsimple (by decide) s.files (s.now + 1) hsources
  have hwanted : (graph small).Wanted (Goals.only small .iraDone (by decide)).targets
      (rule .ira "") := by
    decide +kernel
  refine ⟨es, s, es', s', h, hrun, ?_⟩
  exact not_started_again h (Nat.lt_succ_self _) htidy hrun
    (mem_scope_only hsimple (by decide) hwanted) rfl

/-- `make ira`, `make clean-ira` and `make ira` install ira twice. -/
theorem rebuilt_after_clean_ira : ∃ es s es' s',
    Completes (Goals.only small .iraDone (by decide)) checkout 1 es s ∧
      run (step (graph small) [rule .iraDone ""])
        (init (remove Clean.ira.Removes s.files) (s.now + 1)) es' = some s' ∧
      Rebuilt (s.now + 1) s' (rule .ira "") := by
  have hsimple : Name.iraDone.Simple := by decide +kernel
  obtain ⟨es, s, h, hsources⟩ := exists_completes hsimple (w := small) (by decide)
  obtain ⟨es', s', htidy, hrun, hup⟩ := exists_next hsimple (by decide)
    (remove Clean.ira.Removes s.files) (s.now + 1) (not_outdated_remove .ira hsources)
  have hwanted : (graph small).Wanted (Goals.only small .iraDone (by decide)).targets
      (rule .ira "") := by
    decide +kernel
  refine ⟨es, s, es', s', h, hrun, ?_⟩
  refine (rebuilt_after_clean_iff .ira (by decide) h (Nat.lt_succ_self _) htidy hrun
    (mem_scope_only hsimple (by decide) hwanted) rfl (hup _ hwanted)).mpr ?_
  exact ⟨.iraBuild, by decide, by decide +kernel⟩

/-! ## After `drop-prefix` -/

namespace Name

/-- The rules whose recipes install something in a directory that `drop-prefix`
removes. -/
def installed : List Name :=
  [binutilsDone, binutilsGdb, binutilsGprof, gccDone, fd2sfd, fd2pragma, ira, sfdc, vasmDone,
    vbccDone, vlinkDone, lhaDone, vbccTargetKick13Done, vbccTargetAmigaosDone, ndkIncludeNdk0,
    ndkIncludeInline, ndkIncludeLvo, ndkIncludeProto, ndkIncludeInlineHeader,
    ndkIncludeInlineVbcc, ndkIncludeLvoFile, ndkIncludeProtoHeader, ndkIncludeNdk13,
    netincludeDone, libamiga, libbamiga, newlibLibc, libnixDone, libpthreadDone, libgccDone,
    clib2Done, libdebugDone, .ixemul, libSDL12Done]

/-- Those that are not run again. -/
def lost : List Name :=
  [binutilsDone, binutilsGdb, binutilsGprof, gccDone, vasmDone, vbccDone, vlinkDone, lhaDone,
    vbccTargetKick13Done, vbccTargetAmigaosDone, ndkIncludeInline, ndkIncludeLvo,
    ndkIncludeProto]

theorem needs_dropped_iff : ∀ n ∈ installed, n.fresh = true ∧
    ((∃ m ∈ Clean.dropPrefix.removes, rules.Needs n m) ↔ n ∉ lost) := by
  decide +kernel

end Name

/-- What a make after `drop-prefix` leaves out: the binutils, gdb, gprof and gcc, the
assembler, compiler and linker of vbcc with their targets, `lha`, and the directories of
the NDK are not installed again, and everything else is. -/
theorem lost_iff (hn : n ∈ Name.installed) (hw : w.sfds ≠ []) (h : Completes g files now es s)
    {now' : ℕ} {es' : List (Event Target)} {s' : Make.State Target} (hnow : s.now < now')
    (htidy : Throughout (step (graph w) g.targets) (Tidy (scope g))
      (init (remove Clean.dropPrefix.Removes s.files) now') es')
    (hrun : run (step (graph w) g.targets) (init (remove Clean.dropPrefix.Removes s.files) now')
      es' = some s')
    (hmem : (scope g).mem (rule n stem)) (hup : s'.phase (rule n stem) = .updated) :
    ¬ Rebuilt now' s' (rule n stem) ↔ n ∈ Name.lost := by
  obtain ⟨hfresh, hneeds⟩ := Name.needs_dropped_iff n hn
  rw [h.rebuilt_remove_iff _ hw hnow htidy hrun hmem hfresh hup, hneeds, not_not]

/-- `make vasm`, `make drop-prefix` and `make vasm` leave no vasm installed. -/
theorem lost_vasm : ∃ es s es' s',
    Completes (Goals.only small .vasmDone (by decide)) checkout 1 es s ∧
      run (step (graph small) [rule .vasmDone ""])
        (init (remove Clean.dropPrefix.Removes s.files) (s.now + 1)) es' = some s' ∧
      ¬ Rebuilt (s.now + 1) s' (rule .vasmDone "") := by
  have hsimple : Name.vasmDone.Simple := by decide +kernel
  obtain ⟨es, s, h, hsources⟩ := exists_completes hsimple (w := small) (by decide)
  obtain ⟨es', s', htidy, hrun, hup⟩ := exists_next hsimple (by decide)
    (remove Clean.dropPrefix.Removes s.files) (s.now + 1) (not_outdated_remove .dropPrefix hsources)
  have hwanted : (graph small).Wanted (Goals.only small .vasmDone (by decide)).targets
      (rule .vasmDone "") := by
    decide +kernel
  refine ⟨es, s, es', s', h, hrun, ?_⟩
  exact (lost_iff (by decide) (by decide) h (Nat.lt_succ_self _) htidy hrun
    (mem_scope_only hsimple (by decide) hwanted) (hup _ hwanted)).mpr (by decide)

/-! ## After an edit -/

def Edited (l : Listed) (E : String → Bool) : Target → Prop
  | rule _ _ => False
  | source l' path => l' = l ∧ E path = true

instance (l : Listed) (E : String → Bool) : DecidablePred (Edited l E)
  | rule _ _ => inferInstanceAs (Decidable False)
  | source _ _ => inferInstanceAs (Decidable (_ ∧ _))

theorem Name.finds_of_kept : ∀ m ∈ kept, ∀ k ∈ all, rules.Needs m k → k.finds = [] := by
  decide +kernel

theorem source_mem_prereqs_iff {l : Listed} {path : String} :
    source l path ∈ (graph w).prereqs (rule n stem) ↔
      l ∈ n.finds ∧ path ∈ l.paths w ∧ l.target path = source l path := by
  constructor
  · intro h
    rcases List.mem_append.mp h with h | h
    · obtain ⟨m, -, h⟩ := List.mem_flatMap.mp h
      obtain ⟨s, -, h⟩ := List.mem_map.mp h
      cases h
    · obtain ⟨l', hl, h⟩ := List.mem_flatMap.mp h
      obtain ⟨path', hpath, heq⟩ := List.mem_map.mp h
      rw [Listed.target] at heq
      split at heq
      · next file m hclone =>
          split at heq
          · cases heq
          · next hne =>
              obtain ⟨rfl, rfl⟩ := Target.source.inj heq
              exact ⟨hl, hpath, by simp [Listed.target, hclone, hne]⟩
      · next hclone =>
          obtain ⟨rfl, rfl⟩ := Target.source.inj heq
          exact ⟨hl, hpath, by simp [Listed.target, hclone]⟩
  · rintro ⟨hl, hpath, heq⟩
    exact List.mem_append_right _ (List.mem_flatMap.mpr
      ⟨l, hl, List.mem_map.mpr ⟨path, hpath, heq⟩⟩)

theorem depends_edited_iff {l : Listed} {E : String → Bool} (hw : w.sfds ≠ [])
    (hn : n.phony = false) (hs : stem ∈ n.members w)
    (hE : ∃ path ∈ l.paths w, E path = true ∧ l.target path = source l path) :
    (∃ p, (graph w).Depends (rule n stem) p ∧ Edited l E p) ↔
      ∃ m, l ∈ m.finds ∧ Name.rules.Needs n m := by
  constructor
  · rintro ⟨p, hdep, hedited⟩
    cases p with
    | rule m s => exact hedited.elim
    | source l' path =>
        obtain ⟨rfl, -⟩ := hedited
        obtain ⟨q, hq, hmem⟩ := Rules.exists_mem_of_depends hdep
        cases q with
        | source l path => simp [graph, Target.prereqs] at hmem
        | rule m s => exact ⟨m, (source_mem_prereqs_iff.mp hmem).1, needs_name hq⟩
  · rintro ⟨m, hl, hneeds⟩
    obtain ⟨path, hpath, hEpath, htarget⟩ := hE
    obtain ⟨s, -, hp⟩ := exists_needs hw hn hs hneeds
    have hmem : source l path ∈ (graph w).prereqs (rule m s) :=
      source_mem_prereqs_iff.mpr ⟨hl, hpath, htarget⟩
    exact ⟨source l path, Rules.depends_of_needs_mem hp hmem, rfl, hEpath⟩

namespace Completes

variable (h : Completes g files now es s)

include h

theorem dirty_edit_iff {l : Listed} {E : String → Bool} {later : ℕ} (hlater : s.now < later)
    {t : Target} (ht : (scope g).mem t) (hphony : t.phony = false) :
    Dirty (graph w) (edit (Edited l E) later s.files) t ↔
      ∃ p, (graph w).Depends t p ∧ Edited l E p := by
  refine Make.dirty_edit_iff (fun p hp => ?_) (fun p hp m hm => ?_) (h.not_dirty ht hphony)
  · cases p with
    | rule n s => exact hp.elim
    | source l path => exact ⟨rfl, rfl⟩
  · exact Nat.lt_of_le_of_lt (h.le_now ((scope g).mem_of_needs ht hp) m hm) hlater

theorem firm_edit {l : Listed} {E : String → Bool} {later : ℕ} (hlater : s.now < later) :
    Firm (scope g) (edit (Edited l E) later s.files) := by
  intro t ht p hp hstale hdirty
  have hpmem := (scope g).closed t ht p hp
  cases hphony : t.phony with
  | true => simp [Rules.time, graph, hphony]
  | false =>
      have hpphony : p.phony = false := phony_of_mem_prereqs hphony hp
      obtain ⟨q, hq, hedited⟩ := (h.dirty_edit_iff hlater hpmem hpphony).mp hdirty
      cases q with
      | rule m s => exact hedited.elim
      | source l' path =>
          obtain ⟨k, hk, hmem⟩ := Rules.exists_mem_of_depends hq
          cases k with
          | source l path => simp [graph, Target.prereqs] at hmem
          | rule k s' =>
              cases p with
              | source l path =>
                  obtain ⟨q, hq, -⟩ := Rules.depends_iff.mp hq
                  simp [graph, Target.prereqs] at hq
              | rule m s'' =>
                  have hkept : m ∈ Name.kept := by
                    refine Name.mem_kept_of_not_fresh hpphony ?_
                    by_contra hfresh
                    exact hstale ⟨m, s'', rfl, by simpa using hfresh⟩
                  have hnil := Name.finds_of_kept m hkept k k.mem_all (needs_name hk)
                  have hl := (source_mem_prereqs_iff.mp hmem).1
                  simp [hnil] at hl

end Completes

theorem not_outdated_edit (l : Listed) (E : String → Bool) (later : ℕ)
    (hsources : ∀ u, (graph w).made u = false →
      (graph w).prereqs u = [] ∧ ¬ Outdated (graph w) s.files u) (u : Target)
    (hu : (graph w).made u = false) :
    (graph w).prereqs u = [] ∧ ¬ Outdated (graph w) (edit (Edited l E) later s.files) u := by
  obtain ⟨hleaf, hthere⟩ := hsources u hu
  refine ⟨hleaf, ?_⟩
  obtain ⟨m, hm, -⟩ := not_outdated_iff.mp hthere
  have hphony : (graph w).phony u = false := by
    cases u with
    | rule n s => cases hu
    | source l path => rfl
  simp only [Rules.time, hphony, Bool.false_eq_true, if_false] at hm
  refine not_outdated_iff.mpr ⟨if Edited l E u then later else m, ?_, by simp [hleaf]⟩
  simp only [Rules.time, hphony, Bool.false_eq_true, if_false, edit, hm]
  split <;> rfl

/-- After sources of a project are edited, the next make makes again exactly the files
whose rules need the rule that the sources are listed for. -/
theorem rebuilt_after_edit_iff (l : Listed) (E : String → Bool)
    (hE : ∃ path ∈ l.paths w, E path = true ∧ l.target path = source l path) (hw : w.sfds ≠ [])
    (h : Completes g files now es s) {later now' : ℕ} {es' : List (Event Target)}
    {s' : Make.State Target} (hlater : s.now < later) (hnow : later < now')
    (htidy : Throughout (step (graph w) g.targets) (Tidy (scope g))
      (init (edit (Edited l E) later s.files) now') es')
    (hrun : run (step (graph w) g.targets) (init (edit (Edited l E) later s.files) now') es' =
      some s')
    (hmem : (scope g).mem (rule n stem)) (hfresh : n.fresh = true)
    (hup : s'.phase (rule n stem) = .updated) :
    Rebuilt now' s' (rule n stem) ↔ ∃ m, l ∈ m.finds ∧ Name.rules.Needs n m := by
  have hfresh' : (scope g).fresh (rule n stem) := ⟨n, stem, rfl, hfresh⟩
  have hphony : n.phony = false := (scope g).file _ hfresh'
  have hpast : Past (scope g) (edit (Edited l E) later s.files) now' := by
    intro t ht m hm
    by_cases hedited : Edited l E t
    · have hfile : edit (Edited l E) later s.files t = some later := by simp [edit, hedited]
      rw [Rules.time, hfile] at hm
      split at hm
      · cases hm
      · exact Option.some.inj hm ▸ hnow
    · have hsame : edit (Edited l E) later s.files t = s.files t := by simp [edit, hedited]
      have hle := h.le_now ht m (time_congr hsame ▸ hm)
      exact Nat.lt_of_le_of_lt hle (Nat.lt_trans hlater hnow)
  rw [Make.rebuilt_iff hpast htidy hrun (h.firm_edit hlater) hmem hfresh' hup,
    h.dirty_edit_iff hlater hmem hphony]
  exact depends_edited_iff hw hphony (g.listed_of_wanted hmem.1) hE

/-- `make ira`, an edit of `ira.c` and `make ira` install ira twice. -/
theorem rebuilt_after_edit_ira : ∃ es s es' s',
    Completes (Goals.only small .iraDone (by decide)) checkout 1 es s ∧
      run (step (graph small) [rule .iraDone ""])
        (init (edit (Edited .ira (· = "ira.c")) (s.now + 1) s.files) (s.now + 2)) es' = some s' ∧
      Rebuilt (s.now + 2) s' (rule .ira "") := by
  have hsimple : Name.iraDone.Simple := by decide +kernel
  obtain ⟨es, s, h, hsources⟩ := exists_completes hsimple (w := small) (by decide)
  obtain ⟨es', s', htidy, hrun, hup⟩ := exists_next hsimple (by decide)
    (edit (Edited .ira (· = "ira.c")) (s.now + 1) s.files) (s.now + 2)
    (not_outdated_edit .ira _ _ hsources)
  have hwanted : (graph small).Wanted (Goals.only small .iraDone (by decide)).targets
      (rule .ira "") := by
    decide +kernel
  refine ⟨es, s, es', s', h, hrun, ?_⟩
  refine (rebuilt_after_edit_iff .ira (· = "ira.c") ⟨"ira.c", by decide, by decide, by decide⟩
    (by decide) h (Nat.lt_succ_self _) (Nat.lt_succ_self _) htidy hrun
    (mem_scope_only hsimple (by decide) hwanted) rfl (hup _ hwanted)).mpr ?_
  exact ⟨.iraBuild, by decide, by decide +kernel⟩

end After

end Build

end AmigaGcc
