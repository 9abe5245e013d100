import AmigaGcc.Mirror.Projects

/-!
# Single sources of a mirrored project

The sub-make finds a source as it is when three things come together: the copy takes
it, nothing deletes or replaces it again, and the rule of the copy depends on it. These are
the sources that a project `carries`; what `configure` and the sub-makes do themselves is
left out. `source_current_iff` has them for all projects: the rule of vlink carries nothing but
the `Makefile`, and where the copy is written with `*`, no file whose name starts with a
dot is ever there.
-/

namespace AmigaGcc

namespace Mirror

open Library Mtime

/-- `configure` and the sub-makes do not write the file. -/
structure Round.Leaves (r : Round) (g : Path) : Prop where
  configured : r.configured g = none
  prepared : r.prepared g = none
  worked : r.worked g = none

namespace Project

variable (p : Project) (g : Path)

/-- The last sub-makes have found the source `g` with the content it has now. -/
def Seen (s : Tree) : Prop :=
  ∀ b ∈ s.built, p.Source s g → ∀ seen ∈ b.seen, seen g = some (s.file (p.root ++ g)).content

def spares : Bool := p.between.all fun writes => !writes g

/-- The copy takes the file, its rule depends on the source, and the rules keep it. -/
def carries : Bool :=
  p.takes g && p.spares g &&
    match p.copy with
    | .own deps _ _ => deps (p.root ++ g)
    | .within drops => !drops g

end Project

/-! ## Sources that are carried -/

section Carried

variable {p : Project} {g : Path} {s : Tree} {r : Round}

/-- The build has seen the source, and when the source is not newer than the mirrored
`Makefile`, it is in the mirror. -/
structure Upheld (p : Project) (g : Path) (s : Tree) : Prop where
  inv : Inv p s
  seen : p.Seen g s
  copied : ∀ t ∈ s.makefileTime, p.root ++ g ∈ s.files → (s.file (p.root ++ g)).mtime ≤ t →
    p.Held s g

theorem upheld_initial (s : Sources p) : Upheld p g s.initial where
  inv := .initial s
  seen := fun _ h => nomatch h
  copied := fun _ h => nomatch h

theorem arrives_of_carries (hcarries : p.carries g = true) (hleaves : r.Leaves g) :
    p.Arrives s r g := by
  rw [Project.carries, Bool.and_eq_true, Bool.and_eq_true] at hcarries
  obtain ⟨⟨htakes, -⟩, hkept⟩ := hcarries
  rw [Project.Arrives]
  cases hcopy : p.copy with
  | own deps others finish =>
      cases finish with
      | nothing | touch => exact Or.inl htakes
      | configure => exact Or.inr ⟨hleaves.configured, Or.inl htakes⟩
  | within drops =>
      simp only [hcopy, Bool.not_eq_true'] at hkept
      exact ⟨hkept, Or.inl htakes⟩

theorem spares_of_spares (hspares : p.spares g = true) (hleaves : r.Leaves g) :
    p.Spares s r g := by
  intro writes hwrites
  have hnot : writes g = false := by
    simpa [Project.spares, Option.mem_def.mp hwrites] using hspares
  simp [hnot, hleaves.prepared]

theorem mirror_build (hspares : p.spares g = true) (hleaves : r.Leaves g) :
    (p.build r s).mirror g = s.mirror g := by
  rw [Project.build, Project.prepare]
  cases hbetween : p.between with
  | none => simp [Tree.overwrite, hleaves.worked]
  | some writes =>
      have hnot : writes g = false := by simpa [Project.spares, hbetween] using hspares
      simp [Tree.overwrite, hnot, hleaves.prepared, hleaves.worked]

theorem isSome_build (p : Project) (r : Round) (hleaves : ∀ g, r.Leaves g) {g : Path}
    (h : (s.mirror g).isSome = true) : ((p.build r s).mirror g).isSome = true := by
  rw [Project.build, Project.prepare]
  cases hbetween : p.between with
  | none => simpa [Tree.overwrite, (hleaves g).worked] using h
  | some writes =>
      cases hwrites : writes g <;>
        simp [Tree.overwrite, hwrites, (hleaves g).prepared, (hleaves g).worked, h]

theorem copied_edits (h : Upheld p g s) (es : List (Path × Content)) :
    ∀ t ∈ (s.edits es).makefileTime, p.root ++ g ∈ (s.edits es).files →
      ((s.edits es).file (p.root ++ g)).mtime ≤ t → p.Held (s.edits es) g := by
  intro t ht hg hle
  have htime : t ∈ s.makefileTime := by rwa [Tree.makefileTime, mirror_edits] at ht
  obtain ⟨y, hy, rfl⟩ := Option.map_eq_some_iff.mp htime
  obtain ⟨hmem, hfile⟩ := file_edits (h.inv.mirror_le makefile y hy) hg hle
  have hheld := h.copied y.mtime htime hmem (hfile ▸ hle)
  rw [Project.Held, Tree.held] at hheld ⊢
  rwa [mirror_edits, hfile]

/-- Without a copy the source is in the mirror when the sub-make is run. -/
theorem held_of_builds (hcarries : p.carries g = true)
    (hcopied : ∀ t ∈ s.makefileTime, p.root ++ g ∈ s.files →
      (s.file (p.root ++ g)).mtime ≤ t → p.Held s g)
    (hg : p.root ++ g ∈ s.files) (hbuilds : p.builds s r = true)
    (hcopies : p.copies s r = false) : p.Held s g := by
  cases hcopy : p.copy with
  | within drops =>
      simp only [Project.builds, hcopy] at hbuilds
      exact absurd hbuilds (Bool.eq_false_iff.mp hcopies)
  | own deps others finish =>
      simp only [Project.carries, hcopy, Bool.and_eq_true] at hcarries
      simp only [Project.copies, hcopy, Bool.or_eq_false_iff, decide_eq_false_iff_not,
        not_outdated_iff] at hcopies
      obtain ⟨⟨t, ht, hall⟩, -⟩ := hcopies
      exact hcopied t ht hg (hall _ (Finset.mem_filter.mpr ⟨hg, hcarries.2⟩))

theorem Upheld.step (hlisted : p.listed (p.root ++ g) = true) (hcarries : p.carries g = true)
    (hleaves : r.Leaves g) (h : Upheld p g s) {t : Tree} (ht : p.step s r = some t) :
    Upheld p g t := by
  have hinv : Inv p (s.edits r.edits) := h.inv.edits r.edits
  have hcopied := copied_edits h r.edits
  have hnext : Inv p t := h.inv.step ht
  obtain rfl := Option.some.inj ht
  rw [Project.make] at hnext ⊢
  by_cases hbuilds : p.builds (s.edits r.edits) r = true
  · rw [if_pos hbuilds] at hnext ⊢
    -- what the sub-make finds
    let found := if p.copies (s.edits r.edits) r then p.refresh r (s.edits r.edits)
      else s.edits r.edits
    have hfiles : found.files = (s.edits r.edits).files := by
      simp only [found]
      split <;> rfl
    have hspares : p.spares g = true := by
      rw [Project.carries, Bool.and_eq_true, Bool.and_eq_true] at hcarries
      exact hcarries.1.2
    have hheld : p.root ++ g ∈ (s.edits r.edits).files → p.Held found g := by
      intro hg
      by_cases hcopies : p.copies (s.edits r.edits) r = true
      · simp only [found, if_pos hcopies]
        exact (held_refresh_iff hinv r ⟨hg, hlisted⟩).mpr (arrives_of_carries hcarries hleaves)
      · simp only [found, if_neg hcopies]
        exact held_of_builds hcarries hcopied hg hbuilds (Bool.eq_false_iff.mpr hcopies)
    refine ⟨hnext, fun b hb hg => ?_, fun t ht hg hle => ?_⟩
    · rw [Project.Source, p.files_build, hfiles] at hg
      rw [p.file_build]
      exact seen_build_iff.mpr ⟨hheld hg.1, spares_of_spares hspares hleaves⟩ b hb
    · rw [p.files_build, hfiles] at hg
      have hmem := hheld hg
      rw [Project.Held, Tree.held] at hmem ⊢
      rw [mirror_build hspares hleaves, p.file_build]
      exact hmem
  · have hcopies : ¬ p.copies (s.edits r.edits) r = true := fun hcopies =>
      hbuilds (builds_of_copies hcopies)
    rw [if_neg hbuilds, if_neg hcopies] at hnext ⊢
    refine ⟨hnext, fun b hb hg => ?_, hcopied⟩
    obtain ⟨b', hb', hle⟩ := built_of_not_builds (Bool.eq_false_iff.mpr hbuilds)
    obtain rfl : b' = b := Option.some.inj (hb'.symm.trans hb)
    rw [edits_built] at hb
    obtain ⟨hmem, hfile⟩ := file_edits (h.inv.built_le b' hb) hg.1 (hle _ hg.1 hg.2)
    rw [hfile]
    exact h.seen b' hb ⟨hmem, hg.2⟩

theorem always_seen_of_carries (hlisted : p.listed (p.root ++ g) = true)
    (hcarries : p.carries g = true) (s : Sources p) (rs : List Round)
    (hleaves : ∀ r ∈ rs, r.Leaves g) :
    Transition.Always p.step (p.Seen g) s.initial rs := by
  have hall : Transition.Always p.step (Upheld p g) s.initial rs :=
    Transition.always_of_throughout
      (fun _ _ _ h hleaves ht => h.step hlisted hcarries hleaves ht) (upheld_initial s)
      (Transition.throughout_of_forall hleaves _)
  exact hall.mono fun _ h => h.seen

end Carried

/-! ## Sources that are missed -/

section Missed

variable {p : Project} {g : Path}

def small (p : Project) (g : Path) : Sources p where
  now := 0
  files := {p.key, p.root ++ makefile, p.root ++ g}
  file := fun _ => ⟨[0], 0⟩
  key_mem := by simp
  mtime_le := fun _ _ => Nat.le_refl 0

theorem leaves_quietRound (es : List (Path × Content)) : (quietRound es).Leaves g :=
  ⟨rfl, rfl, rfl⟩

theorem copies_initial (s : Sources p) (r : Round) : p.copies s.initial r = true := by
  cases hcopy : p.copy <;>
    simp [Project.copies, Project.overdue, hcopy, Tree.makefileTime, Sources.initial, Outdated]

theorem step_initial (s : Sources p) : p.step s.initial (quietRound []) =
    some (p.build (quietRound []) (p.refresh (quietRound []) s.initial)) := by
  have hcopies := copies_initial s (quietRound [])
  have hedits : s.initial.edits (quietRound []).edits = s.initial := rfl
  rw [Project.step, hedits, Project.make, if_pos hcopies, if_pos (builds_of_copies hcopies)]

theorem source_initial (hlisted : p.listed (p.root ++ g) = true) :
    p.Source (small p g).initial g := ⟨by simp [Sources.initial, small], hlisted⟩

/-- The first build finds what arrives in the mirror and is spared. -/
theorem held_of_always (hlisted : p.listed (p.root ++ g) = true) {rs : List Round}
    (h : Transition.Always p.step (p.Seen g) (small p g).initial (quietRound [] :: rs)) :
    p.Held (p.refresh (quietRound []) (small p g).initial) g ∧
      p.Spares (small p g).initial (quietRound []) g := by
  have hseen : p.Seen g (p.build (quietRound []) (p.refresh (quietRound []) (small p g).initial)) :=
    (h.2 _ (step_initial _)).head
  rw [Project.Seen, Project.Source, p.files_build, p.file_build] at hseen
  exact seen_build_iff.mp fun b hb => hseen b hb (source_initial hlisted)

theorem exists_missed_of_not_seen (hlisted : p.listed (p.root ++ g) = true)
    (h : ¬ (p.Arrives (small p g).initial (quietRound []) g ∧
      p.Spares (small p g).initial (quietRound []) g)) :
    ∃ s : Sources p, ∃ rs : List Round, (∀ r ∈ rs, r.Leaves g) ∧
      ¬ Transition.Always p.step (p.Seen g) s.initial rs := by
  refine ⟨small p g, [quietRound []], by simp [leaves_quietRound], fun halways => h ?_⟩
  obtain ⟨hheld, hspares⟩ := held_of_always hlisted halways
  exact ⟨(held_refresh_iff (.initial _) _ (source_initial hlisted)).mp hheld, hspares⟩

/-- When the rule of the copy does not depend on the source, an edit of it is built from
the old copy. -/
theorem exists_missed_of_own {deps : Path → Bool} {others : Bool} {finish : Finish}
    (hcopy : p.copy = .own deps others finish) (hlisted : p.listed (p.root ++ g) = true)
    (hspares : p.spares g = true) (hdeps : deps (p.root ++ g) = false) :
    ∃ s : Sources p, ∃ rs : List Round, (∀ r ∈ rs, r.Leaves g) ∧
      ¬ Transition.Always p.step (p.Seen g) s.initial rs := by
  refine ⟨small p g, [quietRound [], quietRound [(p.root ++ g, [1])]],
    by simp [leaves_quietRound], fun h => ?_⟩
  obtain ⟨hheld, -⟩ := held_of_always hlisted h
  let refreshed := p.refresh (quietRound []) (small p g).initial
  let edited := (p.build (quietRound []) refreshed).edit (p.root ++ g, [1])
  have hseen : p.Seen g (p.make (quietRound [(p.root ++ g, [1])]) edited) :=
    ((h.2 _ (step_initial _)).2 _ rfl).head
  have hmakefile : ∃ t, edited.makefileTime = some t := by
    have hmem : p.root ++ makefile ∈ (small p g).initial.files := by
      simp [Sources.initial, small]
    have hrsync := (Inv.initial (small p g)).rsync_eq hmem p.takes_makefile
    have hrefreshed : (refreshed.mirror makefile).isSome = true := by
      cases finish <;>
        simp [refreshed, Project.refresh, Project.settle, hcopy, quietRound, hrsync]
    have hthere := isSome_build p (quietRound []) (fun _ => ⟨rfl, rfl, rfl⟩) hrefreshed
    obtain ⟨y, hy⟩ := Option.isSome_iff_exists.mp hthere
    exact ⟨y.mtime, by simp [edited, Tree.edit, Tree.makefileTime, hy]⟩
  have hcopies : p.copies edited (quietRound [(p.root ++ g, [1])]) = false := by
    obtain ⟨t, ht⟩ := hmakefile
    have hcurrent : ¬ Outdated edited.makefileTime (edited.files.filter fun f => deps f)
        edited.file := by
      refine not_outdated_iff.mpr ⟨t, ht, fun f hf => ?_⟩
      have hne : f ≠ p.root ++ g := by
        rintro rfl
        simp [hdeps] at hf
      simp [edited, refreshed, Tree.edit, Project.refresh, Sources.initial, small, hne]
    simp [Project.copies, hcopy, hcurrent, quietRound]
  have hbuilds : p.builds edited (quietRound [(p.root ++ g, [1])]) = true := by
    have hown : p.deps (p.root ++ g) = true := by
      rcases p.covered _ hlisted with hown | ⟨d, o, t, hcopy', hd⟩
      · exact hown
      · rw [hcopy, Copy.own.injEq] at hcopy'
        rw [hcopy'.1, hd] at hdeps
        cases hdeps
    have hoverdue : Outdated (edited.built.map Build.time)
        (edited.files.filter fun f => p.deps f) edited.file := by
      intro t ht
      refine ⟨p.root ++ g, by simp [edited, Tree.edit, hown], ?_⟩
      simp only [edited, Tree.edit, p.built_build, p.now_build, Option.map_some,
        Option.mem_some_iff, Function.update_self] at ht ⊢
      omega
    simp [Project.builds, Project.overdue, hcopy, hoverdue]
  rw [Project.make, if_pos hbuilds, hcopies] at hseen
  have hmem : p.root ++ g ∈ edited.files := Finset.mem_insert_self _ _
  have hsource : p.Source (p.build (quietRound [(p.root ++ g, [1])]) edited) g :=
    ⟨by rwa [p.files_build], hlisted⟩
  have hnew := hseen _ rfl hsource _ List.mem_cons_self
  rw [p.file_build] at hnew
  have hold : edited.held g = some [0] := by
    have hmirror := mirror_build (s := refreshed) hspares (leaves_quietRound (g := g) [])
    exact (congrArg (Option.map File.content) hmirror).trans hheld
  have hcontent : (edited.file (p.root ++ g)).content = [1] := by simp [edited, Tree.edit]
  exact absurd (hold.symm.trans (hnew.trans (congrArg some hcontent))) (by decide)

theorem exists_missed (hlisted : p.listed (p.root ++ g) = true) (hcarries : p.carries g = false) :
    ∃ s : Sources p, ∃ rs : List Round, (∀ r ∈ rs, r.Leaves g) ∧
      ¬ Transition.Always p.step (p.Seen g) s.initial rs := by
  have hmirror : ¬ p.Held (small p g).initial g := by
    simp [Project.Held, Tree.held, Sources.initial]
  cases hspares : p.spares g with
  | false =>
      refine exists_missed_of_not_seen hlisted fun h => ?_
      cases hbetween : p.between with
      | none => simp [Project.spares, hbetween] at hspares
      | some writes =>
          have hg : writes g = true := by simpa [Project.spares, hbetween] using hspares
          have hgenerated := h.2 writes hbetween
          simp [hg, quietRound, Sources.initial, small] at hgenerated
  | true =>
      simp only [Project.carries, hspares, Bool.and_true] at hcarries
      cases hcopy : p.copy with
      | within drops =>
          refine exists_missed_of_not_seen hlisted fun h => ?_
          have harrives := h.1
          simp only [hcopy, Bool.and_eq_false_iff, Bool.not_eq_false'] at hcarries
          simp only [Project.Arrives, hcopy, hmirror, or_false] at harrives
          rcases hcarries with htakes | hdrops
          · simp [htakes] at harrives
          · simp [hdrops] at harrives
      | own deps others finish =>
          simp only [hcopy, Bool.and_eq_false_iff] at hcarries
          rcases hcarries with htakes | hdeps
          · refine exists_missed_of_not_seen hlisted fun h => ?_
            have harrives := h.1
            cases finish <;> simp [Project.Arrives, hcopy, hmirror, htakes, quietRound] at harrives
          · exact exists_missed_of_own hcopy hlisted hspares hdeps

end Missed

/-! ## The projects -/

/-- What the copies of the Makefile carry. -/
def Name.carries : Name → Path → Bool
  | .sfdc, g | .vasm, g => excludeGit g
  | .vbcc, g => excludeGit g && !generated g
  | .vlink, g => g = makefile
  | .clib2, g => star g && !archive g
  | .libpthread, g | .libSDL12, g => star g

theorem carries_eq (P : Name) {g : Path}
    (hlisted : P.project.listed (P.project.root ++ g) = true) :
    P.project.carries g = P.carries g := by
  cases P with
  | sfdc | vasm | vbcc | libSDL12 =>
      have hdeps : findPruned g = true := hlisted
      simp [Project.carries, Project.spares, Name.carries, Name.project, sfdc, vasm, vbcc,
        libSDL12, hdeps]
  | vlink =>
      simp only [Project.carries, Project.spares, Name.carries, Name.project, vlink,
        List.nil_append]
      by_cases hg : g = makefile
      · rw [hg]
        decide
      · simp [hg]
  | clib2 => simp [Project.carries, Project.spares, Name.carries, Name.project, clib2]
  | libpthread =>
      simp [Project.carries, Project.spares, Name.carries, Name.project, libpthread]

/-- For every source of the seven projects: each build finds it as it is, after all edits
of all files and however often make is run, if and only if it is one of those that are
carried, while neither `configure` nor a sub-make writes it. -/
theorem source_current_iff (P : Name) (g : Path)
    (hlisted : P.project.listed (P.project.root ++ g) = true) :
    (∀ (s : Sources P.project) (rs : List Round), (∀ r ∈ rs, r.Leaves g) →
      Transition.Always P.project.step (P.project.Seen g) s.initial rs) ↔ P.carries g = true := by
  rw [← carries_eq P hlisted]
  constructor
  · intro h
    by_contra hcarries
    obtain ⟨s, rs, hleaves, hmissed⟩ := exists_missed hlisted (Bool.eq_false_iff.mpr hcarries)
    exact hmissed (h s rs hleaves)
  · exact fun hcarries s rs hleaves => always_seen_of_carries hlisted hcarries s rs hleaves

/-- An edit of `main.c` can be missed in vlink. -/
theorem source_current_vlink : ¬ ∀ (s : Sources vlink) (rs : List Round),
    (∀ r ∈ rs, r.Leaves ["main.c"]) →
      Transition.Always vlink.step (vlink.Seen ["main.c"]) s.initial rs :=
  fun h => absurd ((source_current_iff .vlink ["main.c"] (by decide)).mp h) (by decide)

end Mirror

end AmigaGcc
