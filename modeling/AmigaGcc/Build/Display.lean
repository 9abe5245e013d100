import AmigaGcc.Build.Steps

/-!
# The display of a parallel build

A watched run of make on the rules is a build together with `.state`, the list of
its running steps. `display_right_iff` says for which goals the list is right in
every build, in whatever order make takes the targets, and `logs_apart_iff` for
which goals no two recipes ever write into one log.
-/

namespace AmigaGcc

namespace Build

open Library Make Text Transition

open Progress (Log)

open Target (rule source)

/-- The state of a build: what make has done, what the recipes that run have still
to send, and `.state`. -/
abbrev State := Watched Target Progress.Event Log

variable {w : Listing}

abbrev Goals.step (g : Goals w) : State → Act Target Course → Option State :=
  watch (graph w) w.script Log.step g.targets

/-- The state in which make has read the Makefile; `left` is what other makes have left
in the files `.state`. -/
def State.initial (w : Listing) (left : Progress.Place → Option (List Chars))
    (files : Files Target) (now : ℕ) : State :=
  watchedInit files now (Log.initial (!w.sdk.isEmpty) left)

/-! ## The steps that are running -/

/-- The step that the recipe of the target is in. -/
def State.busy (s : State) (t : Target) : Option Progress.Step :=
  match (s.todo t).2 with
  | .finish p :: _ => some p
  | _ => none

inductive Between (l : List Progress.Step) : List Progress.Event → Prop where
  | steps {ps : List Progress.Step} (h : ps ⊆ l) : Between l (passes ps)
  | inside {p : Progress.Step} {ps : List Progress.Step} (h : p :: ps ⊆ l) :
      Between l (.finish p :: passes ps)

/-- What holds of every state of a build: the list counts the steps that recipes are
in, each recipe in one at most. -/
structure Tracked (g : Goals w) (s : State) : Prop where
  ordered : Ordered (graph w) s.make
  within : Within (graph w) g.targets s.make
  running : ∀ t, (s.todo t).2 ≠ [] → s.make.phase t = .running
  between : ∀ t, Between (w.labels t) (s.todo t).2
  counted : ∃ l : List Target, l.Nodup ∧ (∀ t, t ∈ l ↔ (s.busy t).isSome) ∧
    s.seen.running.Perm (l.filterMap s.busy)

theorem tracked_initial (g : Goals w) (left : Progress.Place → Option (List Chars))
    (files : Files Target) (now : ℕ) : Tracked g (State.initial w left files now) where
  ordered := ordered_init
  within := within_init
  running t h := absurd rfl h
  between t := .steps (List.nil_subset _)
  counted := ⟨[], List.nodup_nil, by simp [State.busy, State.initial, watchedInit], .refl _⟩

section Step

variable {g : Goals w} {s s' : State} {t : Target}

theorem mem_labels_of_busy (hs : Tracked g s) {p : Progress.Step} (hp : s.busy t = some p) :
    p ∈ w.labels t := by
  have hbetween := hs.between t
  rw [State.busy] at hp
  generalize (s.todo t).2 = l at hbetween hp
  cases hbetween with
  | @steps ps h => cases ps <;> simp [passes] at hp
  | @inside q ps h =>
      obtain rfl := Option.some.inj hp
      exact h List.mem_cons_self

theorem running_of_busy (hs : Tracked g s) {p : Progress.Step} (hp : s.busy t = some p) :
    s.make.phase t = .running := by
  refine hs.running t fun hnil => ?_
  simp [State.busy, hnil] at hp

theorem Tracked.wanted_of_busy (hs : Tracked g s) {p : Progress.Step} (hp : s.busy t = some p) :
    (graph w).Wanted g.targets t :=
  hs.within t (by simp [running_of_busy hs hp])

/-- What make has done in a build it can do by itself. -/
theorem Tracked.make {a : Act Target Course} (hs : Tracked g s) (h : g.step s a = some s') :
    Ordered (graph w) s'.make ∧ Within (graph w) g.targets s'.make :=
  make_invariant (I := fun m => Ordered (graph w) m ∧ Within (graph w) g.targets m)
    (fun _ _ _ hm hstep => ⟨hm.1.of_step hstep, (hm.2.of_step hstep).2⟩)
    ⟨hs.ordered, hs.within⟩ h

/-- Only the recipe of `t` has changed the step it is in. -/
theorem busy_update {x : Log} {m : Make.State Target} {k : ℕ} {l : List Progress.Event}
    {u : Target} (hu : u ≠ t) :
    State.busy ⟨m, Function.update s.todo t (k, l), x⟩ u = s.busy u := by
  simp [State.busy, Function.update_of_ne hu]

theorem busy_eq_none_of_passes {ps : List Progress.Step} (h : (s.todo t).2 = passes ps) :
    s.busy t = none := by
  rw [State.busy, h]
  cases ps <;> rfl

/-- Where the recipes are in the same steps and `.state` is the same, the count is
right as before. -/
theorem Tracked.counted_of_eq (hs : Tracked g s) (hbusy : s'.busy = s.busy)
    (hseen : s'.seen = s.seen) :
    ∃ l : List Target, l.Nodup ∧ (∀ t, t ∈ l ↔ (s'.busy t).isSome) ∧
      s'.seen.running.Perm (l.filterMap s'.busy) := by
  rw [hbusy, hseen]
  exact hs.counted

theorem Tracked.of_skip (hs : Tracked g s) (h : g.step s (.skip t) = some s') : Tracked g s' := by
  obtain ⟨hordered, hwithin⟩ := hs.make h
  obtain ⟨m, hm, rfl⟩ := Option.map_eq_some_iff.mp h
  refine ⟨hordered, hwithin, fun u hu => ?_, hs.between,
    hs.counted_of_eq rfl rfl⟩
  have hrunning := hs.running u hu
  have hut : u ≠ t := by
    rintro rfl
    have hw := (step_skip_eq_some.mp hm).1.2.1
    simp [hw] at hrunning
  exact (phase_of_ne hm hut).trans hrunning

theorem Tracked.of_start {i : Course} (hs : Tracked g s) (h : g.step s (.start t i) = some s') :
    Tracked g s' := by
  obtain ⟨hordered, hwithin⟩ := hs.make h
  obtain ⟨m, hm, rfl⟩ := Option.map_eq_some_iff.mp h
  have hw := (step_start_eq_some.mp hm).1.2.1
  obtain ⟨ps, hps, hlabels⟩ := script_spec w t i
  have htodo : (s.todo t).2 = [] := by
    by_contra hne
    simp [hs.running t hne] at hw
  have hbusy : State.busy ⟨m, Function.update s.todo t (w.script t i), s.seen⟩ = s.busy := by
    funext u
    by_cases hut : u = t
    · subst hut
      have hnew : State.busy ⟨m, Function.update s.todo u (w.script u i), s.seen⟩ u = none :=
        busy_eq_none_of_passes (by simpa using hps)
      have hnil : (s.todo u).2 = passes [] := htodo
      have hold : s.busy u = none := busy_eq_none_of_passes hnil
      rw [hnew, hold]
    · exact busy_update hut
  refine ⟨hordered, hwithin, fun u hu => ?_, fun u => ?_,
    hs.counted_of_eq hbusy rfl⟩
  · by_cases hut : u = t
    · exact hut ▸ (start_spec hm).1
    · exact (phase_of_ne hm hut).trans
        (hs.running u (by simpa [Function.update_of_ne hut] using hu))
  · by_cases hut : u = t
    · subst hut
      simp only [Function.update_self, hps]
      exact .steps hlabels
    · simpa [Function.update_of_ne hut] using hs.between u

theorem Tracked.of_finish {now : ℕ} {files : Files Target} (hs : Tracked g s)
    (h : g.step s (.finish t now files) = some s') : Tracked g s' := by
  obtain ⟨hordered, hwithin⟩ := hs.make h
  rw [Goals.step, watch] at h
  split at h
  · next hnil =>
      obtain ⟨m, hm, rfl⟩ := Option.map_eq_some_iff.mp h
      refine ⟨hordered, hwithin, fun u hu => ?_, hs.between,
        hs.counted_of_eq rfl rfl⟩
      have hut : u ≠ t := by
        rintro rfl
        exact hu hnil
      exact (phase_of_ne hm hut).trans (hs.running u hu)
  · cases h

/-- What a recipe sends: it enters a step, or it leaves the one it is in. -/
theorem send_cases (hs : Tracked g s) (h : g.step s (.send t) = some s') :
    ∃ p ps, p :: ps ⊆ w.labels t ∧
      ((s.busy t = none ∧ s.seen.step (.start p) = some s'.seen ∧
          s'.make = s.make ∧
          s'.todo = Function.update s.todo t ((s.todo t).1, .finish p :: passes ps)) ∨
        (s.busy t = some p ∧ s.seen.step (.finish p) = some s'.seen ∧
          s'.make = s.make ∧ s'.todo = Function.update s.todo t ((s.todo t).1, passes ps))) := by
  obtain ⟨e, l, htodo, x, hx, rfl⟩ := send_eq_some.mp h
  have hbetween := hs.between t
  rw [htodo] at hbetween
  generalize hl : e :: l = es at hbetween
  cases hbetween with
  | @steps ps hps =>
      cases ps with
      | nil => cases hl
      | cons p ps =>
          obtain ⟨rfl, rfl⟩ := List.cons.inj hl
          refine ⟨p, ps, hps, .inl ⟨?_, hx, rfl, rfl⟩⟩
          rw [State.busy, htodo]
  | @inside p ps hps =>
      obtain ⟨rfl, rfl⟩ := List.cons.inj hl
      refine ⟨p, ps, hps, .inr ⟨?_, hx, rfl, rfl⟩⟩
      rw [State.busy, htodo]

/-- When a recipe leaves its step, the other steps in the list are those of other
recipes. -/
theorem Tracked.erase_perm (hs : Tracked g s) {p : Progress.Step} (hp : s.busy t = some p) :
    ∃ l : List Target, l.Nodup ∧ t ∉ l ∧ (∀ u, u ∈ l ↔ u ≠ t ∧ (s.busy u).isSome) ∧
      (s.seen.running.erase p).Perm (l.filterMap s.busy) := by
  obtain ⟨l, hnodup, hmem, hperm⟩ := hs.counted
  have ht : t ∈ l := (hmem t).mpr (by simp [hp])
  refine ⟨l.erase t, hnodup.erase t, hnodup.not_mem_erase, fun u => ?_, ?_⟩
  · rw [hnodup.mem_erase_iff, hmem]
  · have hsplit : (l.filterMap s.busy).Perm (p :: (l.erase t).filterMap s.busy) := by
      simpa [hp] using (List.perm_cons_erase ht).filterMap s.busy
    simpa using (hperm.trans hsplit).erase p

theorem Tracked.of_send (hs : Tracked g s) (h : g.step s (.send t) = some s') : Tracked g s' := by
  obtain ⟨hordered, hwithin⟩ := hs.make h
  obtain ⟨p, ps, hlabels, hcases⟩ := send_cases hs h
  have hrunning : s.make.phase t = .running := by
    refine hs.running t fun hnil => ?_
    obtain ⟨e, l, htodo, -⟩ := send_eq_some.mp h
    simp [htodo] at hnil
  obtain ⟨rest, hmake, htodo, hrest⟩ : ∃ rest, s'.make = s.make ∧
      s'.todo = Function.update s.todo t ((s.todo t).1, rest) ∧ Between (w.labels t) rest := by
    rcases hcases with ⟨-, -, hmake, htodo⟩ | ⟨-, -, hmake, htodo⟩
    · exact ⟨_, hmake, htodo, .inside hlabels⟩
    · exact ⟨_, hmake, htodo, .steps fun q hq => hlabels (List.mem_cons_of_mem p hq)⟩
  have hsame : ∀ {u}, u ≠ t → s'.todo u = s.todo u := fun hu => by
    rw [htodo, Function.update_of_ne hu]
  have hother : ∀ {u}, u ≠ t → s'.busy u = s.busy u := fun hu => by
    rw [State.busy, State.busy, hsame hu]
  refine ⟨hordered, hwithin, fun u hu => ?_, fun u => ?_, ?_⟩
  · rw [hmake]
    by_cases hut : u = t
    · exact hut ▸ hrunning
    · exact hs.running u (hsame hut ▸ hu)
  · by_cases hut : u = t
    · rw [hut, htodo, Function.update_self]
      exact hrest
    · exact hsame hut ▸ hs.between u
  clear hrest htodo
  rcases hcases with ⟨hbusy, hstart, -, htodo⟩ | ⟨hbusy, hfinish, -, htodo⟩
  · -- a step is entered
    have hnew : s'.busy t = some p := by rw [State.busy, htodo, Function.update_self]
    obtain ⟨l, hnodup, hmem, hperm⟩ := hs.counted
    have ht : t ∉ l := by simp [hmem, hbusy]
    have hseen : s'.seen.running = s.seen.running ++ [p] := by
      rw [← Option.some.inj hstart]
    refine ⟨t :: l, List.nodup_cons.mpr ⟨ht, hnodup⟩, fun u => ?_, ?_⟩
    · by_cases hut : u = t
      · simp [hut, hnew]
      · simp [hut, hother hut, hmem]
    · have hcongr : l.filterMap s'.busy = l.filterMap s.busy :=
        List.filterMap_congr fun u hu => hother fun hut => ht (hut ▸ hu)
      rw [hseen, List.filterMap_cons_some hnew, hcongr]
      exact (List.perm_append_singleton p _).trans (hperm.cons p)
  · -- the step is left
    have hnew : s'.busy t = none :=
      busy_eq_none_of_passes (by rw [htodo, Function.update_self])
    obtain ⟨l, hnodup, ht, hmem, hperm⟩ := hs.erase_perm hbusy
    have hseen : s'.seen.running = s.seen.running.erase p := by
      simp only [Log.step] at hfinish
      split at hfinish
      · rw [← Option.some.inj hfinish]
      · cases hfinish
    refine ⟨l, hnodup, fun u => ?_, ?_⟩
    · by_cases hut : u = t
      · simp [hut, hnew, ht]
      · simp [hut, hother hut, hmem]
    · have hcongr : l.filterMap s'.busy = l.filterMap s.busy :=
        List.filterMap_congr fun u hu => hother fun hut => ht (hut ▸ hu)
      rw [hseen, hcongr]
      exact hperm

theorem Tracked.of_step {a : Act Target Course} (hs : Tracked g s) (h : g.step s a = some s') :
    Tracked g s' := by
  cases a with
  | skip t => exact hs.of_skip h
  | start t i => exact hs.of_start h
  | send t => exact hs.of_send h
  | finish t now files => exact hs.of_finish h

theorem tracked_of_run {left : Progress.Place → Option (List Chars)} {files : Files Target}
    {now : ℕ} {acts : List (Act Target Course)}
    (h : run g.step (State.initial w left files now) acts = some s) : Tracked g s :=
  run_invariant (fun _ _ _ hs hstep => Tracked.of_step hs hstep)
    (tracked_initial g left files now) h

end Step

/-! ## Steps that disturb each other -/

section Disturb

variable {g : Goals w} {s : State} {t u : Target} {p q : Progress.Step}

theorem name_of_mem_labels (h : p ∈ w.labels t) :
    ∃ n stem, t = rule n stem ∧ ∃ a ∈ n.steps, p.name = w.stepName t a := by
  cases t with
  | source l path => cases h
  | rule n stem =>
      obtain ⟨a, ha, hlabel⟩ := List.mem_filterMap.mp h
      rw [Listing.label] at hlabel
      split at hlabel
      · exact ⟨n, stem, rfl, a, ha, by rw [← Option.some.inj hlabel]⟩
      · cases hlabel

theorem place_of_mem_labels (h : p ∈ w.labels t) (ht : ∀ stem, t ≠ rule .lhaDone stem) :
    p.place = .top := by
  cases t with
  | source l path => cases h
  | rule n stem =>
      obtain ⟨a, -, hlabel⟩ := List.mem_filterMap.mp h
      rw [Listing.label] at hlabel
      split at hlabel
      · obtain rfl := Option.some.inj hlabel
        cases n
        case lhaDone => exact absurd rfl (ht stem)
        all_goals rfl
      · cases hlabel

/-- The goals that need the includes of the NDK need both programs that log under one
name. -/
theorem Goals.need_of_late {n : Name} {stem : String}
    (h : (graph w).Wanted g.targets (rule n stem)) (hn : n ≠ .makeAllSdk)
    (hlate : Name.fixed.Needs n .ndkIncludeNdk0) : g.Need .fd2sfd .fd2pragmaBuild := by
  have hndk : Name.fixed.Needs .ndkIncludeNdk0 .fd2sfd ∧
      Name.fixed.Needs .ndkIncludeNdk0 .fd2pragmaBuild := by decide +kernel
  exact ⟨Goals.wanted_of_needs h hn rfl (hlate.trans hndk.1),
    Goals.wanted_of_needs h hn rfl (hlate.trans hndk.2)⟩

/-- The name of a step that is running occurs in the line of another one only where
the goals need two rules whose steps disturb each other. -/
theorem need_of_occurs (hs : Tracked g s) (htu : t ≠ u) (ht : s.busy t = some p)
    (hu : s.busy u = some q) (hoccurs : occurs p.name q.line = true) :
    g.Need .fd2sfd .fd2pragmaBuild ∨ g.Need .vbccTargetKick13Done .vbccTargetAmigaosDone ∨
      t = rule .vbccTargetAmigaosLha "" ∧ u = rule .vbccTargetKick13Lha "" := by
  obtain ⟨n, stem, rfl, a, ha, hp⟩ := name_of_mem_labels (mem_labels_of_busy hs ht)
  obtain ⟨m, stem', rfl, b, hb, hq⟩ := name_of_mem_labels (mem_labels_of_busy hs hu)
  have hrunning := running_of_busy hs ht
  have hrunning' := running_of_busy hs hu
  have hwanted := hs.wanted_of_busy ht
  have hwanted' := hs.wanted_of_busy hu
  have hn : n ≠ .makeAllSdk := by
    rintro rfl
    cases ha
  have hm : m ≠ .makeAllSdk := by
    rintro rfl
    cases hb
  by_cases hlate : Name.fixed.Needs n .ndkIncludeNdk0
  · exact .inl (Goals.need_of_late hwanted hn hlate)
  by_cases hlate' : Name.fixed.Needs m .ndkIncludeNdk0
  · exact .inl (Goals.need_of_late hwanted' hm hlate')
  have hearly := Name.mem_early hlate
  have hearly' := Name.mem_early hlate'
  -- neither target has a stem
  obtain rfl : stem = "" := by
    have hmem : stem ∈ n.members w := Goals.listed_of_wanted hwanted
    simpa [Name.members_of_early w hearly] using hmem
  obtain rfl : stem' = "" := by
    have hmem : stem' ∈ m.members w := Goals.listed_of_wanted hwanted'
    simpa [Name.members_of_early w hearly'] using hmem
  have hnm : n ≠ m := fun h => htu (h ▸ rfl)
  have hdepends : ¬ Name.fixed.Depends n m := fun h =>
    hs.ordered.not_depends hrunning hrunning' (depends_of_fixed hn h w "")
  have hdepends' : ¬ Name.fixed.Depends m n := fun h =>
    hs.ordered.not_depends hrunning' hrunning (depends_of_fixed hm h w "")
  rw [Progress.Step.line, hp, hq, Listing.stepName, Listing.stepName,
    Name.subject_of_early w hearly, Name.subject_of_early w hearly'] at hoccurs
  have hneed : ∀ {x y}, x.members w = [""] → y.members w = [""] → Name.Meets n m x y →
      g.Need x y := by
    rintro x y hx hy (⟨h, h'⟩ | ⟨h, h'⟩)
    · exact ⟨Goals.wanted_of_needs hwanted hn hx h, Goals.wanted_of_needs hwanted' hm hy h'⟩
    · exact ⟨Goals.wanted_of_needs hwanted' hm hx h', Goals.wanted_of_needs hwanted hn hy h⟩
  rcases Name.meets_of_occurs hearly hearly' ha hb hoccurs with
    h | h | h | h | h | ⟨rfl, rfl⟩
  · exact absurd h hnm
  · exact absurd (h.depends hnm.symm) hdepends
  · exact absurd (h.depends hnm) hdepends'
  · exact .inl (hneed rfl rfl h)
  · exact .inr (.inl (hneed rfl rfl h))
  · exact .inr (.inr ⟨rfl, rfl⟩)

theorem Tracked.wanted_of_send {s' : State} (hs : Tracked g s)
    (h : g.step s (.send t) = some s') : (graph w).Wanted g.targets t := by
  refine hs.within t fun hnone => ?_
  obtain ⟨e, l, htodo, -⟩ := send_eq_some.mp h
  have hrunning := hs.running t (by simp [htodo])
  rw [hrunning] at hnone
  cases hnone

/-- A state is right after any act but a step of lha and the end of a step whose name
occurs in the line of a step that is running. -/
theorem Tracked.accurate {s' : State} {a : Act Target Course} (hs : Tracked g s)
    (hright : s.seen.Accurate) (h : g.step s a = some s')
    (hlha : ∀ stem, ¬ (graph w).Wanted g.targets (rule .lhaDone stem))
    (hquiet : ∀ t u p q, t ≠ u → s.busy t = some p → s.busy u = some q →
      occurs p.name q.line = false) : s'.seen.Accurate := by
  cases a with
  | skip t =>
      obtain ⟨m, -, rfl⟩ := Option.map_eq_some_iff.mp h
      exact hright
  | start t i =>
      obtain ⟨m, -, rfl⟩ := Option.map_eq_some_iff.mp h
      exact hright
  | finish t now files =>
      rw [Goals.step, watch] at h
      split at h
      · obtain ⟨m, -, rfl⟩ := Option.map_eq_some_iff.mp h
        exact hright
      · cases h
  | send t =>
      obtain ⟨p, ps, hlabels, hcases⟩ := send_cases hs h
      have hplace : p.place = .top := by
        refine place_of_mem_labels (hlabels List.mem_cons_self) fun stem ht => hlha stem ?_
        exact ht ▸ hs.wanted_of_send h
      rcases hcases with ⟨-, hstart, -⟩ | ⟨hbusy, hfinish, -⟩
      · exact (Progress.accurate_step_iff hright hstart).mpr hplace
      · refine (Progress.accurate_step_iff hright hfinish).mpr ⟨hplace, fun q hq => ?_⟩
        obtain ⟨l, -, -, hmem, hperm⟩ := hs.erase_perm hbusy
        obtain ⟨u, hu, hqu⟩ := List.mem_filterMap.mp (hperm.mem_iff.mp hq)
        exact hquiet t u p q ((hmem u).mp hu).1.symm hbusy hqu

end Disturb

/-! ## Builds in which two recipes run -/

section Both

def State.fresh (w : Listing) : State := State.initial w (fun _ => none) checkout 0

variable {g : Goals w} {n m : Name} {p q : Progress.Step} {ps qs : List Progress.Step}

/-- Every run of make without a failure is one of a build. -/
theorem exists_build {x : Make.State Target} {es : List (Make.Event Target)}
    (hok : ∀ e ∈ es, e.Succeeds)
    (h : run (Make.step (graph w) g.targets) (init checkout 0) es = some x) :
    ∃ acts s, run g.step (State.fresh w) acts = some s ∧ s.make = x ∧
      Fresh w.script (fun _ => smooth) s := by
  have hgood : ∀ t, (graph w).made t = true → (w.script t smooth).1 = 0 := by
    intro t ht
    cases t with
    | rule n stem => rw [script_smooth]
    | source l path => cases ht
  have hlog : ∀ t x, ∃ y, run Log.step x (w.script t smooth).2 = some y := by
    intro t x
    obtain ⟨l, hl, -⟩ := script_spec w t smooth
    exact hl ▸ run_passes l x
  exact exists_watched hgood hlog hok h fun t ht => nomatch ht

theorem exists_enter {s : State} {t : Target} {l : List Progress.Event}
    (h : (s.todo t).2 = .start p :: l) :
    ∃ s', g.step s (.send t) = some s' ∧ (s'.todo t).2 = l ∧
      (∀ u, u ≠ t → s'.todo u = s.todo u) ∧ s'.seen.running = s.seen.running ++ [p] := by
  refine ⟨_, send_eq_some.mpr ⟨_, l, h, _, rfl, rfl⟩, ?_, fun u hu => ?_, rfl⟩
  · simp
  · simp [Function.update_of_ne hu]

theorem exists_busy (hneed : g.Need n m) (hnm : ¬ Name.rules.Needs n m)
    (hmn : ¬ Name.rules.Needs m n) (hp : w.labels (rule n "") = p :: ps)
    (hq : w.labels (rule m "") = q :: qs) :
    ∃ acts s, run g.step (State.fresh w) acts = some s ∧
      (s.todo (rule n "")).2 = .finish p :: passes ps ∧ ∃ l, s.seen.running = l ++ [p, q] := by
  have hne : n ≠ m := fun h => hnm (h ▸ Rules.needs_refl n)
  obtain ⟨es, x, hrun, hok, hrunning, hrunning'⟩ := exists_run_both hne hneed.1 hneed.2
    (fun h => hnm (depends_name h).needs) fun h => hmn (depends_name h).needs
  obtain ⟨acts, s, hacts, rfl, hfresh⟩ := exists_build hok hrun
  have htodo : (s.todo (rule n "")).2 = .start p :: .finish p :: passes ps := by
    rw [hfresh _ hrunning, script_smooth, hp]
    rfl
  have htodo' : (s.todo (rule m "")).2 = .start q :: .finish q :: passes qs := by
    rw [hfresh _ hrunning', script_smooth, hq]
    rfl
  have hmn' : rule m "" ≠ rule n "" := by simpa using hne.symm
  obtain ⟨s₁, hs₁, hin, hrest, hlist⟩ := exists_enter (g := g) htodo
  obtain ⟨s₂, hs₂, -, hrest', hlist'⟩ := exists_enter (g := g) (s := s₁) (t := rule m "")
    (by rw [hrest _ hmn']; exact htodo')
  refine ⟨acts ++ [.send (rule n ""), .send (rule m "")], s₂, ?_, ?_, s.seen.running, ?_⟩
  · rw [run_append, hacts, Option.bind_some, run_cons, hs₁, Option.bind_some, run_cons, hs₂]
    rfl
  · rw [hrest' _ hmn'.symm, hin]
  · rw [hlist', hlist, List.append_assoc]
    rfl

theorem mem_erase_append (l : List Progress.Step) (p q : Progress.Step) :
    q ∈ (l ++ [p, q]).erase p := by
  by_cases hpq : q = p
  · subst hpq
    rw [← List.count_pos_iff, List.count_erase_self]
    simp
  · exact (List.mem_erase_of_ne hpq).mpr (by simp)

/-- If the first step of `n` occurs in the line of that of `m`, the list is wrong when
it ends. -/
theorem exists_not_accurate (hneed : g.Need n m) (hnm : ¬ Name.rules.Needs n m)
    (hmn : ¬ Name.rules.Needs m n)
    (hp : w.labels (rule n "") = p :: ps) (hq : w.labels (rule m "") = q :: qs)
    (hoccurs : occurs p.name q.line = true) :
    ∃ acts s, run g.step (State.fresh w) acts = some s ∧ ¬ s.seen.Accurate := by
  obtain ⟨acts, s, hrun, htodo, l, hl⟩ := exists_busy hneed hnm hmn hp hq
  by_cases hright : s.seen.Accurate
  · obtain ⟨x, hfinish⟩ : ∃ x, s.seen.step (.finish p) = some x :=
      ⟨_, if_pos (by simp [hl])⟩
    obtain ⟨s', hsend, hseen⟩ : ∃ s', g.step s (.send (rule n "")) = some s' ∧
        s.seen.step (.finish p) = some s'.seen :=
      ⟨_, send_eq_some.mpr ⟨_, passes ps, htodo, x, hfinish, rfl⟩, hfinish⟩
    refine ⟨acts ++ [.send (rule n "")], s', ?_, fun hright' => ?_⟩
    · rw [run_append, hrun, Option.bind_some, run_cons, hsend]
      rfl
    · have hquiet := ((Progress.accurate_step_iff hright hseen).mp hright').2 q
        (hl ▸ mem_erase_append l p q)
      simp [hoccurs] at hquiet
  · exact ⟨acts, s, hrun, hright⟩

/-- A rule whose first step is logged elsewhere makes the list wrong when it starts. -/
theorem exists_not_accurate_of_place (hwanted : (graph w).Wanted g.targets (rule n ""))
    (hp : w.labels (rule n "") = p :: ps) (hplace : p.place ≠ .top) :
    ∃ acts s, run g.step (State.fresh w) acts = some s ∧ ¬ s.seen.Accurate := by
  obtain ⟨es, x, hrun, hok, hrunning, -⟩ := exists_run_running (l := [rule n ""]) checkout 0
    (List.nodup_singleton _) (by simpa using hwanted)
    (by simpa using Rules.not_depends_self _) (by simp [checkout]) (not_outdated_source w)
  obtain ⟨acts, s, hacts, rfl, hfresh⟩ := exists_build hok hrun
  have htodo : (s.todo (rule n "")).2 = .start p :: .finish p :: passes ps := by
    rw [hfresh _ (hrunning _ (List.mem_singleton_self _)), script_smooth, hp]
    rfl
  by_cases hright : s.seen.Accurate
  · obtain ⟨s', hsend, hstart⟩ : ∃ s', g.step s (.send (rule n "")) = some s' ∧
        s.seen.step (.start p) = some s'.seen :=
      ⟨_, send_eq_some.mpr ⟨_, _, htodo, _, rfl, rfl⟩, rfl⟩
    refine ⟨acts ++ [.send (rule n "")], s', ?_, fun hright' => ?_⟩
    · rw [run_append, hacts, Option.bind_some, run_cons, hsend]
      rfl
    · exact hplace ((Progress.accurate_step_iff hright hstart).mp hright')
  · exact ⟨acts, s, hacts, hright⟩

end Both

/-- The recipes whose steps disturb each other: the step of the first one occurs in
the line of the second one. -/
def disturbing : List (Name × Name) :=
  [(.fd2sfd, .fd2pragmaBuild), (.vbccTargetAmigaosLha, .vbccTargetKick13Lha)]

theorem exists_not_accurate_of_mem {g : Goals w} :
    ∀ x ∈ disturbing, g.Need x.1 x.2 →
      ∃ acts s, run g.step (State.fresh w) acts = some s ∧ ¬ s.seen.Accurate := by
  simp only [disturbing, List.forall_mem_cons, List.not_mem_nil, false_imp_iff, implies_true,
    and_true]
  refine ⟨fun h => ?_, fun h => ?_⟩
  · exact exists_not_accurate h (by decide +kernel) (by decide +kernel) rfl rfl rfl
  · exact exists_not_accurate h (by decide +kernel) (by decide +kernel) rfl rfl rfl

theorem Goals.Need.archives {g : Goals w}
    (h : g.Need .vbccTargetKick13Done .vbccTargetAmigaosDone) :
    g.Need .vbccTargetAmigaosLha .vbccTargetKick13Lha :=
  ⟨Goals.wanted_of_needs h.2 (by decide) rfl (by decide +kernel),
    Goals.wanted_of_needs h.1 (by decide) rfl (by decide +kernel)⟩

/-- The list of running steps is right in every state of every build, whatever is left of
other makes, exactly when `sdk` is not set and the goals need neither the stamp of lha nor
two recipes whose steps disturb each other. -/
theorem display_right_iff (g : Goals w) :
    (∀ left files now acts s, run g.step (State.initial w left files now) acts = some s →
      s.seen.Accurate) ↔
    w.sdk = "" ∧ ¬ (graph w).Wanted g.targets (rule .lhaDone "") ∧
      ∀ x ∈ disturbing, ¬ g.Need x.1 x.2 := by
  constructor
  · intro h
    refine ⟨?_, fun hwanted => ?_, fun x hx hneed => ?_⟩
    · have hleft := h (fun _ => some [[]]) checkout 0 [] _ rfl
      have hsdk := (Progress.accurate_initial_iff _ _).mp hleft
      by_contra hne
      exact absurd (hsdk (by simpa using hne)) (by simp)
    · obtain ⟨acts, s, hrun, hwrong⟩ :=
        exists_not_accurate_of_place hwanted rfl (p := ⟨"clone lha".toList, _, _⟩)
          (by simp [Listing.place])
      exact hwrong (h _ _ _ acts s hrun)
    · obtain ⟨acts, s, hrun, hwrong⟩ := exists_not_accurate_of_mem x hx hneed
      exact hwrong (h _ _ _ acts s hrun)
  · rintro ⟨hsdk, hlhaDone, h⟩ left files now acts s hrun
    simp only [disturbing, List.forall_mem_cons, List.not_mem_nil, false_imp_iff, implies_true,
      and_true] at h
    obtain ⟨hfd, hlha⟩ := h
    have hno : ∀ stem, ¬ (graph w).Wanted g.targets (rule .lhaDone stem) := by
      intro stem hwanted
      have hmem : stem ∈ Name.lhaDone.members w := Goals.listed_of_wanted hwanted
      obtain rfl : stem = "" := by
        simpa [Name.members_eq (show Name.lhaDone.header = false from rfl) (by decide)] using hmem
      exact hlhaDone hwanted
    have hempty : (Log.initial (!w.sdk.isEmpty) left).Accurate :=
      (Progress.accurate_initial_iff _ left).mpr fun hset => by simp [hsdk] at hset
    suffices hboth : Tracked g s ∧ s.seen.Accurate from hboth.2
    refine run_invariant (I := fun s => Tracked g s ∧ s.seen.Accurate) ?_
      ⟨tracked_initial g left files now, hempty⟩ hrun
    rintro s a s' ⟨hs, hright⟩ hstep
    refine ⟨hs.of_step hstep, hs.accurate hright hstep hno fun t u p q htu ht hu => ?_⟩
    by_contra hoccurs
    rcases need_of_occurs hs htu ht hu (by simpa using hoccurs) with hneed | hneed | ⟨rfl, rfl⟩
    · exact hfd hneed
    · exact hlha hneed.archives
    · exact hlha ⟨hs.wanted_of_busy ht, hs.wanted_of_busy hu⟩

def sameLog : List (Name × Name) :=
  [(.fd2sfd, .fd2pragmaBuild), (.vbccTargetKick13Done, .vbccTargetAmigaosDone)]

theorem exists_same_log_of_mem {g : Goals w} :
    ∀ x ∈ sameLog, g.Need x.1 x.2 →
      ∃ acts s, run g.step (State.fresh w) acts = some s ∧ ¬ s.seen.running.Nodup := by
  have hsame : ∀ {n m p ps qs}, g.Need n m → ¬ Name.rules.Needs n m → ¬ Name.rules.Needs m n →
      w.labels (rule n "") = p :: ps → w.labels (rule m "") = p :: qs →
      ∃ acts s, run g.step (State.fresh w) acts = some s ∧
        ¬ s.seen.running.Nodup := by
    intro n m p ps qs hneed hnm hmn hp hq
    obtain ⟨acts, s, hrun, -, l, hl⟩ := exists_busy hneed hnm hmn hp hq
    exact ⟨acts, s, hrun, by simp [hl, List.nodup_append]⟩
  simp only [sameLog, List.forall_mem_cons, List.not_mem_nil, false_imp_iff, implies_true,
    and_true]
  refine ⟨fun h => ?_, fun h => ?_⟩
  · exact hsame h (by decide +kernel) (by decide +kernel) rfl rfl
  · exact hsame h (by decide +kernel) (by decide +kernel) rfl rfl

/-- No two recipes write into one log, in any state of any build, exactly when the
goals do not need two of the recipes that log under one name. -/
theorem logs_apart_iff (g : Goals w) :
    (∀ left files now acts s, run g.step (State.initial w left files now) acts = some s →
      s.seen.running.Nodup) ↔ ∀ x ∈ sameLog, ¬ g.Need x.1 x.2 := by
  constructor
  · intro h x hx hneed
    obtain ⟨acts, s, hrun, htwice⟩ := exists_same_log_of_mem x hx hneed
    exact htwice (h _ _ _ acts s hrun)
  · intro h left files now acts s hrun
    simp only [sameLog, List.forall_mem_cons, List.not_mem_nil, false_imp_iff, implies_true,
      and_true] at h
    obtain ⟨hfd, hdone⟩ := h
    have hs := tracked_of_run hrun
    obtain ⟨l, hnodup, -, hperm⟩ := hs.counted
    refine hperm.nodup_iff.mpr (hnodup.filterMap fun t u p ht hu => ?_)
    by_contra htu
    rcases need_of_occurs hs htu ht hu p.occurs_line with hneed | hneed | ⟨rfl, rfl⟩
    · exact hfd hneed
    · exact hdone hneed
    · -- the two archives log under two names
      have hshort : p.name.length = "downloading vbcc_target".length :=
        congrArg (fun p => p.name.length) (List.mem_singleton.mp (mem_labels_of_busy hs ht))
      have hlong : p.name.length = "downloading vbcc_target13".length :=
        congrArg (fun p => p.name.length) (List.mem_singleton.mp (mem_labels_of_busy hs hu))
      exact absurd (hshort.symm.trans hlong) (by decide)

end Build

end AmigaGcc
