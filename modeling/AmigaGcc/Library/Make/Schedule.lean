import AmigaGcc.Library.Make.Run

/-!
# Runs that exist

What is not ordered by the rules can happen at the same time: where the targets
of a list are missing there is a run in which all of them are running, as long as
none depends on another one (`exists_run_running`). Only what they depend on has
been made by then.
-/

namespace Library

namespace Make

open Transition

variable {τ : Type*} [DecidableEq τ] {R : Rules τ} {goals : List τ} {s s' s'' : State τ}
  {t u : τ} {N N' : τ → Prop}

/-- Nothing is running, nothing has failed, and what has no rule is there and needs
nothing. -/
structure Idle (R : Rules τ) (s : State τ) : Prop where
  stopped : s.stopped = false
  phase : ∀ u, s.phase u = .waiting ∨ s.phase u = .updated
  sources : ∀ u, R.made u = false → R.prereqs u = [] ∧ ¬ Outdated R s.files u

def Event.Succeeds : Event τ → Prop
  | .skip _ | .start _ => True
  | .finish _ status _ _ => status = 0

/-- A recipe succeeds and makes its own file only. -/
def Plain (s : State τ) (e : Event τ) : Prop :=
  ∀ t status now files, e = .finish t status now files →
    status = 0 ∧ files = Function.update s.files t (some now)

theorem plain_start : Plain s (.start t) := by simp [Plain]

theorem plain_skip : Plain s (.skip t) := by simp [Plain]

/-- A run from `s` to `s'` of plain steps, that changes nothing but what `N`
allows. -/
def Leads (R : Rules τ) (goals : List τ) (N : τ → Prop) (s s' : State τ) : Prop :=
  (∃ es, run (step R goals) s es = some s' ∧ Throughout (step R goals) Plain s es) ∧
    ∀ u, ¬ N u → s'.phase u = s.phase u ∧ s'.files u = s.files u

theorem succeeds_of_plain {es : List (Event τ)} (h : run (step R goals) s es = some s')
    (hplain : Throughout (step R goals) Plain s es) : ∀ e ∈ es, e.Succeeds := by
  intro e he
  obtain ⟨pre, post, u, v, rfl, hu, hv⟩ := exists_step_of_mem h he
  have hrest := (hplain.of_append hu).2
  rw [throughout_cons_some hv] at hrest
  cases e with
  | skip t | start t => trivial
  | finish t status now files => exact (hrest.1 t status now files rfl).1

theorem Leads.refl (s : State τ) : Leads R goals N s s :=
  ⟨⟨[], rfl, trivial⟩, fun _ _ => ⟨rfl, rfl⟩⟩

theorem Leads.trans (h : Leads R goals N s s') (h' : Leads R goals N s' s'') :
    Leads R goals N s s'' := by
  obtain ⟨⟨es, hes, hplain⟩, hsame⟩ := h
  obtain ⟨⟨es', hes', hplain'⟩, hsame'⟩ := h'
  refine ⟨⟨es ++ es', by rw [run_append, hes, Option.bind_some, hes'],
    hplain.append hes hplain'⟩, fun u hu => ?_⟩
  exact ⟨(hsame' u hu).1.trans (hsame u hu).1, (hsame' u hu).2.trans (hsame u hu).2⟩

theorem Leads.mono (hN : ∀ u, N u → N' u) (h : Leads R goals N s s') : Leads R goals N' s s' :=
  ⟨h.1, fun u hu => h.2 u fun hn => hu (hN u hn)⟩

theorem Leads.of_step {e : Event τ} (h : step R goals s e = some s') (hplain : Plain s e)
    (hsame : ∀ u, ¬ N u → s'.phase u = s.phase u ∧ s'.files u = s.files u) :
    Leads R goals N s s' := by
  refine ⟨⟨[e], by rw [run_cons, h]; rfl, ?_⟩, hsame⟩
  rw [throughout_cons_some h]
  exact ⟨hplain, trivial⟩

theorem Leads.updated (h : Leads R goals N s s') {p : τ} (hp : s.phase p = .updated) :
    s'.phase p = .updated :=
  h.1.elim fun _ hes => updated_of_run hes.1 hp

theorem exists_leads_of_ready (hs : Idle R s) (ht : R.Wanted goals t) (hready : Ready R s t) :
    ∃ s', Leads R goals (fun u => u = t) s s' ∧ Idle R s' ∧ s'.phase t = .updated := by
  rcases hs.phase t with hw | hup
  · have hother : ∀ φ : Phase, ∀ u, ¬ u = t → Function.update s.phase t φ u = s.phase u :=
      fun φ u hu => Function.update_of_ne hu _ _
    have hidle : ∀ u, Function.update s.phase t .updated u = .waiting ∨
        Function.update s.phase t .updated u = .updated := by
      intro u
      by_cases hut : u = t
      · simp [hut]
      · rw [hother _ u hut]
        exact hs.phase u
    by_cases hout : Outdated R s.files t
    · have hmade : R.made t = true := by
        by_contra hne
        exact (hs.sources t (by simpa using hne)).2 hout
      have hstart : step R goals s (.start t) = some (s.mark t .running) :=
        step_start_eq_some.mpr ⟨⟨ht, hw, hready, hout, hs.stopped⟩, rfl⟩
      have hfinish : step R goals (s.mark t .running)
          (.finish t 0 s.now (Function.update s.files t (some s.now))) = some _ :=
        step_finish_eq_some.mpr ⟨⟨by simp [State.mark], Nat.le_refl _, fun _ => hmade⟩, rfl⟩
      have hsources : ∀ u, R.made u = false → R.prereqs u = [] ∧
          ¬ Outdated R (Function.update s.files t (some s.now)) u := by
        intro u hu
        obtain ⟨hleaf, hthere⟩ := hs.sources u hu
        have hut : u ≠ t := by
          rintro rfl
          simp [hmade] at hu
        refine ⟨hleaf, ?_⟩
        simpa [Outdated, Rules.time, hleaf, Function.update_of_ne hut] using hthere
      refine ⟨_, (Leads.of_step hstart plain_start fun u hu =>
        ⟨hother _ u hu, rfl⟩).trans (Leads.of_step hfinish ?_ fun u hu => ?_),
        ⟨?_, fun u => ?_, hsources⟩, ?_⟩
      · intro t' status now files h
        obtain ⟨rfl, rfl, rfl, rfl⟩ := Event.finish.inj h
        exact ⟨rfl, rfl⟩
      · simp [State.mark, Function.update_of_ne hu]
      · simp [State.mark, hs.stopped]
      · simpa [State.mark] using hidle u
      · simp
    · exact ⟨s.mark t .updated, Leads.of_step (step_skip_eq_some.mpr ⟨⟨ht, hw, hready, hout⟩, rfl⟩)
        plain_skip fun u hu => ⟨hother _ u hu, rfl⟩,
        ⟨hs.stopped, hidle, hs.sources⟩, Function.update_self _ _ _⟩
  · exact ⟨s, Leads.refl s, hs, hup⟩

/-- If each of a list of targets can be made from any idle state, all of them can,
one after the other. -/
theorem exists_leads_of_forall {l : List τ}
    (h : ∀ p ∈ l, ∀ s, Idle R s → ∃ s', Leads R goals N s s' ∧ Idle R s' ∧ s'.phase p = .updated)
    (hs : Idle R s) :
    ∃ s', Leads R goals N s s' ∧ Idle R s' ∧ ∀ p ∈ l, s'.phase p = .updated := by
  induction l generalizing s with
  | nil => exact ⟨s, Leads.refl s, hs, fun _ h => nomatch h⟩
  | cons p l ih =>
      obtain ⟨s', hleads, hs', hp⟩ := h p List.mem_cons_self s hs
      obtain ⟨s'', hleads', hs'', hl⟩ := ih (fun q hq => h q (List.mem_cons_of_mem p hq)) hs'
      refine ⟨s'', hleads.trans hleads', hs'', fun q hq => ?_⟩
      rcases List.mem_cons.mp hq with rfl | hq
      · exact hleads'.updated hp
      · exact hl q hq

/-- A target can be made from any idle state, with nothing but what it needs. -/
theorem exists_leads (ht : R.Wanted goals t) (hs : Idle R s) :
    ∃ s', Leads R goals (R.Needs t) s s' ∧ Idle R s' ∧ s'.phase t = .updated := by
  induction t using Rules.induct (R := R) generalizing s with
  | h t ih =>
      have hprereqs : ∀ p ∈ R.prereqs t, ∀ s, Idle R s →
          ∃ s', Leads R goals (R.Needs t) s s' ∧ Idle R s' ∧ s'.phase p = .updated := by
        intro p hp s hs
        have hneeds := Rules.needs_of_mem hp
        obtain ⟨s', hleads, hs'⟩ := ih p hp (ht.of_needs hneeds) hs
        exact ⟨s', hleads.mono fun u hu => hneeds.trans hu, hs'⟩
      obtain ⟨s', hleads, hs', hready⟩ := exists_leads_of_forall hprereqs hs
      obtain ⟨s'', hleads', hs''⟩ := exists_leads_of_ready hs' ht hready
      have hself : Leads R goals (R.Needs t) s' s'' := by
        refine hleads'.mono ?_
        rintro u rfl
        exact Rules.needs_refl u
      exact ⟨s'', hleads.trans hself, hs''⟩

/-- The recipes of ready and outdated targets can all be started. -/
theorem exists_leads_running {l : List τ} (hnodup : l.Nodup) (hstopped : s.stopped = false)
    (h : ∀ t ∈ l, R.Wanted goals t ∧ s.phase t = .waiting ∧ Ready R s t ∧ Outdated R s.files t) :
    ∃ s', Leads R goals (· ∈ l) s s' ∧ ∀ t ∈ l, s'.phase t = .running := by
  induction l generalizing s with
  | nil => exact ⟨s, Leads.refl s, fun _ h => nomatch h⟩
  | cons t l ih =>
      obtain ⟨htl, hnodup⟩ := List.nodup_cons.mp hnodup
      obtain ⟨ht, hw, hready, hout⟩ := h t List.mem_cons_self
      have hstart : step R goals s (.start t) = some (s.mark t .running) :=
        step_start_eq_some.mpr ⟨⟨ht, hw, hready, hout, hstopped⟩, rfl⟩
      obtain ⟨s', hleads, hrunning⟩ := ih hnodup (s := s.mark t .running) hstopped fun u hu => by
        obtain ⟨hu', huw, huready, huout⟩ := h u (List.mem_cons_of_mem t hu)
        have hut : u ≠ t := fun hut => htl (hut ▸ hu)
        exact ⟨hu', (phase_of_ne hstart hut).trans huw, huready.of_step hstart, huout⟩
      refine ⟨s', (Leads.of_step hstart plain_start fun u hu =>
        ⟨phase_of_ne hstart ?_, rfl⟩).trans
        (hleads.mono fun u hu => List.mem_cons_of_mem t hu), fun u hu => ?_⟩
      · rintro rfl
        exact hu List.mem_cons_self
      · rcases List.mem_cons.mp hu with rfl | hu
        · rw [(hleads.2 u htl).1]
          exact Function.update_self _ _ _
        · exact hrunning u hu

/-- Missing targets of which none depends on another can all be running, with only
what they depend on made and nothing failed. -/
theorem exists_run_running {l : List τ} (files : Files τ) (now : ℕ) (hnodup : l.Nodup)
    (hwanted : ∀ t ∈ l, R.Wanted goals t) (hanti : ∀ t ∈ l, ∀ u ∈ l, ¬ R.Depends t u)
    (hmissing : ∀ t ∈ l, files t = none)
    (hsources : ∀ u, R.made u = false → R.prereqs u = [] ∧ ¬ Outdated R files u) :
    ∃ es s, run (step R goals) (init files now) es = some s ∧ (∀ e ∈ es, e.Succeeds) ∧
      (∀ t ∈ l, s.phase t = .running) ∧
      ∀ u, u ∉ l → (∀ t ∈ l, ¬ R.Depends t u) → s.phase u = .waiting := by
  have hs : Idle R (init files now) := ⟨rfl, fun _ => .inl rfl, hsources⟩
  have hprereqs : ∀ p ∈ l.flatMap R.prereqs, ∀ s, Idle R s → ∃ s',
      Leads R goals (fun u => ∃ t ∈ l, R.Depends t u) s s' ∧ Idle R s' ∧
        s'.phase p = .updated := by
    intro p hp s hs
    obtain ⟨t, ht, hp⟩ := List.mem_flatMap.mp hp
    obtain ⟨s', hleads, hs'⟩ := exists_leads ((hwanted t ht).of_needs (Rules.needs_of_mem hp)) hs
    exact ⟨s', hleads.mono fun u hu => ⟨t, ht, Rules.depends_iff.mpr ⟨p, hp, hu⟩⟩, hs'⟩
  obtain ⟨s', hleads, hs', hup⟩ := exists_leads_of_forall hprereqs hs
  have hkept : ∀ u, (∀ t ∈ l, ¬ R.Depends t u) → s'.phase u = .waiting ∧ s'.files u = files u :=
    fun u hu => hleads.2 u fun ⟨t, ht, hdep⟩ => hu t ht hdep
  have hstart : ∀ t ∈ l, R.Wanted goals t ∧ s'.phase t = .waiting ∧ Ready R s' t ∧
      Outdated R s'.files t := by
    intro t ht
    obtain ⟨hw, hfile⟩ := hkept t fun u hu => hanti u hu t ht
    refine ⟨hwanted t ht, hw, fun p hp => hup p (List.mem_flatMap.mpr ⟨t, ht, hp⟩), ?_⟩
    simp [Outdated, Rules.time, hfile, hmissing t ht]
  obtain ⟨s'', hleads', hrunning⟩ := exists_leads_running hnodup hs'.stopped hstart
  have hsame := hleads'.2
  have hleads : Leads R goals (fun _ => True) _ _ := hleads.mono fun _ _ => trivial
  obtain ⟨⟨es, hes, hplain⟩, -⟩ := hleads.trans (hleads'.mono fun _ _ => trivial)
  refine ⟨es, s'', hes, succeeds_of_plain hes hplain, hrunning, fun u hul hu => ?_⟩
  rw [(hsame u hul).1, (hkept u hu).1]

/-- There is a run of plain steps that makes all goals. -/
theorem exists_run_updated (files : Files τ) (now : ℕ)
    (hsources : ∀ u, R.made u = false → R.prereqs u = [] ∧ ¬ Outdated R files u) :
    ∃ es s, run (step R goals) (init files now) es = some s ∧
      Throughout (step R goals) Plain (init files now) es ∧
      (∀ t, R.Wanted goals t → s.phase t = .updated) ∧
      ∀ u, R.made u = false → R.prereqs u = [] ∧ ¬ Outdated R s.files u := by
  have hgoals : ∀ t ∈ goals, ∀ s, Idle R s → ∃ s', Leads R goals (fun _ => True) s s' ∧ Idle R s' ∧
      s'.phase t = .updated := by
    intro t ht s hs
    obtain ⟨s', hleads, hs'⟩ := exists_leads ⟨t, ht, Rules.needs_refl t⟩ hs
    exact ⟨s', hleads.mono fun _ _ => trivial, hs'⟩
  have hs : Idle R (init files now) := ⟨rfl, fun _ => .inl rfl, hsources⟩
  obtain ⟨s, ⟨⟨es, hes, hplain⟩, -⟩, hs', hup⟩ := exists_leads_of_forall hgoals hs
  refine ⟨es, s, hes, hplain, ?_, hs'.sources⟩
  rintro t ⟨g, hg, hneeds⟩
  rcases Rules.needs_iff.mp hneeds with rfl | hdep
  · exact hup t hg
  · exact (ordered_of_run hes).updated (by simp [hup g hg]) hdep

end Make

end Library
