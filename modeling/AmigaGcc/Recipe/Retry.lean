import AmigaGcc.Recipe.Stamp

/-!
# Failures that are forgotten

A recipe that has failed is run again by the next make when its target is still
missing or older than a prerequisite. Two kinds of recipes spoil this: one gives
its prerequisites an old time before it does its work, the other one writes its
target before the work is done. `forgets_iff` says which recipes are of these
kinds, among those whose target is written by a single command. It leaves out the
`echo` that fails when it has created its stamp: then any recipe is forgotten.
-/

namespace AmigaGcc

namespace Recipe

open Library Shell Shell.Prog

/-- A rule, the command of its recipe that writes the target, and the commands that
give a prerequisite an old time. -/
structure Marked where
  rule : Rule
  marker : Action
  ages : List (Action × String)

structure Times where
  target : Option ℕ
  inputs : String → ℕ

/-- The target is there, and no prerequisite is newer. -/
def Times.Current (prereqs : List String) (x : Times) : Prop :=
  ∃ m, x.target = some m ∧ ∀ p ∈ prereqs, x.inputs p ≤ m

instance (prereqs : List String) (x : Times) : Decidable (x.Current prereqs) :=
  match h : x.target with
  | none => isFalse fun ⟨_, hm, _⟩ => nomatch h.symm.trans hm
  | some m => decidable_of_iff (∀ p ∈ prereqs, x.inputs p ≤ m) <| by
      simp [Times.Current, h]

/-- How the commands of a recipe will end, and whether its stamp can be opened. -/
structure Attempt where
  mode : Mode
  status : Action → ℕ
  test : Test → Bool
  rounds : Rounds
  opened : Bool

/-- The `echo` does not fail with the stamp created. -/
def Attempt.Clean (a : Attempt) : Prop := a.status .stamp = 0 ∨ a.opened = false

def Rule.attempt (r : Rule) (a : Attempt) : Report :=
  let (status, ran) := runLines (oracle a.status a.test) a.mode (r.lines a.rounds) []
  ⟨status, ran⟩

/-- The command that writes the target succeeds, or it is an `echo` that creates it and
fails. -/
def Marked.writes (r : Marked) (a : Attempt) (ran : List (Action × ℕ)) : Bool :=
  ran.contains (r.marker, 0) ||
    (a.opened && r.marker == .stamp && ran.contains (.stamp, a.status .stamp))

def Marked.after (r : Marked) (a : Attempt) (ran : List (Action × ℕ)) (now : ℕ) (x : Times) :
    Times where
  target := if r.writes a ran then some now else x.target
  inputs p := if r.ages.any fun y => y.2 == p && ran.contains (y.1, 0) then 0 else x.inputs p

/-- `failed` says how the recipe has ended when it was last run. -/
structure Upkeep where
  times : Times
  now : ℕ
  failed : Bool

inductive Happens where
  | edit (changed : List String)
  | remove
  | make (a : Attempt)

def Marked.remade (r : Marked) (s : Upkeep) (a : Attempt) : Upkeep :=
  ⟨r.after a (r.rule.attempt a).ran (s.now + 1) s.times, s.now + 1,
    decide ((r.rule.attempt a).status ≠ 0)⟩

/-- One edit, `rm` of the target, or invocation of make. -/
def Marked.step (r : Marked) (prereqs : List String) (s : Upkeep) : Happens → Option Upkeep
  | .edit changed =>
      some { s with
        times.inputs := fun p => if p ∈ changed then s.now + 1 else s.times.inputs p
        now := s.now + 1 }
  | .remove => some { s with times.target := none }
  | .make a =>
      if s.times.Current prereqs then some s else some (r.remade s a)

def untouched : Upkeep := ⟨⟨none, fun _ => 0⟩, 0, false⟩

/-- The recipe has failed, and make does not run it again. -/
def Upkeep.Forgotten (prereqs : List String) (s : Upkeep) : Prop :=
  s.failed = true ∧ s.times.Current prereqs

def Happens.Clean : Happens → Prop
  | .make a => a.Clean
  | .edit _ | .remove => True

/-- On some prerequisites a failure of the recipe is forgotten, at some time. -/
def Marked.Forgets (r : Marked) : Prop :=
  ∃ prereqs happens s, (∀ e ∈ happens, e.Clean) ∧
    Transition.run (r.step prereqs) untouched happens = some s ∧ s.Forgotten prereqs

/-! ## The rules -/

def Stamped.marked (r : Stamped) : Marked := ⟨r.rule, .stamp, []⟩

def age (path : String) : Action × String := (.run (.run ("touch -t 0001010000 " ++ path)), path)

def binutilsMarked : Marked where
  rule := binutilsDone.rule
  marker := .stamp
  ages := [age "$(PROJECTS)/binutils/binutils/arparse.y",
    age "$(PROJECTS)/binutils/binutils/arlex.l", age "$(PROJECTS)/binutils/ld/ldgram.y",
    age "$(PROJECTS)/binutils/intl/plural.y"]

def ndkInfoMarked : Marked where
  rule := ndkInfo
  marker := .run (.run "touch $(PROJECTS)/$(NDK_FOLDER_NAME).info")
  ages := [age "$(DOWNLOAD)/$(NDK_ARC_NAME).lha"]

def vbccTargetInfoMarked (name : String) : Marked where
  rule := vbccTargetInfo name
  marker := .run (.run ("touch $(BUILD)/vbcc_target_" ++ name ++ ".info"))
  ages := []

/-- The rules whose target is written by a single command of the recipe. -/
def marked : List Marked :=
  binutilsMarked :: ndkInfoMarked :: vbccTargetInfoMarked "m68k-kick13" ::
    vbccTargetInfoMarked "m68k-amigaos" :: stamped.tail.map Stamped.marked

/-- Those that can forget a failure. -/
def forgetful : List Marked :=
  [binutilsMarked, ndkInfoMarked, vbccTargetKick13Done.marked, vbccTargetAmigaosDone.marked]

/-! ## Recipes that remember -/

section Remember

variable {r : Marked} {prereqs : List String} {s s' : Upkeep} {happens : List Happens}

/-- A run that has written the target has succeeded, and none touches a
prerequisite. -/
structure Marked.Steady (r : Marked) : Prop where
  ages : r.ages = []
  marker : ∀ a, (r.marker, 0) ∈ (r.rule.attempt a).ran → (r.rule.attempt a).status = 0

theorem writes_of_clean {a : Attempt} (ha : a.Clean) (ran : List (Action × ℕ)) :
    r.writes a ran = ran.contains (r.marker, 0) := by
  rw [Marked.writes, Bool.or_eq_left_iff_imp]
  rcases ha with h | h
  · by_cases hm : r.marker = .stamp <;> simp [h, hm]
  · simp [h]

theorem current_of_step_edit {changed : List String} (hle : ∀ m ∈ s.times.target, m ≤ s.now)
    (h : r.step prereqs s (.edit changed) = some s') (hs : s'.times.Current prereqs) :
    s.times.Current prereqs := by
  obtain rfl := Option.some.inj h
  obtain ⟨m, hm, hall⟩ := hs
  refine ⟨m, hm, fun p hp => ?_⟩
  have hp := hall p hp
  by_cases hmem : p ∈ changed
  · simp only [hmem, if_true] at hp
    exact absurd (hle m hm) (by omega)
  · simpa [hmem] using hp

/-- The target is not from the future, and a failure is not forgotten. -/
structure Remembers (prereqs : List String) (s : Upkeep) : Prop where
  le_now : ∀ m ∈ s.times.target, m ≤ s.now
  outdated : s.failed = true → ¬ s.times.Current prereqs

theorem Remembers.of_step {e : Happens} (hr : r.Steady) (hs : Remembers prereqs s)
    (he : e.Clean) (h : r.step prereqs s e = some s') : Remembers prereqs s' := by
  cases e with
  | edit changed =>
      refine ⟨fun m hm => ?_, fun hfailed hcurrent => ?_⟩
      · obtain rfl := Option.some.inj h
        exact Nat.le_succ_of_le (hs.le_now m hm)
      · have hold := current_of_step_edit hs.le_now h hcurrent
        obtain rfl := Option.some.inj h
        exact hs.outdated hfailed hold
  | remove =>
      obtain rfl := Option.some.inj h
      refine ⟨fun m hm => (nomatch hm), fun _ hcurrent => ?_⟩
      obtain ⟨m, hm, -⟩ := hcurrent
      cases hm
  | make a =>
      rw [Marked.step] at h
      split at h
      · exact Option.some.inj h ▸ hs
      · next hout =>
          obtain rfl := Option.some.inj h
          refine ⟨fun m hm => ?_, fun hfailed hcurrent => ?_⟩
          · simp only [Marked.remade, Marked.after] at hm
            split at hm
            · exact Nat.le_of_eq (Option.some.inj hm).symm
            · exact Nat.le_succ_of_le (hs.le_now m hm)
          · -- the failed run has not written the target
            have hmarker : (r.marker, 0) ∉ (r.rule.attempt a).ran := fun hmem =>
              absurd (hr.marker a hmem) (by simpa [Marked.remade] using hfailed)
            have hsame : r.after a (r.rule.attempt a).ran (s.now + 1) s.times = s.times := by
              simp [Marked.after, writes_of_clean he, hmarker, hr.ages]
            exact hout (hsame ▸ hcurrent)

theorem not_forgets_of_steady (hr : r.Steady) : ¬ r.Forgets := by
  rintro ⟨prereqs, happens, s, hclean, hrun, hfailed, hcurrent⟩
  have hstart : Remembers prereqs untouched := ⟨fun m hm => (nomatch hm), fun h => nomatch h⟩
  have hend := Transition.run_invariant_of_throughout
    (fun _ _ _ hs he h => hs.of_step hr he h) hstart
    (Transition.throughout_of_forall hclean untouched) hrun
  exact hend.outdated hfailed hcurrent

theorem status_of_mem {ω : Action → ℕ} {b : Test → Bool} {mode : Mode} (ls : List Line)
    {ran : List (Action × ℕ)} (hran : ∀ x ∈ ran, x.2 = ω x.1) :
    ∀ x ∈ (runLines (oracle ω b) mode ls ran).2, x.2 = ω x.1 := by
  induction ls generalizing ran with
  | nil => exact hran
  | cons l ls ih =>
      have hline : ∀ x ∈ (start (oracle ω b) (l.expand mode) ran).store, x.2 = ω x.1 := by
        refine eval_invariant (oracle ω b) (K := fun _ => True)
          (I := fun ran => ∀ x ∈ ran, x.2 = ω x.1) ?_ (all_of_forall (fun _ => trivial) _) hran
        intro a ran _ hran x hx
        rcases List.mem_append.mp hx with hx | hx
        · exact hran x hx
        · rw [List.mem_singleton.mp hx]
      rw [runLines_cons]
      split
      · exact ih hline
      · exact hline

theorem steady_marked {r : Stamped} (hr : ∀ n, r.after n = []) : r.marked.Steady := by
  refine ⟨rfl, fun a hmem => ?_⟩
  let i : Invocation := ⟨false, a.status, a.test, a.rounds, false⟩
  have hrun : r.marked.rule.attempt a = r.run a.mode i := rfl
  have hzero : 0 = i.status .stamp :=
    status_of_mem (r.rule.lines a.rounds) (by simp) _ hmem
  rw [hrun] at hmem ⊢
  obtain ⟨hprelude, -⟩ := succeed_heeded_iff.mp (writes_iff.mp ⟨hzero ▸ hmem, .inl hzero.symm⟩)
  have hstamp := hzero.symm
  rw [run_eq, if_neg (not_not.mpr hprelude), if_neg (not_not.mpr hstamp), Stamped.coda,
    hr i.rounds]
  rfl

theorem after_eq_nil : ∀ r ∈ stamped.tail,
    (∀ n, r.after n = []) ∨ r = vbccTargetKick13Done ∨ r = vbccTargetAmigaosDone := by
  simp only [stamped, List.tail_cons, List.forall_mem_cons, List.not_mem_nil, false_imp_iff,
    implies_true, and_true]
  and_intros
  all_goals first | exact .inl fun _ => rfl | simp

theorem not_mem_runLines {ω : Action → ℕ} {b : Test → Bool} {mode : Mode} {ls : List Line}
    {a : Action} {k : ℕ} (hls : ∀ l ∈ ls, (l.expand mode).All (· ≠ a)) {ran : List (Action × ℕ)}
    (hran : (a, k) ∉ ran) : (a, k) ∉ (runLines (oracle ω b) mode ls ran).2 := by
  induction ls generalizing ran with
  | nil => exact hran
  | cons l ls ih =>
      obtain ⟨hl, hls⟩ := List.forall_mem_cons.mp hls
      have hline : (a, k) ∉ (start (oracle ω b) (l.expand mode) ran).store := by
        refine eval_invariant (oracle ω b) (K := (· ≠ a)) (I := fun ran => (a, k) ∉ ran) ?_ hl hran
        intro c ran hc hran hmem
        rcases List.mem_append.mp hmem with hmem | hmem
        · exact hran hmem
        · exact hc (congrArg Prod.fst (List.mem_singleton.mp hmem)).symm
      rw [runLines_cons]
      split
      · exact ih hls hline
      · exact hline

theorem mem_runLines_line {ω : Action → ℕ} {b : Test → Bool} {mode : Mode} {pre : List Line}
    (text : String) (post : List Line) (hpre : ∀ l ∈ pre, l.Guarded)
    (hs : Succeed ω (pre.flatMap fun l => l.decisive mode b)) :
    (Action.run (.run text), ω (.run (.run text))) ∈
      (runLines (oracle ω b) mode (pre ++ line text :: post) []).2 := by
  rw [runLines_append, if_pos ((runLines_status_iff hpre []).mpr hs), runLines_cons]
  have hmem : (Action.run (.run text), ω (.run (.run text))) ∈
      (start (oracle ω b) ((line text).expand mode) (runLines (oracle ω b) mode pre []).2).store :=
    List.mem_append_right _ (List.mem_singleton_self _)
  split
  · exact mem_runLines post hmem
  · exact hmem

end Remember

/-! ## Recipes that forget -/

def failing (mode : Mode) (bad : Action → Bool) : Attempt :=
  ⟨mode, fun a => if bad a then 1 else 0, fun _ => true, fun _ => 0, false⟩

section Forget

variable {r : Marked}

theorem step_make {prereqs : List String} {s : Upkeep} (a : Attempt)
    (h : ¬ s.times.Current prereqs) : r.step prereqs s (.make a) = some (r.remade s a) :=
  if_neg h

theorem not_current_of_missing {prereqs : List String} {x : Times} (h : x.target = none) :
    ¬ x.Current prereqs := by
  rintro ⟨m, hm, -⟩
  simp [h] at hm

/-- What is written before its recipe fails is taken for made. -/
theorem forgets_of_marker {a : Attempt} (ha : a.Clean)
    (hmarker : (r.marker, 0) ∈ (r.rule.attempt a).ran)
    (hfailed : (r.rule.attempt a).status ≠ 0) : r.Forgets := by
  refine ⟨[], [.make a], r.remade untouched a, by simpa [Happens.Clean] using ha, ?_,
    by simpa [Marked.remade] using hfailed, 1,
    by simp [Marked.remade, Marked.after, Marked.writes, hmarker, untouched], by simp⟩
  rw [Transition.run_cons, step_make a (not_current_of_missing rfl)]
  rfl

/-- After a success, an edit of a prerequisite that the recipe gives an old time is
forgotten when the recipe fails behind that. -/
theorem forgets_of_ages {good bad : Attempt} (hclean : good.Clean ∧ bad.Clean)
    {x : Action × String} (hx : x ∈ r.ages)
    (hgood : (r.marker, 0) ∈ (r.rule.attempt good).ran)
    (hage : (x.1, 0) ∈ (r.rule.attempt bad).ran) (hbad : (r.rule.attempt bad).status ≠ 0)
    (hnot : (r.marker, 0) ∉ (r.rule.attempt bad).ran) : r.Forgets := by
  let edited : Upkeep :=
    { r.remade untouched good with
      times.inputs := fun p => if p ∈ [x.2] then 2 else (r.remade untouched good).times.inputs p
      now := 2 }
  have htarget : edited.times.target = some 1 := by
    simp [edited, Marked.remade, Marked.after, Marked.writes, hgood, untouched]
  have hnewer : ¬ edited.times.Current [x.2] := by
    rintro ⟨m, hm, hall⟩
    have hle : 2 ≤ m := by simpa [edited] using hall x.2 (List.mem_singleton_self _)
    obtain rfl : 1 = m := Option.some.inj (htarget.symm.trans hm)
    omega
  refine ⟨[x.2], [.make good, .edit [x.2], .make bad], r.remade edited bad, ?_, ?_,
    by simpa [Marked.remade] using hbad, 1, ?_, fun p hp => ?_⟩
  · simpa [Happens.Clean] using hclean
  · rw [Transition.run_cons, step_make good (not_current_of_missing rfl), Option.bind_some,
      Transition.run_cons]
    exact congrArg (Option.bind · _) (step_make bad hnewer)
  · simpa [Marked.remade, Marked.after, writes_of_clean hclean.2, hnot] using htarget
  · obtain rfl := List.mem_singleton.mp hp
    have hmem : ∃ y ∈ r.ages, y.2 = x.2 ∧ (y.1, 0) ∈ (r.rule.attempt bad).ran :=
      ⟨x, hx, rfl, hage⟩
    simp [Marked.remade, Marked.after, hmem]

end Forget

def smoothly : Attempt := ⟨.quiet, fun _ => 0, fun _ => true, fun _ => 0, false⟩

theorem succeed_smoothly (l : List Action) : Succeed smoothly.status l := fun _ _ => rfl

section Failing

variable {bad : Action → Bool} {a : Action} {l : Line}

theorem not_mem_failing (r : Rule) (ha : bad a = true) :
    (a, 0) ∉ (r.attempt (failing .quiet bad)).ran := by
  intro hmem
  have hstatus : 0 = (failing .quiet bad).status a :=
    status_of_mem (r.lines fun _ => 0) (by simp) _ hmem
  simp [failing, ha] at hstatus

theorem status_failing_ne {r : Rule} (hl : l ∈ r.lines fun _ => 0)
    (ha : a ∈ l.decisive .quiet fun _ => true) (hbad : bad a = true) :
    (r.attempt (failing .quiet bad)).status ≠ 0 := by
  intro hstatus
  have hs := (runLines_status_iff (r.guarded fun _ => 0) []).mp hstatus
  have hzero := hs a (List.mem_flatMap.mpr ⟨l, hl, ha⟩)
  simp [failing, hbad] at hzero

theorem age_mem_failing {r : Rule} {path text : String} {pre post : List Line}
    (hlines : (r.lines fun _ => 0) = pre ++ line text :: post)
    (htext : (age path).1 = .run (.run text)) (hbad : bad (.run (.run text)) = false)
    (hpre : ∀ l ∈ pre, ∀ a ∈ l.decisive .quiet fun _ => true, bad a = false) :
    ((age path).1, 0) ∈ (r.attempt (failing .quiet bad)).ran := by
  have hguarded : ∀ l ∈ pre, l.Guarded := fun l hl =>
    r.guarded (fun _ => 0) l (hlines ▸ List.mem_append_left _ hl)
  have hs : Succeed (failing .quiet bad).status
      (pre.flatMap fun l => l.decisive .quiet fun _ => true) := by
    intro a ha
    obtain ⟨l, hl, ha⟩ := List.mem_flatMap.mp ha
    simp [failing, hpre l hl a ha]
  have hzero : (failing .quiet bad).status (.run (.run text)) = 0 := by simp [failing, hbad]
  have hmem := mem_runLines_line text post hguarded hs
  rw [hzero, ← hlines] at hmem
  exact htext ▸ hmem

end Failing

theorem forgets_binutils : binutilsMarked.Forgets := by
  let bad : Action → Bool := (· = .stamp)
  have hgood : (Action.stamp, 0) ∈ (binutilsDone.rule.attempt smoothly).ran := by
    let i : Invocation := ⟨false, fun _ => 0, fun _ => true, fun _ => 0, false⟩
    have hwrites : binutilsDone.Writes .quiet i := writes_iff.mpr (succeed_smoothly _)
    exact hwrites.1
  have hage : ((age "$(PROJECTS)/binutils/binutils/arparse.y").1, 0) ∈
      (binutilsDone.rule.attempt (failing .quiet bad)).ran :=
    age_mem_failing (List.nil_append _).symm (by simp [age]) rfl (by simp)
  have hstatus : (binutilsDone.rule.attempt (failing .quiet bad)).status ≠ 0 :=
    status_failing_ne (List.mem_append_right _ List.mem_cons_self) (List.mem_singleton_self _) rfl
  have hnot : (Action.stamp, 0) ∉ (binutilsDone.rule.attempt (failing .quiet bad)).ran :=
    not_mem_failing _ rfl
  exact forgets_of_ages ⟨.inr rfl, .inr rfl⟩ List.mem_cons_self hgood hage hstatus hnot

theorem forgets_ndkInfo : ndkInfoMarked.Forgets := by
  let done := "touch $(PROJECTS)/$(NDK_FOLDER_NAME).info"
  let old := "touch -t 0001010000 $(DOWNLOAD)/$(NDK_ARC_NAME).lha"
  let bad : Action → Bool := (· = .run (.run done))
  obtain ⟨unpack, patch, hlines, hunpack⟩ : ∃ unpack patch,
      (ndkInfo.lines fun _ => 0) = [unpack, line old, patch, line done] ∧
        ∀ a ∈ unpack.decisive .quiet fun _ => true, bad a = false := by
    refine ⟨_, _, rfl, ?_⟩
    simp [bad, done, Line.decisive, decisive, guards, commandList, run]
  have hgood : (Action.run (.run done), 0) ∈ (ndkInfo.attempt smoothly).ran := by
    have hguarded : ∀ l ∈ [unpack, line old, patch], l.Guarded := fun l hl =>
      ndkInfo.guarded (fun _ => 0) l (hlines ▸ List.mem_append_left [line done] hl)
    have hmem := mem_runLines_line done [] hguarded (succeed_smoothly
      ([unpack, line old, patch].flatMap fun l => l.decisive .quiet fun _ => true))
    have hsplit : [unpack, line old, patch] ++ line done :: [] = ndkInfo.lines fun _ => 0 :=
      hlines.symm
    rw [hsplit] at hmem
    exact hmem
  have hage : ((age "$(DOWNLOAD)/$(NDK_ARC_NAME).lha").1, 0) ∈
      (ndkInfo.attempt (failing .quiet bad)).ran := by
    have hsplit : (ndkInfo.lines fun _ => 0) = [unpack] ++ line old :: [patch, line done] := hlines
    refine age_mem_failing hsplit (by simp [age, old]) (by simp [bad, done, old]) ?_
    simpa using hunpack
  have hlast : line done ∈ ndkInfo.lines fun _ => 0 := by
    rw [hlines]
    simp
  have hstatus : (ndkInfo.attempt (failing .quiet bad)).status ≠ 0 :=
    status_failing_ne hlast (List.mem_singleton_self _) (by simp [bad])
  have hnot : (Action.run (.run done), 0) ∉ (ndkInfo.attempt (failing .quiet bad)).ran :=
    not_mem_failing _ (by simp [bad])
  exact forgets_of_ages ⟨.inr rfl, .inr rfl⟩ List.mem_cons_self hgood hage hstatus hnot

theorem forgets_vbccTargetDone (name stepName source config : String)
    (hname : stepName ≠ "copying vbcc headers") :
    (vbccTargetDone name stepName source config).marked.Forgets := by
  let bad : Action → Bool := (· = .log (.redirect stepName))
  let i : Invocation := ⟨false, (failing .quiet bad).status, fun _ => true, fun _ => 0, false⟩
  have hheeded : ∀ a ∈ (vbccTargetDone name stepName source config).heeded .quiet i,
      bad a = false := by
    obtain ⟨t₁, t₂, t₃, t₄, hbefore⟩ : ∃ t₁ t₂ t₃ t₄,
        (vbccTargetDone name stepName source config).before i.rounds =
          [line t₁, step "copying vbcc headers" t₂, line t₃, step "copying vbcc headers" t₄] :=
      ⟨_, _, _, _, rfl⟩
    rw [Stamped.heeded, hbefore]
    simp [i, bad, line, step, run, Line.decisive, decisive, hname.symm]
  have hwrites : (vbccTargetDone name stepName source config).Writes .quiet i :=
    writes_iff.mpr fun a ha => by simp [i, failing, hheeded a ha]
  obtain ⟨last, hlast, hdecisive⟩ : ∃ last ∈ (vbccTargetDone name stepName source config).after
      (fun _ => 0), .log (.redirect stepName) ∈ last.decisive .quiet fun _ => true :=
    ⟨_, List.mem_cons_self, List.mem_cons_self⟩
  have hfailed : ((vbccTargetDone name stepName source config).rule.attempt
      (failing .quiet bad)).status ≠ 0 :=
    status_failing_ne (List.mem_append_right _ (List.mem_cons_of_mem _ hlast)) hdecisive
      (by simp [bad])
  exact forgets_of_marker (.inr rfl) hwrites.1 hfailed

/-- A recipe whose last command, and no other one, writes the target is steady. -/
theorem steady_of_last {r : Marked} {pre : Rounds → List Line} {text : String}
    (hages : r.ages = []) (hmarker : r.marker = .run (.run text))
    (hlines : ∀ n, r.rule.lines n = pre n ++ [line text])
    (hpre : ∀ n mode, ∀ l ∈ pre n, (l.expand mode).All (· ≠ .run (.run text))) : r.Steady := by
  refine ⟨hages, fun a hmem => ?_⟩
  rw [hmarker] at hmem
  let before := runLines (oracle a.status a.test) a.mode (pre a.rounds) []
  have hran : (r.rule.attempt a).ran =
      (runLines (oracle a.status a.test) a.mode (r.rule.lines a.rounds) []).2 := rfl
  have hstatus : (r.rule.attempt a).status =
      (runLines (oracle a.status a.test) a.mode (r.rule.lines a.rounds) []).1 := rfl
  rw [hran, hlines, runLines_append] at hmem
  rw [hstatus, hlines, runLines_append]
  by_cases hzero : before.1 = 0
  · rw [if_pos hzero] at hmem ⊢
    have hlast : 0 = a.status (.run (.run text)) :=
      status_of_mem [line text] (status_of_mem (pre a.rounds) (by simp)) _ hmem
    have hline : (start (oracle a.status a.test) ((line text).expand a.mode) before.2).status = 0 :=
      hlast.symm
    rw [runLines_cons, if_pos hline]
    rfl
  · -- the recipe has ended in front of the last line
    rw [if_neg hzero] at hmem
    exact absurd hmem (not_mem_runLines (hpre a.rounds a.mode) List.not_mem_nil)

theorem all_step_inDir (mode : Mode) (name : String) {dir text last : String}
    (hdir : "cd " ++ dir ≠ last) (htext : text ≠ last) :
    ((Line.step name (inDir dir text)).expand mode).All (· ≠ .run (.run last)) := by
  cases mode <;>
    simp [-String.reduceAppend, Line.expand, wrap, chain, Prog.All, inDir, run, Prog.map, hdir,
      htext]

theorem steady_vbccTargetInfo (name : String)
    (hdir : "cd " ++ "$(BUILD)" ≠ "touch $(BUILD)/vbcc_target_" ++ name ++ ".info")
    (htext : "lha xf $(DOWNLOAD)/vbcc_target_" ++ name ++ ".lha" ≠
      "touch $(BUILD)/vbcc_target_" ++ name ++ ".info") :
    (vbccTargetInfoMarked name).Steady := by
  let unpack : Line := .step ("unpack vbcc_target_" ++ name)
    (inDir "$(BUILD)" ("lha xf $(DOWNLOAD)/vbcc_target_" ++ name ++ ".lha"))
  have hlines : ∀ n, (vbccTargetInfoMarked name).rule.lines n =
      [unpack] ++ [line ("touch $(BUILD)/vbcc_target_" ++ name ++ ".info")] := fun _ => rfl
  refine steady_of_last rfl rfl hlines fun _ mode l hl => ?_
  rw [List.mem_singleton.mp hl]
  exact all_step_inDir mode _ hdir htext

/-! ## The rules of the Makefile -/

/-- The rules that can forget a failure: those of the binutils and the NDK, which give
old times to prerequisites, and those of the targets of vbcc, which write their stamp too
early. -/
theorem forgets_iff {r : Marked} (hr : r ∈ marked) : r.Forgets ↔ r ∈ forgetful := by
  constructor
  · intro hforgets
    have hsteady : ¬ r.Steady := fun h => not_forgets_of_steady h hforgets
    simp only [marked, List.mem_cons, List.mem_map] at hr
    rcases hr with rfl | rfl | rfl | rfl | ⟨r', hr', rfl⟩
    · simp [forgetful]
    · simp [forgetful]
    · exact absurd (steady_vbccTargetInfo _ (by decide) (by decide)) hsteady
    · exact absurd (steady_vbccTargetInfo _ (by decide) (by decide)) hsteady
    · rcases after_eq_nil r' hr' with hnil | rfl | rfl
      · exact absurd (steady_marked hnil) hsteady
      · simp [forgetful]
      · simp [forgetful]
  · intro hmem
    simp only [forgetful, List.mem_cons, List.not_mem_nil, or_false] at hmem
    rcases hmem with rfl | rfl | rfl | rfl
    · exact forgets_binutils
    · exact forgets_ndkInfo
    · exact forgets_vbccTargetDone _ _ _ _ (by decide)
    · exact forgets_vbccTargetDone _ _ _ _ (by decide)

/-- An edit of `arparse.y`, `ldgram.y` and the like is forgotten when the build of the
binutils fails. -/
theorem forgets_iff_binutils : binutilsMarked.Forgets ∧ binutilsMarked ∈ forgetful := by
  have hmem : binutilsMarked ∈ marked := List.mem_cons_self
  have hforgetful : binutilsMarked ∈ forgetful := List.mem_cons_self
  exact ⟨(forgets_iff hmem).mpr hforgetful, hforgetful⟩

end Recipe

end AmigaGcc
