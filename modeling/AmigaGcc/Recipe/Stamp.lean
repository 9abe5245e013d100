import AmigaGcc.Library.Transition
import AmigaGcc.Recipe.Makefile

/-!
# Stamps

Make runs the recipe of a stamp when the stamp is missing or a prerequisite is
newer. `invoke` is one invocation of make on one stamp; the state is what the
run that last wrote the stamp has done, all of it, what came after the stamp
included. A recipe that fails halfway leaves the stamp as it is. The `>` of
`echo "done" >$@` creates the file before anything is written, so that an `echo`
that fails may have made the stamp nevertheless.

The stamp is right when that run has ended with status 0 and without a failing
command. `stamp_sound_iff` says for which invocations it stays right: a command
whose status is ignored may fail only when some heeded command in front of the
stamp fails as well.
-/

namespace AmigaGcc

namespace Recipe

open Library Shell Shell.Prog

/-- A run of a recipe: its status and the actions with theirs. -/
structure Report where
  status : ℕ
  ran : List (Action × ℕ)

/-- Nothing is left to do after the run. -/
def Report.Succeeded (r : Report) : Prop := r.status = 0 ∧ Flawless Counts r.ran

/-- What make finds when it is started: whether a prerequisite is newer than the
stamp, how the actions will end, how the tests will be answered, how many rounds the
loops will make, and whether the stamp can be opened, even if the `echo` fails then. -/
structure Invocation where
  stale : Bool
  status : Action → ℕ
  test : Test → Bool
  rounds : Rounds
  opened : Bool

def Stamped.run (r : Stamped) (mode : Mode) (i : Invocation) : Report :=
  let (status, ran) := runLines (oracle i.status i.test) mode (r.rule.lines i.rounds) []
  ⟨status, ran⟩

/-- The recipe comes to its stamp, and the file is written or at least created. -/
def Stamped.Writes (r : Stamped) (mode : Mode) (i : Invocation) : Prop :=
  (Action.stamp, i.status .stamp) ∈ (r.run mode i).ran ∧
    (i.status .stamp = 0 ∨ i.opened = true)

instance (r : Stamped) (mode : Mode) (i : Invocation) : Decidable (r.Writes mode i) :=
  inferInstanceAs (Decidable (_ ∧ _))

def UpToDate (stamp : Option Report) (i : Invocation) : Prop :=
  stamp.isSome ∧ i.stale = false

instance (stamp : Option Report) (i : Invocation) : Decidable (UpToDate stamp i) :=
  inferInstanceAs (Decidable (_ ∧ _))

def invoke (r : Stamped) (mode : Mode) (stamp : Option Report) (i : Invocation) :
    Option (Option Report) :=
  if UpToDate stamp i then some stamp
  else if r.Writes mode i then some (some (r.run mode i))
  else some stamp

theorem invoke_eq_some (r : Stamped) (mode : Mode) (stamp : Option Report) (i : Invocation) :
    ∃ next, invoke r mode stamp i = some next := by
  rw [invoke]
  split
  · exact ⟨_, rfl⟩
  · split <;> exact ⟨_, rfl⟩

/-- Whenever the stamp exists, the run that last wrote it has succeeded. -/
def Sound (stamp : Option Report) : Prop := ∀ report ∈ stamp, report.Succeeded

/-- The actions that must succeed for the stamp to be there. -/
def Stamped.heeded (r : Stamped) (mode : Mode) (i : Invocation) : List Action :=
  ((r.before i.rounds).flatMap fun l => l.decisive mode i.test) ++
    if i.opened then [] else [.stamp]

/-- The commands of a line that are not decisive for its status. -/
def Line.ignored (mode : Mode) (b : Test → Bool) (l : Line) : List Action :=
  (l.commands mode b).filter fun a => a ∉ l.decisive mode b

/-- The actions whose failure does not keep the stamp from being written. -/
def Stamped.ignored (r : Stamped) (mode : Mode) (i : Invocation) : List Action :=
  ((r.before i.rounds).flatMap fun l => l.ignored mode i.test) ++
    ((if i.opened then [.stamp] else []) ++
      (r.after i.rounds).flatMap fun l => l.decisive mode i.test ++ l.commands mode i.test)

/-- The recipe is not run, or some heeded action fails, or no ignored one does. -/
def Careful (r : Stamped) (mode : Mode) (stamp : Option Report) (i : Invocation) : Prop :=
  UpToDate stamp i ∨ ¬ Succeed i.status (r.heeded mode i) ∨ Succeed i.status (r.ignored mode i)

/-! ## One run of a recipe -/

section Run

variable {mode : Mode} {b : Test → Bool} {ω : Action → ℕ}

theorem succeed_flatMap {ι : Type*} (ls : List ι) (f : ι → List Action) :
    Succeed ω (ls.flatMap f) ↔ ∀ l ∈ ls, Succeed ω (f l) := by
  simp only [Succeed, List.mem_flatMap]
  constructor
  · intro h l hl a ha
    exact h a ⟨l, hl, ha⟩
  · intro h a ha
    obtain ⟨l, hl, hal⟩ := ha
    exact h l hl a hal

/-- When the decisive commands of a line succeed, the ignored ones are the
others. -/
theorem succeed_ignored_iff {l : Line} (h : Succeed ω (l.decisive mode b)) :
    Succeed ω (l.ignored mode b) ↔ Succeed ω (l.commands mode b) := by
  constructor
  · intro hignored a ha
    by_cases hmem : a ∈ l.decisive mode b
    · exact h a hmem
    · exact hignored a (List.mem_filter.mpr ⟨ha, by simpa using hmem⟩)
  · exact fun hall => hall.subset List.filter_sublist.subset

theorem all_expand_of_unstamped {l : Line} (hl : l.Unstamped) :
    (l.expand mode).All (fun a => a ≠ .stamp) := by
  induction l with
  | plain p => exact (all_map Action.run id _ p).mpr (all_of_forall (fun _ => Action.noConfusion) p)
  | step name body =>
      have hbody : (body.map Action.run id).All (fun a => a ≠ .stamp) :=
        (all_map Action.run id _ body).mpr (all_of_forall (fun _ => Action.noConfusion) body)
      cases mode with
      | quiet =>
          simp only [Line.expand, wrap, chain, Prog.All]
          simpa using hbody
      | verbose => exact ⟨trivial, hbody⟩
  | seq p q ihp ihq | cond t p q ihp ihq => exact ⟨ihp hl.1, ihq hl.2⟩
  | stamp => exact hl.elim

theorem stamp_not_mem_runLines {ls : List Line} (hls : ∀ l ∈ ls, l.Unstamped)
    {ran : List (Action × ℕ)} {k : ℕ} (h : (Action.stamp, k) ∉ ran) :
    (Action.stamp, k) ∉ (runLines (oracle ω b) mode ls ran).2 := by
  induction ls generalizing ran with
  | nil => exact h
  | cons l ls ih =>
      obtain ⟨hl, hls⟩ := List.forall_mem_cons.mp hls
      have hline : (Action.stamp, k) ∉ (start (oracle ω b) (l.expand mode) ran).store := by
        refine eval_invariant (oracle ω b) (K := fun a => a ≠ Action.stamp)
          (I := fun ran => (Action.stamp, k) ∉ ran) ?_ (all_expand_of_unstamped hl) h
        intro a ran ha hran hmem
        rcases List.mem_append.mp hmem with hmem | hmem
        · exact hran hmem
        · exact ha (congrArg Prod.fst (List.mem_singleton.mp hmem)).symm
      rw [runLines_cons]
      split
      · exact ih hls hline
      · exact hline

end Run

section Stamped

variable {r : Stamped} {mode : Mode} {i : Invocation}

/-- The run of the lines in front of the stamp. -/
def Stamped.prelude (r : Stamped) (mode : Mode) (i : Invocation) : ℕ × List (Action × ℕ) :=
  runLines (oracle i.status i.test) mode (r.before i.rounds) []

/-- The run of the lines behind it. -/
def Stamped.coda (r : Stamped) (mode : Mode) (i : Invocation) : ℕ × List (Action × ℕ) :=
  runLines (oracle i.status i.test) mode (r.after i.rounds)
    ((r.prelude mode i).2 ++ [(.stamp, i.status .stamp)])

/-- A run ends in front of the stamp, at the stamp, or behind it. -/
theorem run_eq (r : Stamped) (mode : Mode) (i : Invocation) :
    r.run mode i =
      if (r.prelude mode i).1 ≠ 0 then ⟨(r.prelude mode i).1, (r.prelude mode i).2⟩
      else if i.status .stamp ≠ 0 then
        ⟨i.status .stamp, (r.prelude mode i).2 ++ [(.stamp, i.status .stamp)]⟩
      else ⟨(r.coda mode i).1, (r.coda mode i).2⟩ := by
  have hlines : r.rule.lines i.rounds = r.before i.rounds ++ .stamp :: r.after i.rounds := rfl
  rw [Stamped.run, hlines, runLines_append, ← Stamped.prelude]
  by_cases hprelude : (r.prelude mode i).1 = 0
  · have hstamp : start (oracle i.status i.test) (Line.stamp.expand mode) (r.prelude mode i).2 =
        { store := (r.prelude mode i).2 ++ [(.stamp, i.status .stamp)],
          status := i.status .stamp } := rfl
    rw [if_pos hprelude, if_neg (not_not.mpr hprelude), runLines_cons, hstamp]
    by_cases h0 : i.status .stamp = 0
    · rw [if_pos h0, if_neg (not_not.mpr h0)]
      rfl
    · rw [if_neg h0, if_pos h0]
  · rw [if_neg hprelude, if_pos hprelude]

theorem succeed_heeded_iff :
    Succeed i.status (r.heeded mode i) ↔
      (r.prelude mode i).1 = 0 ∧ (i.status .stamp = 0 ∨ i.opened = true) := by
  rw [Stamped.prelude, runLines_status_iff
    fun l hl => r.guarded i.rounds l (List.mem_append_left _ hl)]
  cases ho : i.opened <;> simp [Stamped.heeded, ho]

theorem writes_iff : r.Writes mode i ↔ Succeed i.status (r.heeded mode i) := by
  have hprelude : ∀ k, (Action.stamp, k) ∉ (r.prelude mode i).2 := fun k =>
    stamp_not_mem_runLines (fun l hl => r.unstamped i.rounds l (List.mem_append_left _ hl))
      List.not_mem_nil
  rw [Stamped.Writes, succeed_heeded_iff]
  refine and_congr_left' ?_
  rw [run_eq]
  split
  · next h => exact ⟨fun hmem => absurd hmem (hprelude _), fun hs => absurd hs h⟩
  · next h =>
      refine iff_of_true ?_ (not_not.mp h)
      split
      · exact List.mem_append_right _ (List.mem_singleton_self _)
      · exact mem_runLines _ (List.mem_append_right _ (List.mem_singleton_self _))

theorem succeeded_coda_iff (hprelude : (r.prelude mode i).1 = 0) (hstamp : i.status .stamp = 0) :
    (r.run mode i).Succeeded ↔
      Succeed i.status ((r.before i.rounds).flatMap fun l => l.ignored mode i.test) ∧
        Succeed i.status ((r.after i.rounds).flatMap fun l =>
          l.decisive mode i.test ++ l.commands mode i.test) := by
  have hbefore : ∀ l ∈ r.before i.rounds, l.Guarded :=
    fun l hl => r.guarded i.rounds l (List.mem_append_left _ hl)
  have hafter : ∀ l ∈ r.after i.rounds, l.Guarded :=
    fun l hl => r.guarded i.rounds l (List.mem_append_right _ hl)
  have hdecisive : Succeed i.status ((r.before i.rounds).flatMap fun l => l.decisive mode i.test) :=
    (runLines_status_iff hbefore []).mp hprelude
  have hstart : Flawless Counts ((r.prelude mode i).2 ++ [(.stamp, i.status .stamp)]) ↔
      Succeed i.status ((r.before i.rounds).flatMap fun l => l.ignored mode i.test) := by
    rw [flawless_append_cons, Stamped.prelude, runLines_flawless_iff hbefore hprelude]
    simp only [succeed_flatMap] at hdecisive ⊢
    simp only [Flawless, List.not_mem_nil, false_imp_iff, implies_true, hstamp, true_and, and_true]
    exact forall₂_congr fun l hl => (succeed_ignored_iff (hdecisive l hl)).symm
  rw [run_eq, if_neg (not_not.mpr hprelude), if_neg (not_not.mpr hstamp), Report.Succeeded,
    ← hstart]
  constructor
  · rintro ⟨hstatus, hflawless⟩
    obtain ⟨hran, hcommands⟩ := (runLines_flawless_iff hafter hstatus).mp hflawless
    have hlines := (runLines_status_iff hafter _).mp hstatus
    refine ⟨hran, ?_⟩
    simp only [succeed_flatMap, succeed_append] at hlines hcommands ⊢
    exact fun l hl => ⟨hlines l hl, hcommands l hl⟩
  · rintro ⟨hran, hlines⟩
    simp only [succeed_flatMap, succeed_append] at hlines
    have hstatus := (runLines_status_iff hafter
      ((r.prelude mode i).2 ++ [(.stamp, i.status .stamp)])).mpr
      ((succeed_flatMap _ _).mpr fun l hl => (hlines l hl).1)
    exact ⟨hstatus, (runLines_flawless_iff hafter hstatus).mpr
      ⟨hran, (succeed_flatMap _ _).mpr fun l hl => (hlines l hl).2⟩⟩

/-- A run that leaves the stamp has succeeded when no ignored action fails. -/
theorem succeeded_run_iff (h : Succeed i.status (r.heeded mode i)) :
    (r.run mode i).Succeeded ↔ Succeed i.status (r.ignored mode i) := by
  obtain ⟨hprelude, hopened⟩ := succeed_heeded_iff.mp h
  rw [Stamped.ignored, succeed_append, succeed_append]
  by_cases hstamp : i.status .stamp = 0
  · rw [succeeded_coda_iff hprelude hstamp]
    cases i.opened <;> simp [hstamp]
  · -- the run ends at the stamp that it has created
    have ho : i.opened = true := hopened.resolve_left hstamp
    rw [run_eq, if_neg (not_not.mpr hprelude), if_pos hstamp]
    simp [Report.Succeeded, ho, hstamp]

/-- One invocation, from a sound stamp. -/
theorem sound_invoke_iff {stamp next : Option Report} (hs : Sound stamp)
    (hnext : invoke r mode stamp i = some next) : Sound next ↔ Careful r mode stamp i := by
  rw [invoke] at hnext
  split at hnext
  · next hup =>
      obtain rfl := Option.some.inj hnext
      exact ⟨fun _ => Or.inl hup, fun _ => hs⟩
  · next hup =>
      split at hnext
      · next hmem =>
          obtain rfl := Option.some.inj hnext
          have hheeded := writes_iff.mp hmem
          have hrun := succeeded_run_iff hheeded
          simp [Sound, Careful, hup, hheeded, hrun]
      · next hmem =>
          obtain rfl := Option.some.inj hnext
          exact ⟨fun _ => Or.inr (Or.inl fun h => hmem (writes_iff.mpr h)), fun _ => hs⟩

end Stamped

theorem always_sound_iff (r : Stamped) (mode : Mode) (invocations : List Invocation) :
    Transition.Always (invoke r mode) Sound none invocations ↔
      Transition.Throughout (invoke r mode) (Careful r mode) none invocations :=
  Transition.always_iff_throughout (I := fun _ => True) (fun _ _ _ _ _ => trivial)
    (fun _ _ _ _ hs hnext => sound_invoke_iff hs hnext) trivial
    (fun _ h => absurd h (Option.not_mem_none _)) invocations

/-! ## The recipes of the Makefile -/

section Heedful

variable (mode : Mode) (b : Test → Bool)

@[simp] theorem ignored_line (text : String) : (line text).ignored mode b = [] := by
  simp [Line.ignored, line, run, Line.commands, Line.decisive, commands, decisive]

@[simp] theorem ignored_step (name text : String) : (step name text).ignored mode b = [] := by
  cases mode <;>
    simp [Line.ignored, step, run, Line.commands, Line.decisive, commands, decisive]

@[simp] theorem ignored_plain_inDir (dir text : String) :
    (Line.plain (inDir dir text)).ignored mode b = [] := by
  simp [Line.ignored, inDir, run, Line.commands, Line.decisive, commands, decisive]

@[simp] theorem ignored_step_inDir (name dir text : String) :
    (Line.step name (inDir dir text)).ignored mode b = [] := by
  cases mode <;>
    simp [Line.ignored, inDir, run, Line.commands, Line.decisive, commands, decisive]

@[simp] theorem ignored_cond_run (t : Test) (text : String) :
    (Line.plain (.cond t (run text) skip)).ignored mode b = [] := by
  cases h : b t <;>
    simp [Line.ignored, run, Line.commands, Line.decisive, commands, decisive, h]

end Heedful

/-- The recipes that heed the status of each of their commands. -/
def heedful : List Stamped :=
  [binutilsDone, binutilsGdb, binutilsGprof, gccDone, fd2sfdDone, fd2pragmaDone, iraDone,
    sfdcDone, vbccDone, vlinkDone, ndkIncludeNdk, ndkIncludeInline, ndkIncludeLvo,
    ndkIncludeProto, netincludeDone, libnixDone, libgccDone, clib2Done, libdebugDone,
    libpthreadDone, newlibDone, zlibDone, libpngDone, freetypeDone, libSDL12Done,
    libSDLmixerDone, libSDLttfDone]

/-- But for an `echo` that fails after it has opened the stamp. -/
theorem ignored_of_heedful (mode : Mode) (i : Invocation) :
    ∀ r ∈ heedful, r.ignored mode i = if i.opened then [.stamp] else [] := by
  simp only [heedful, List.forall_mem_cons, List.not_mem_nil, false_imp_iff, implies_true,
    and_true]
  and_intros
  -- the texts of the commands do not matter here
  all_goals simp [-String.reduceAppend, Stamped.ignored, binutilsDone, binutilsGdb,
    binutilsGprof, gccDone, fd2sfdDone, fd2pragmaDone, iraDone, sfdcDone, vbccDone, vlinkDone,
    ndkIncludeNdk, ndkIncludeInline, ndkIncludeLvo, ndkIncludeProto, netincludeDone,
    libnixDone, libgccDone, clib2Done, libdebugDone, installLibpthread, libpthreadDone,
    newlibDone, zlibDone, libpngDone, freetypeDone, libSDL12Done, libSDLmixerDone,
    libSDLttfDone]

theorem heedful_or_eq : ∀ r ∈ stamped, r ∈ heedful ∨ r = vasmDone ∨ r = lhaDone ∨
    r = vbccTargetKick13Done ∨ r = vbccTargetAmigaosDone ∨ r = ndkIncludeNdk0 ∨
    r = ndkIncludeNdk13 := by
  simp only [stamped, List.forall_mem_cons, List.not_mem_nil, false_imp_iff, implies_true,
    and_true]
  and_intros
  all_goals simp [heedful]

/-! ## The stamps that can lie -/

/-- When `a` fails alone, after a stamp could not be opened otherwise. -/
def alone (n : Rounds) (a : Action) : Invocation :=
  ⟨false, fun c => if c = a then 1 else 0, fun _ => true, n, false⟩

/-- An ignored command that is not heeded elsewhere in the recipe. -/
def Stamped.Overlooks (r : Stamped) (n : Rounds) (a : Action) : Prop :=
  a ∈ r.ignored .quiet (alone n a) ∧ a ∉ r.heeded .quiet (alone n a)

/-- When such a command fails alone, the stamp is written for a run that has not
succeeded. -/
theorem Stamped.Overlooks.not_sound {r : Stamped} {n : Rounds} {a : Action}
    (h : r.Overlooks n a) :
    ¬ Transition.Always (invoke r .quiet) Sound none [alone n a] := by
  intro hsound
  obtain ⟨next, hnext⟩ := invoke_eq_some r .quiet none (alone n a)
  rcases ((always_sound_iff r .quiet _).mp hsound next hnext).1 with hup | hfail | hignored
  · exact absurd hup.1 Bool.false_ne_true
  · refine hfail fun c hc => if_neg ?_
    rintro rfl
    exact h.2 hc
  · have hzero : (if a = a then 1 else 0) = 0 := hignored a h.1
    rw [if_pos rfl] at hzero
    exact Nat.one_ne_zero hzero

/-- The first of the two installations of vasm, in front of a `;`. -/
def installVasm : Action := .run (.run "install $(BUILD)/vasm/vasmm68k_mot $(PREFIX)/bin/")

theorem overlooks_vasmDone : vasmDone.Overlooks (fun _ => 0) installVasm := by
  constructor
  · simp [Stamped.ignored, alone, vasmDone, installVasm, commandList, run, Line.ignored,
      Line.commands, Line.decisive, commands, decisive, guards]
  · simp [Stamped.heeded, alone, vasmDone, installVasm, commandList, line, step, run,
      Line.decisive, decisive, guards]

theorem overlooks_lhaDone : lhaDone.Overlooks (fun _ => 0) (.run mkdirLha) := by
  constructor
  · simp [Stamped.ignored, alone, lhaDone, lhaLine, buildLha, installLha, mkdirLha, cloneLha,
      configureLha, makeLha, Line.chain, Line.ignored, Line.commands, Line.decisive, Line.guards,
      commands, decisive, guards, inDir, line, run]
  · simp [Stamped.heeded, alone, lhaDone, lhaLine, buildLha, installLha, mkdirLha, cloneLha,
      configureLha, makeLha, Line.chain, Line.decisive, Line.guards, decisive, guards, inDir, line,
      run]

theorem overlooks_vbccTargetDone (name stepName source config : String)
    (hname : stepName ≠ "copying vbcc headers") :
    (vbccTargetDone name stepName source config).Overlooks (fun _ => 0)
      (.log (.redirect stepName)) := by
  refine ⟨List.mem_append_right _ (List.mem_append_right _
    (List.mem_append_left _ List.mem_cons_self)), ?_⟩
  obtain ⟨t₁, t₂, t₃, t₄, hbefore⟩ : ∃ t₁ t₂ t₃ t₄,
      (vbccTargetDone name stepName source config).before (fun _ => 0) =
        [line t₁, step "copying vbcc headers" t₂, line t₃, step "copying vbcc headers" t₄] :=
    ⟨_, _, _, _, rfl⟩
  rw [Stamped.heeded, alone, hbefore]
  simp [line, step, run, Line.decisive, decisive, hname]

theorem overlooks_ndkIncludeNdk0 : ndkIncludeNdk0.Overlooks (fun _ => 0)
    (.run (.run "find $(PREFIX)/$(TARGET)/ndk-include/clib/*protos.h -type f")) := by
  constructor
  · simp [-String.reduceAppend, Stamped.ignored, alone, ndkIncludeNdk0, stdargs, eachFound, each,
      withSubsts, forEach, chain, Line.ignored, Line.commands, Line.decisive, commands, decisive,
      guards, line, run]
  · simp [Stamped.heeded, alone, ndkIncludeNdk0, stdargs, eachFound, each, withSubsts, forEach,
      chain, Line.decisive, decisive, guards, line, run]

theorem overlooks_ndkIncludeNdk13 : ndkIncludeNdk13.Overlooks (fun _ => 0)
    (.run (.run "find $(PREFIX)/$(TARGET)/ndk13-include/clib/*protos.h -type f")) := by
  constructor
  · simp [-String.reduceAppend, Stamped.ignored, alone, ndkIncludeNdk13, stdargs, eachFound, each,
      withSubsts, forEach, chain, Line.ignored, Line.commands, Line.decisive, commands, decisive,
      guards, line, run]
  · simp [Stamped.heeded, alone, ndkIncludeNdk13, stdargs, eachFound, each, withSubsts, forEach,
      chain, Line.decisive, decisive, guards, line, run]

theorem overlooks_of_not_heedful {r : Stamped} (hr : r ∈ stamped) (hno : r ∉ heedful) :
    ∃ n a, a ≠ .stamp ∧ r.Overlooks n a := by
  rcases heedful_or_eq r hr with hmem | rfl | rfl | rfl | rfl | rfl | rfl
  · exact absurd hmem hno
  · exact ⟨_, _, Action.noConfusion, overlooks_vasmDone⟩
  · exact ⟨_, _, Action.noConfusion, overlooks_lhaDone⟩
  · exact ⟨_, _, Action.noConfusion, overlooks_vbccTargetDone _ _ _ _ (by decide)⟩
  · exact ⟨_, _, Action.noConfusion, overlooks_vbccTargetDone _ _ _ _ (by decide)⟩
  · exact ⟨_, _, Action.noConfusion, overlooks_ndkIncludeNdk0⟩
  · exact ⟨_, _, Action.noConfusion, overlooks_ndkIncludeNdk13⟩

/-! ## Which stamps can be trusted -/

/-- The stamp of a recipe is sound after every invocation of a sequence exactly when all
of them are careful. The recipes of `heedful` ignore no failure but that of an `echo` that
has opened the stamp, and the others of the Makefile do. -/
theorem stamp_sound_iff {r : Stamped} (hr : r ∈ stamped) :
    (∀ mode invocations, Transition.Always (invoke r mode) Sound none invocations ↔
      Transition.Throughout (invoke r mode) (Careful r mode) none invocations) ∧
    (r ∈ heedful ↔ ∀ mode i, ∀ a ∈ r.ignored mode i, a = .stamp) := by
  refine ⟨always_sound_iff r, fun hmem mode i a ha => ?_, fun h => ?_⟩
  · rw [ignored_of_heedful mode i r hmem] at ha
    split at ha
    · exact List.mem_singleton.mp ha
    · cases ha
  · by_contra hno
    obtain ⟨n, a, hne, hover⟩ := overlooks_of_not_heedful hr hno
    exact hne (h _ _ a hover.1)

/-- The recipe of vasm, when nothing fails. -/
theorem stamp_sound_vasm :
    Transition.Always (invoke vasmDone .quiet) Sound none
      [⟨false, fun _ => 0, fun _ => true, fun _ => 0, true⟩] :=
  ((stamp_sound_iff (by simp [stamped])).1 .quiet _).mpr
    fun _ _ => ⟨Or.inr (Or.inr fun _ _ => rfl), trivial⟩

/-- When only the first installation of vasm fails, the stamp is written nevertheless. -/
theorem vasm_stamp_unsound :
    ¬ Transition.Always (invoke vasmDone .quiet) Sound none
      [⟨false, fun a => if a = installVasm then 1 else 0, fun _ => true, fun _ => 0, false⟩] :=
  overlooks_vasmDone.not_sound

/-- A stamp can be trusted after all sequences of invocations in which no `echo` fails that
has opened the stamp, whatever else fails in them, exactly when its recipe is one of
`heedful`. -/
theorem always_sound_iff_heedful {r : Stamped} (hr : r ∈ stamped) :
    (∀ mode invocations, (∀ i ∈ invocations, i.status .stamp = 0 ∨ i.opened = false) →
      Transition.Always (invoke r mode) Sound none invocations) ↔ r ∈ heedful := by
  constructor
  · intro h
    by_contra hno
    obtain ⟨n, a, -, hover⟩ := overlooks_of_not_heedful hr hno
    exact hover.not_sound (h .quiet [alone n a] fun i hi => .inr (List.mem_singleton.mp hi ▸ rfl))
  · intro hmem mode invocations hecho
    refine (always_sound_iff r mode invocations).mpr ?_
    refine (Transition.throughout_of_forall hecho none).mono fun _ i hi => .inr (.inr ?_)
    rw [ignored_of_heedful mode i r hmem]
    rcases hi with hi | hi
    · split <;> simp [hi]
    · simp [hi]

theorem always_sound_gccDone : gccDone ∈ stamped ∧
    ∀ mode invocations, (∀ i ∈ invocations, i.status .stamp = 0 ∨ i.opened = false) →
      Transition.Always (invoke gccDone mode) Sound none invocations := by
  have hgcc : gccDone ∈ stamped := by simp [stamped]
  exact ⟨hgcc, (always_sound_iff_heedful hgcc).mpr (by simp [heedful])⟩

end Recipe

end AmigaGcc
