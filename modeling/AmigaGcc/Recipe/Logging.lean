import AmigaGcc.Recipe.Makefile

/-!
# Quiet and verbose builds

The same recipe is expanded in two ways, and `Agree` says that both run the same
commands and end with the same status. In a quiet build a step that fails leaves
its shell, in a verbose build it does not; that makes a difference only when
something follows the step in the same shell. `inner` are the commands that
decide over these steps, and `agree_iff` says that they are all that matters.
-/

namespace AmigaGcc

namespace Recipe

open Library Shell Shell.Prog

def Action.isLog : Action → Bool
  | log _ => true
  | run _ | stamp => false

/-- The statuses of `ω`, with a logging that does not fail. -/
def silent (ω : Action → ℕ) (a : Action) : ℕ := if a.isLog then 0 else ω a

/-- The commands of the build that were run, with their statuses. -/
def builds (ran : List (Action × ℕ)) : List (Action × ℕ) :=
  ran.filter fun e => !e.1.isLog

/-- The recipe in a quiet and in a verbose build. -/
def Agree (r : Rule) (n : Rounds) (ω : Action → ℕ) (b : Test → Bool) : Prop :=
  let quiet := runLines (oracle (silent ω) b) .quiet (r.lines n) []
  let verbose := runLines (oracle (silent ω) b) .verbose (r.lines n) []
  quiet.1 = verbose.1 ∧ builds quiet.2 = builds verbose.2

/-- The actions that decide over the steps which something follows in the same
shell. -/
def Line.inner (b : Test → Bool) : Line → List Action
  | seq p q => p.guards .quiet b ++ q.inner b
  | cond t p q => if b t then p.inner b else q.inner b
  | plain _ | step _ _ | stamp => []

def Rule.inner (r : Rule) (n : Rounds) (b : Test → Bool) : List Action :=
  (r.lines n).flatMap fun l => l.inner b

/-! ## Two shells in step -/

def SameBuilds (x y : List (Action × ℕ)) : Prop := builds x = builds y

section InStep

variable {ω : Action → ℕ} {b : Test → Bool}

theorem sameBuilds_append {x y : List (Action × ℕ)} (h : SameBuilds x y) (e : Action × ℕ) :
    SameBuilds (x ++ [e]) (y ++ [e]) := by
  simp only [SameBuilds, builds, List.filter_append] at h ⊢
  rw [h]

theorem sameBuilds_log {x y : List (Action × ℕ)} (h : SameBuilds x y) (l : Log) (k : ℕ) :
    SameBuilds (x ++ [(.log l, k)]) y := by
  simpa [SameBuilds, builds, Action.isLog] using h

theorem inStep_eval (p : Prog Action Test) {s t : Shell.State (List (Action × ℕ))}
    (h : InStep SameBuilds s t) :
    InStep SameBuilds (eval (oracle (silent ω) b) p s) (eval (oracle (silent ω) b) p t) :=
  eval_simulation (fun _ _ _ hxy => ⟨rfl, sameBuilds_append hxy _⟩) (fun _ _ _ _ => rfl) p h

theorem inStep_body (name : String) (body : Prog Cmd Test)
    {s t : Shell.State (List (Action × ℕ))} (h : InStep SameBuilds s t)
    (hs : s.exited = false) :
    InStep SameBuilds
      (eval (oracle (silent ω) b) (redirected name (body.map .run id))
        (announced (silent ω) name s))
      (eval (oracle (silent ω) b) ((Line.step name body).expand .verbose) t) := by
  let m := oracle (τ := Test) (silent ω) b
  have hredirected : eval m (redirected name (body.map .run id)) (announced (silent ω) name s) =
      eval m (sub (body.map .run id))
        (eval m (cmd (.log (.redirect name))) (announced (silent ω) name s)) :=
    eval_and m _ hs rfl
  have hverbose : eval m ((Line.step name body).expand .verbose) t =
      eval m (sub (body.map .run id)) (eval m skip t) :=
    eval_seq m straight_skip _ (h.exited ▸ hs)
  have hstart : InStep SameBuilds
      (eval m (cmd (.log (.redirect name))) (announced (silent ω) name s)) (eval m skip t) := by
    refine ⟨?_, rfl, h.saved, h.exited⟩
    have hstore := sameBuilds_log (sameBuilds_log (sameBuilds_log h.store
      (.enter name) 0) (.mkdir name) 0) (.redirect name) 0
    simpa [m, eval, oracle, announced, silent, Action.isLog] using hstore
  rw [hredirected, hverbose]
  exact inStep_eval _ hstart

/-- While no step fails, both modes stay in step. -/
theorem inStep_line {l : Line} (hl : l.Guarded) {s t : Shell.State (List (Action × ℕ))}
    (h : InStep SameBuilds s t) (hs : s.exited = false) (hsaved : s.saved = 0)
    (hguards : Succeed (silent ω) (l.guards .quiet b)) :
    InStep SameBuilds (eval (oracle (silent ω) b) (l.expand .quiet) s)
        (eval (oracle (silent ω) b) (l.expand .verbose) t) ∧
      (eval (oracle (silent ω) b) (l.expand .quiet) s).saved = 0 := by
  induction l generalizing s t with
  | plain p =>
      exact ⟨inStep_eval _ h, (eval_saved _ (guarded_mapRun hl) hs).trans hsaved⟩
  | step name body =>
      have hbody := inStep_body (ω := ω) (b := b) name body h hs
      have hguarded : Prog.Guarded Counts (redirected name (body.map Action.run id)) :=
        ⟨trivial, guarded_mapRun hl, trivial, trivial⟩
      have hstatus := (eval_status_iff (ω := silent ω) (b := b) hguarded
        (s := announced (silent ω) name s) hs).mpr (by
          simpa [redirected, Prog.decisive, decisive_guards_map, Line.guards] using hguards)
      obtain ⟨hexited, husaved⟩ := eval_straight (oracle (τ := Test) (silent ω) b)
        (p := redirected name (body.map .run id)) ⟨straight_cmd _, straight_sub _⟩
        (announced (silent ω) name s)
      rw [Line.expand, eval_wrap_quiet name _ hs]
      generalize eval (oracle (silent ω) b) _ (announced (silent ω) name s) = u
        at hbody hstatus hexited husaved ⊢
      simp only [reported, hstatus, if_true, and_true]
      refine ⟨sameBuilds_log (sameBuilds_log hbody.store _ _) _ _, ?_, ?_, ?_⟩
      · exact hstatus.symm.trans hbody.status
      · exact (husaved.trans hsaved).symm.trans hbody.saved
      · exact (hexited.trans hs).symm.trans hbody.exited
  | seq p q ihp ihq =>
      rw [Line.guards, succeed_append] at hguards
      obtain ⟨hp, hpsaved⟩ := ihp hl.1 h hs hsaved hguards.1
      have hexited : (eval (oracle (silent ω) b) (p.expand .quiet) s).exited = false := by
        rw [Bool.eq_false_iff]
        exact fun hx => (Line.spec .quiet b (silent ω) hl.1 hs).exited.mp hx hguards.1
      have hexited' : (eval (oracle (silent ω) b) (p.expand .verbose) t).exited = false :=
        hp.exited ▸ hexited
      simp only [Line.expand, eval, hexited, hexited', Bool.false_eq_true, if_false]
      exact ihq hl.2 hp hexited hpsaved hguards.2
  | cond c p q ihp ihq =>
      rw [Line.guards] at hguards
      simp only [Line.expand, eval, oracle]
      split
      · next hc =>
          rw [if_pos hc] at hguards
          exact ihp hl.1 h hs hsaved hguards
      · next hc =>
          rw [if_neg hc] at hguards
          exact ihq hl.2 h hs hsaved hguards
  | stamp => exact ⟨inStep_eval _ h, hsaved⟩

/-- When no step fails that something follows in its shell, a line ends with the
same status in both modes. -/
theorem agree_line {l : Line} (hl : l.Guarded) {s t : Shell.State (List (Action × ℕ))}
    (h : InStep SameBuilds s t) (hs : s.exited = false) (hsaved : s.saved = 0)
    (hinner : Succeed (silent ω) (l.inner b)) :
    (eval (oracle (silent ω) b) (l.expand .quiet) s).status =
        (eval (oracle (silent ω) b) (l.expand .verbose) t).status ∧
      SameBuilds (eval (oracle (silent ω) b) (l.expand .quiet) s).store
        (eval (oracle (silent ω) b) (l.expand .verbose) t).store := by
  induction l generalizing s t with
  | plain p =>
      have hp := inStep_eval (ω := ω) (b := b) (p.map .run id) h
      exact ⟨hp.status, hp.store⟩
  | step name body =>
      have hbody := inStep_body (ω := ω) (b := b) name body h hs
      rw [Line.expand, eval_wrap_quiet name _ hs]
      generalize eval (oracle (silent ω) b) _ (announced (silent ω) name s) = u at hbody ⊢
      rw [reported]
      split
      · next h0 =>
          exact ⟨h0.symm.trans hbody.status,
            sameBuilds_log (sameBuilds_log hbody.store _ _) _ _⟩
      · exact ⟨hbody.status, sameBuilds_log hbody.store _ _⟩
  | seq p q _ ihq =>
      rw [Line.inner, succeed_append] at hinner
      obtain ⟨hp, hpsaved⟩ := inStep_line hl.1 h hs hsaved hinner.1
      have hexited : (eval (oracle (silent ω) b) (p.expand .quiet) s).exited = false := by
        rw [Bool.eq_false_iff]
        exact fun hx => (Line.spec .quiet b (silent ω) hl.1 hs).exited.mp hx hinner.1
      have hexited' : (eval (oracle (silent ω) b) (p.expand .verbose) t).exited = false :=
        hp.exited ▸ hexited
      simp only [Line.expand, eval, hexited, hexited', Bool.false_eq_true, if_false]
      exact ihq hl.2 hp hexited hpsaved hinner.2
  | cond c p q ihp ihq =>
      rw [Line.inner] at hinner
      simp only [Line.expand, eval, oracle]
      split
      · next hc =>
          rw [if_pos hc] at hinner
          exact ihp hl.1 h hs hsaved hinner
      · next hc =>
          rw [if_neg hc] at hinner
          exact ihq hl.2 h hs hsaved hinner
  | stamp =>
      have hp := inStep_eval (ω := ω) (b := b) (cmd Action.stamp) h
      exact ⟨hp.status, hp.store⟩

theorem agree_lines {ls : List Line} (hls : ∀ l ∈ ls, l.Guarded)
    (hinner : Succeed (silent ω) (ls.flatMap fun l => l.inner b)) {x y : List (Action × ℕ)}
    (h : SameBuilds x y) :
    (runLines (oracle (silent ω) b) .quiet ls x).1 =
        (runLines (oracle (silent ω) b) .verbose ls y).1 ∧
      SameBuilds (runLines (oracle (silent ω) b) .quiet ls x).2
        (runLines (oracle (silent ω) b) .verbose ls y).2 := by
  induction ls generalizing x y with
  | nil => exact ⟨rfl, h⟩
  | cons l ls ih =>
      obtain ⟨hl, hls⟩ := List.forall_mem_cons.mp hls
      rw [List.flatMap_cons, succeed_append] at hinner
      obtain ⟨hstatus, hstore⟩ := agree_line (s := { store := x }) (t := { store := y })
        hl ⟨h, rfl, rfl, rfl⟩ rfl rfl hinner.1
      rw [runLines_cons, runLines_cons, start, start, hstatus]
      split
      · exact ih hls hinner.2 hstore
      · exact ⟨rfl, hstore⟩

end InStep

/-! ## The recipes -/

theorem agree_of_inner {r : Rule} {n : Rounds} {ω : Action → ℕ} {b : Test → Bool}
    (h : Succeed (silent ω) (r.inner n b)) : Agree r n ω b :=
  agree_lines (r.guarded n) h rfl

/-- But for lha, nothing follows a step in its shell. -/
theorem inner_eq_nil (n : Rounds) (b : Test → Bool) :
    ∀ r ∈ loggedButLha, r.inner n b = [] := by
  simp only [loggedButLha, List.forall_mem_cons, List.not_mem_nil, false_imp_iff, implies_true,
    and_true]
  and_intros
  all_goals first
    | rfl
    | simp [-String.reduceAppend, newlibMakefile, Rule.inner, Line.inner, line]

theorem lhaDone_inner (n : Rounds) (ω : Action → ℕ) (b : Test → Bool) :
    Succeed (silent ω) (lhaDone.rule.inner n b) ↔
      (b lhaMissing = true →
        ω (.run cloneLha) = 0 ∧ ω (.run configureLha) = 0 ∧ ω (.run makeLha) = 0) := by
  cases hb : b lhaMissing <;>
    simp [Rule.inner, Stamped.rule, lhaDone, lhaLine, buildLha, installLha, Line.chain,
      Line.inner, Line.guards, hb, inDir, line, run, guards, decisive, silent, Action.isLog]

section Lha

variable {ω : Action → ℕ} {b : Test → Bool}

theorem buildLha_guarded : buildLha.Guarded := by
  simp [buildLha, Line.chain, Line.Guarded]

theorem start_lhaLine (mode : Mode) (hb : b lhaMissing = true) :
    start (oracle ω b) (lhaLine.expand mode) [] =
      eval (oracle ω b) ((Line.seq buildLha installLha).expand mode) { store := [] } :=
  if_pos hb

/-- When a step of lha fails, a quiet build does not come to the installation. -/
theorem not_mem_quiet_lha (n : Rounds) (hb : b lhaMissing = true)
    (h : ¬ Succeed ω (buildLha.guards .quiet b)) (k : ℕ) :
    (Action.run mkdirLha, k) ∉ (runLines (oracle ω b) .quiet (lhaDone.rule.lines n) []).2 := by
  have hexited := (Line.spec .quiet b ω buildLha_guarded (s := { store := [] }) rfl).exited.mpr h
  have hline : start (oracle ω b) (lhaLine.expand .quiet) [] =
      eval (oracle ω b) (buildLha.expand .quiet) { store := [] } := by
    rw [start_lhaLine .quiet hb, Line.expand, eval, if_pos hexited]
  have hstatus : (start (oracle ω b) (lhaLine.expand .quiet) []).status ≠ 0 := by
    rw [hline, Ne, (Line.spec .quiet b ω buildLha_guarded rfl).status]
    exact fun hdecisive => h (hdecisive.subset (guards_subset_decisive buildLha))
  have hlines : lhaDone.rule.lines n = [lhaLine, .stamp] := rfl
  rw [hlines, runLines_cons, if_neg hstatus, hline]
  refine eval_invariant (oracle ω b) (K := fun a => a ≠ .run mkdirLha)
    (I := fun ran => (Action.run mkdirLha, k) ∉ ran) ?_ ?_ List.not_mem_nil
  · intro a ran ha hran hmem
    rcases List.mem_append.mp hmem with hmem | hmem
    · exact hran hmem
    · have he := List.mem_singleton.mp hmem
      exact ha (congrArg Prod.fst he).symm
  · simp [buildLha, Line.chain, Line.expand, wrap, Prog.map, inDir, line, run, Prog.All,
      cloneLha, configureLha, makeLha, mkdirLha]

theorem mem_verbose_lha (n : Rounds) (hb : b lhaMissing = true) :
    (Action.run mkdirLha, ω (.run mkdirLha)) ∈
      (runLines (oracle ω b) .verbose (lhaDone.rule.lines n) []).2 := by
  have hexited : (eval (oracle ω b) (buildLha.expand .verbose) { store := [] }).exited = false := by
    rw [Bool.eq_false_iff, Ne, (Line.spec .verbose b ω buildLha_guarded rfl).exited, not_not]
    simp [buildLha, Line.chain, Line.guards, inDir, line, run, guards]
  have hmem : (Action.run mkdirLha, ω (.run mkdirLha)) ∈
      (start (oracle ω b) (lhaLine.expand .verbose) []).store := by
    rw [start_lhaLine .verbose hb, Line.expand, eval]
    generalize eval (oracle ω b) (buildLha.expand .verbose) _ = s at hexited ⊢
    simp [installLha, Line.expand, wrap, Prog.map, run, eval, oracle, hexited]
  have hlines : lhaDone.rule.lines n = [lhaLine, .stamp] := rfl
  rw [hlines, runLines_cons]
  split
  · exact mem_runLines _ hmem
  · exact hmem

end Lha

theorem agree_lhaDone_iff (n : Rounds) (ω : Action → ℕ) (b : Test → Bool) :
    Agree lhaDone.rule n ω b ↔ Succeed (silent ω) (lhaDone.rule.inner n b) := by
  refine ⟨fun h => ?_, agree_of_inner⟩
  by_contra hno
  have hinner : lhaDone.rule.inner n b =
      if b lhaMissing then buildLha.guards .quiet b else [] := by
    cases hb : b lhaMissing <;>
      simp [Rule.inner, Stamped.rule, lhaDone, lhaLine, installLha, Line.inner, hb]
  cases hb : b lhaMissing with
  | false => exact hno (by rw [hinner, hb]; exact succeed_nil _)
  | true =>
      have hguards : ¬ Succeed (silent ω) (buildLha.guards .quiet b) := by
        rwa [hinner, hb] at hno
      have hverbose : (Action.run mkdirLha, silent ω (.run mkdirLha)) ∈
          builds (runLines (oracle (silent ω) b) .verbose (lhaDone.rule.lines n) []).2 :=
        List.mem_filter.mpr ⟨mem_verbose_lha n hb, rfl⟩
      rw [← h.2] at hverbose
      exact not_mem_quiet_lha n hb hguards _ (List.mem_of_mem_filter hverbose)

/-- A quiet and a verbose build agree about a recipe exactly when the steps that
something follows in the same shell succeed. -/
theorem agree_iff {r : Rule} (hr : r ∈ logged) (n : Rounds) (ω : Action → ℕ)
    (b : Test → Bool) : Agree r n ω b ↔ Succeed (silent ω) (r.inner n b) := by
  rcases List.mem_cons.mp hr with rfl | hr
  · exact agree_lhaDone_iff n ω b
  · refine ⟨fun _ => ?_, agree_of_inner⟩
    rw [inner_eq_nil n b r hr]
    exact succeed_nil _

/-- lha is missing; it is cloned and built, with an `autoheader` that fails, and its
installation fails. -/
theorem agree_lha_installFails :
    Agree lhaDone.rule (fun _ => 0)
      (fun a =>
        if a = .run (.run "autoheader") ∨
          a = .run (.run "install src/lha$(EXEEXT) $(PREFIX)/bin/lha$(EXEEXT)") then 1 else 0)
      fun _ => true := by
  refine (agree_iff List.mem_cons_self _ _ _).mpr ((lhaDone_inner _ _ _).mpr fun _ => ?_)
  simp [cloneLha, configureLha, makeLha]

/-- When `git clone` fails, a quiet build stops and a verbose one goes on. -/
theorem quiet_verbose_differ :
    ¬ Agree lhaDone.rule (fun _ => 0)
      (fun a => if a = .run cloneLha then 128 else 0) fun _ => true := by
  rw [agree_lhaDone_iff, lhaDone_inner]
  intro h
  exact absurd (h rfl).1 (by simp)

end Recipe

end AmigaGcc
