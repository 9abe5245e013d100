import AmigaGcc.Library.Shell.Status

/-!
# Recipes

A recipe is a list of lines, each run in a shell of its own; make stops at the
first line that ends with a status other than 0. The steps of a recipe are
written `$(L0)name$(L1) body $(L2)`, and `expand` is what becomes of them: in a
quiet build `L1` and `L2` log the step and leave the shell when it fails, in a
verbose build only the parentheses around the body are left.

A command is known by its text, and by the round when it stands in a loop; no
two commands of a recipe are the same. How many rounds a loop makes is left
open.
-/

namespace AmigaGcc

namespace Recipe

open Library Shell Shell.Prog

inductive Cmd where
  | run (text : String)
  /-- in the `i`-th round of a loop -/
  | round (loop text : String) (i : ℕ)
  deriving DecidableEq, Repr

inductive Test where
  | holds (text : String)
  | inRound (loop text : String) (i : ℕ)
  deriving DecidableEq, Repr

/-- The logging of the step `p` in a quiet build. -/
inductive Log where
  /-- `L1`: write the line to `.state`, under the lock -/
  | enter (p : String)
  /-- `mkdir -p log` -/
  | mkdir (p : String)
  /-- open `"$$__l"` for the output of the body -/
  | redirect (p : String)
  /-- `L2`: report the outcome and take the line out, under the lock -/
  | leave (p : String)
  /-- `echo -n ""` -/
  | echo (p : String)
  deriving DecidableEq, Repr

inductive Action where
  | run (c : Cmd)
  | log (l : Log)
  /-- `echo "done" >$@` -/
  | stamp
  deriving DecidableEq, Repr

/-- `verbose` is empty, or it is not. -/
inductive Mode where
  | quiet
  | verbose
  deriving DecidableEq, Repr

/-- A line of a recipe, or a part of one. -/
inductive Line where
  | plain (p : Prog Cmd Test)
  /-- `$(L0)name$(L1) body $(L2)` -/
  | step (name : String) (body : Prog Cmd Test)
  | seq (a b : Line)
  | cond (t : Test) (a b : Line)
  | stamp

/-- `L1` and `L2` around a body. -/
def wrap (name : String) (body : Prog Action Test) : Mode → Prog Action Test
  | .quiet =>
      -- the assignments of `__p` and `__l` are the two `skip`s
      chain [skip, cmd (.log (.enter name)), cmd (.log (.mkdir name)), skip,
        and (cmd (.log (.redirect name))) (sub body), save, cmd (.log (.leave name)),
        exitSaved, cmd (.log (.echo name))]
  | .verbose => chain [skip, sub body]

/-- What make hands to the shell. -/
def Line.expand (mode : Mode) : Line → Prog Action Test
  | plain p => p.map .run id
  | step name body => wrap name (body.map .run id) mode
  | seq a b => .seq (a.expand mode) (b.expand mode)
  | cond t a b => .cond t (a.expand mode) (b.expand mode)
  | stamp => cmd .stamp

def Line.chain : List Line → Line
  | [] => plain skip
  | [a] => a
  | a :: b :: l => seq a (chain (b :: l))

abbrev Rounds := String → ℕ

/-- The scripts of the line use `||` only to give up. -/
def Line.Guarded : Line → Prop
  | plain p | step _ p => Prog.Guarded (fun _ => True) p
  | seq p q | cond _ p q => p.Guarded ∧ q.Guarded
  | stamp => True

def Line.Unstamped : Line → Prop
  | plain _ | step _ _ => True
  | seq p q | cond _ p q => p.Unstamped ∧ q.Unstamped
  | stamp => False

structure Rule where
  target : String
  lines : Rounds → List Line
  -- the texts are not looked at, so their pieces need not be put together
  guarded : ∀ n, ∀ l ∈ lines n, l.Guarded := by simp [-String.reduceAppend]

/-- A target whose recipe has the line `echo "done" >$@`, and the lines around
it. -/
structure Stamped where
  target : String
  before : Rounds → List Line
  after : Rounds → List Line := fun _ => []
  guarded : ∀ n, ∀ l ∈ before n ++ after n, l.Guarded := by simp [-String.reduceAppend]
  unstamped : ∀ n, ∀ l ∈ before n ++ after n, l.Unstamped := by simp [-String.reduceAppend]

def Stamped.rule (r : Stamped) : Rule where
  target := r.target
  lines n := r.before n ++ .stamp :: r.after n
  guarded n l hl := by
    rcases List.mem_append.mp hl with hl | hl
    · exact r.guarded n l (List.mem_append_left _ hl)
    · rcases List.mem_cons.mp hl with rfl | hl
      · trivial
      · exact r.guarded n l (List.mem_append_right _ hl)

/-- Run the lines of a recipe. The status is 0, or that of the line make has
stopped at. -/
def runLines {σ : Type*} (m : Machine Action Test σ) (mode : Mode) :
    List Line → σ → ℕ × σ
  | [], x => (0, x)
  | l :: ls, x =>
      let s := start m (l.expand mode) x
      if s.status = 0 then runLines m mode ls s.store else (s.status, s.store)

theorem runLines_append {σ : Type*} (m : Machine Action Test σ) (mode : Mode)
    (ks ls : List Line) (x : σ) :
    runLines m mode (ks ++ ls) x =
      if (runLines m mode ks x).1 = 0 then runLines m mode ls (runLines m mode ks x).2
      else runLines m mode ks x := by
  induction ks generalizing x with
  | nil => rfl
  | cons k ks ih =>
      rw [List.cons_append, runLines, runLines]
      by_cases h : (start m (k.expand mode) x).status = 0
      · simp only [h, if_true]
        exact ih _
      · simp only [h, if_false]

/-! ## Which statuses a line heeds -/

section Line

variable (mode : Mode) (b : Test → Bool)

/-- The actions whose failure leaves the shell of the line. In a quiet build
`L2` does so when the body has failed. -/
def Line.guards : Line → List Action
  | plain p => (Prog.guards b p).map .run
  | step name body =>
      match mode with
      | .quiet => .log (.redirect name) :: (Prog.decisive b body).map .run
      | .verbose => []
  | seq p q => p.guards ++ q.guards
  | cond t p q => if b t then p.guards else q.guards
  | stamp => []

/-- The actions that must succeed for the line to end with status 0. -/
def Line.decisive : Line → List Action
  | plain p => (Prog.decisive b p).map .run
  | step name body =>
      match mode with
      | .quiet =>
          .log (.redirect name) :: ((Prog.decisive b body).map .run ++ [.log (.echo name)])
      | .verbose => (Prog.decisive b body).map .run
  | seq p q => p.guards mode b ++ q.decisive
  | cond t p q => if b t then p.decisive else q.decisive
  | stamp => [.stamp]

/-- The commands of the line. The redirection counts as one: without it the body
is not run. -/
def Line.commands : Line → List Action
  | plain p => (Prog.commands b p).map .run
  | step name body =>
      match mode with
      | .quiet => .log (.redirect name) :: (Prog.commands b body).map .run
      | .verbose => (Prog.commands b body).map .run
  | seq p q => p.commands ++ q.commands
  | cond t p q => if b t then p.commands else q.commands
  | stamp => [.stamp]

end Line

/-- The actions that belong to what the recipe is for. -/
def Counts : Action → Prop
  | .run _ | .stamp | .log (.redirect _) => True
  | .log _ => False

section Rules

variable {mode : Mode} {b : Test → Bool} {ω : Action → ℕ}

theorem guarded_mapRun {p : Prog Cmd Test} (hp : Prog.Guarded (fun _ => True) p) :
    Prog.Guarded Counts (p.map Action.run id) :=
  (guarded_map Action.run id Counts p).mpr hp

theorem counts_of_mem_commands {l : Line} {a : Action} (ha : a ∈ l.commands mode b) :
    Counts a := by
  induction l with
  | plain p =>
      obtain ⟨c, -, rfl⟩ := List.mem_map.mp ha
      trivial
  | step name body =>
      cases mode with
      | quiet =>
          rcases List.mem_cons.mp ha with rfl | ha
          · trivial
          · obtain ⟨c, -, rfl⟩ := List.mem_map.mp ha
            trivial
      | verbose =>
          obtain ⟨c, -, rfl⟩ := List.mem_map.mp ha
          trivial
  | seq p q ihp ihq =>
      rcases List.mem_append.mp ha with ha | ha
      · exact ihp ha
      · exact ihq ha
  | cond t p q ihp ihq =>
      rw [Line.commands] at ha
      split at ha
      · exact ihp ha
      · exact ihq ha
  | stamp => exact List.mem_singleton.mp ha ▸ trivial

def announced (ω : Action → ℕ) (name : String) (s : Shell.State (List (Action × ℕ))) :
    Shell.State (List (Action × ℕ)) :=
  { s with
    store := s.store ++ [(.log (.enter name), ω (.log (.enter name))),
      (.log (.mkdir name), ω (.log (.mkdir name)))]
    status := 0 }

def redirected (name : String) (body : Prog Action Test) : Prog Action Test :=
  and (cmd (.log (.redirect name))) (sub body)

/-- What `L2` does with the status of the body. -/
def reported (ω : Action → ℕ) (name : String) (s : Shell.State (List (Action × ℕ))) :
    Shell.State (List (Action × ℕ)) :=
  let left := s.store ++ [(.log (.leave name), ω (.log (.leave name)))]
  if s.status = 0 then
    ⟨left ++ [(.log (.echo name), ω (.log (.echo name)))], ω (.log (.echo name)), 0, false⟩
  else ⟨left, s.status, s.status, true⟩

theorem eval_report (name : String) {s : Shell.State (List (Action × ℕ))}
    (hs : s.exited = false) :
    eval (oracle ω b)
        (chain [save, cmd (.log (.leave name)), exitSaved, cmd (.log (.echo name))]) s =
      reported ω name s := by
  by_cases h0 : s.status = 0
  · simp [chain, eval, oracle, hs, h0, reported]
  · simp [chain, eval, oracle, hs, h0, Nat.pos_of_ne_zero h0, reported]

/-- A step in a quiet build: log it, run its body with the output redirected, and
report. -/
theorem eval_wrap_quiet (name : String) (body : Prog Action Test)
    {s : Shell.State (List (Action × ℕ))} (hs : s.exited = false) :
    eval (oracle ω b) (wrap name body .quiet) s =
      reported ω name (eval (oracle ω b) (redirected name body) (announced ω name s)) := by
  let m := oracle (τ := Test) ω b
  let s₁ := eval m skip s
  let s₂ := eval m (cmd (.log (.enter name))) s₁
  let s₃ := eval m (cmd (.log (.mkdir name))) s₂
  have h₁ : s₁.exited = false := hs
  have h₂ : s₂.exited = false := hs
  have h₃ : s₃.exited = false := hs
  have h₄ : eval m skip s₃ = announced ω name s := by
    simp [s₃, s₂, s₁, m, eval, oracle, announced]
  have hbody : (redirected name body).Straight := ⟨straight_cmd _, straight_sub _⟩
  have hexited := (eval_straight m hbody (announced ω name s)).1.trans hs
  calc eval m (wrap name body .quiet) s
      = eval m (chain [redirected name body, save, cmd (.log (.leave name)), exitSaved,
          cmd (.log (.echo name))]) (eval m skip s₃) := by
        apply (eval_seq m straight_skip _ hs).trans
        apply (eval_seq m (straight_cmd _) _ h₁).trans
        apply (eval_seq m (straight_cmd _) _ h₂).trans
        exact eval_seq m straight_skip _ h₃
    _ = eval m (chain [save, cmd (.log (.leave name)), exitSaved, cmd (.log (.echo name))])
          (eval m (redirected name body) (announced ω name s)) := by
        rw [h₄]
        exact eval_seq m hbody _ hs
    _ = reported ω name (eval m (redirected name body) (announced ω name s)) :=
        eval_report name hexited

structure Line.Spec (l : Line) (mode : Mode) (b : Test → Bool) (ω : Action → ℕ)
    (s t : Shell.State (List (Action × ℕ))) : Prop where
  exited : t.exited = true ↔ ¬ Succeed ω (l.guards mode b)
  status : t.status = 0 ↔ Succeed ω (l.decisive mode b)
  flawless : Flawless Counts t.store ↔ Flawless Counts s.store ∧ Succeed ω (l.commands mode b)

theorem flawless_append_cons (ran : List (Action × ℕ)) (a : Action) (n : ℕ)
    (l : List (Action × ℕ)) :
    Flawless Counts (ran ++ (a, n) :: l) ↔
      Flawless Counts ran ∧ (Counts a → n = 0) ∧ Flawless Counts l := by
  simp only [Flawless, List.forall_mem_append, List.forall_mem_cons]

theorem flawless_logged {ran : List (Action × ℕ)} {a : Action} {n : ℕ}
    {l : List (Action × ℕ)} (ha : ¬ Counts a) :
    Flawless Counts (ran ++ (a, n) :: l) ↔ Flawless Counts (ran ++ l) := by
  rw [flawless_append_cons]
  simp only [Flawless, List.forall_mem_append]
  tauto

theorem succeed_of_counts {l : List Action} (h : ∀ a ∈ l, Counts a) :
    (∀ a ∈ l, Counts a → ω a = 0) ↔ Succeed ω l :=
  forall₂_congr fun a ha => ⟨fun hc => hc (h a ha), fun h0 _ => h0⟩

theorem spec_step_quiet (name : String) {body : Prog Cmd Test}
    (hbody : Prog.Guarded (fun _ => True) body) {s : Shell.State (List (Action × ℕ))}
    (hs : s.exited = false) :
    (Line.step name body).Spec .quiet b ω s
      (eval (oracle ω b) ((Line.step name body).expand .quiet) s) := by
  have hguarded : Prog.Guarded Counts (redirected name (body.map Action.run id)) :=
    ⟨trivial, guarded_mapRun hbody, trivial, trivial⟩
  have hannounced : (announced ω name s).exited = false := hs
  have hstatus := eval_status_iff (ω := ω) (b := b) hguarded hannounced
  have hflawless := eval_flawless_iff (ω := ω) (b := b) hguarded hannounced
  have hcommands : Prog.commands b (redirected name (body.map Action.run id)) =
      (Line.step name body).commands .quiet b := by
    simp [redirected, Prog.commands, commands_map, Line.commands]
  have hguards : Prog.decisive b (redirected name (body.map Action.run id)) =
      (Line.step name body).guards .quiet b := by
    simp [redirected, Prog.decisive, decisive_guards_map, Line.guards]
  have hdecisive : (Line.step name body).decisive .quiet b =
      (Line.step name body).guards .quiet b ++ [.log (.echo name)] := rfl
  have hstart : Flawless Counts (announced ω name s).store ↔ Flawless Counts s.store := by
    rw [announced, flawless_logged id, flawless_logged id, List.append_nil]
  rw [hguards] at hstatus
  rw [hcommands, succeed_of_counts (fun a ha => counts_of_mem_commands ha), hstart] at hflawless
  rw [Line.expand, eval_wrap_quiet name _ hs]
  generalize eval (oracle ω b) _ (announced ω name s) = u at hstatus hflawless ⊢
  by_cases h0 : u.status = 0
  · have hsucceed := hstatus.mp h0
    simp only [reported, h0, if_true]
    constructor
    · simp [hsucceed]
    · simp [hdecisive, hsucceed]
    · rw [← hflawless, List.append_assoc, List.singleton_append, flawless_logged id,
        flawless_logged id, List.append_nil]
  · have hfail := mt hstatus.mpr h0
    simp only [reported, h0, if_false]
    constructor
    · simp [hfail]
    · simp [hdecisive, hfail, h0]
    · rw [← hflawless, flawless_logged id, List.append_nil]

theorem spec_step_verbose (name : String) {body : Prog Cmd Test}
    (hbody : Prog.Guarded (fun _ => True) body) {s : Shell.State (List (Action × ℕ))}
    (hs : s.exited = false) :
    (Line.step name body).Spec .verbose b ω s
      (eval (oracle ω b) ((Line.step name body).expand .verbose) s) := by
  have hguarded : Prog.Guarded Counts (sub (body.map Action.run id)) := guarded_mapRun hbody
  let t := eval (oracle ω b) skip s
  have ht : t.exited = false := hs
  have heval : eval (oracle ω b) ((Line.step name body).expand .verbose) s =
      eval (oracle ω b) (sub (body.map Action.run id)) t := eval_seq _ straight_skip _ hs
  have hcounts : ∀ a ∈ (Line.step name body).commands .verbose b, Counts a :=
    fun a ha => counts_of_mem_commands ha
  have hflawless := eval_flawless_iff (ω := ω) (b := b) hguarded ht
  rw [Prog.commands, commands_map, Function.comp_id] at hflawless
  rw [heval]
  constructor
  · rw [eval_exited_iff hguarded ht, Prog.guards]
    rfl
  · rw [eval_status_iff hguarded ht, Prog.decisive, (decisive_guards_map _ _ _ _).1]
    rfl
  · rw [hflawless]
    exact and_congr_right fun _ => succeed_of_counts hcounts

theorem spec_plain {p : Prog Cmd Test} (hp : Prog.Guarded (fun _ => True) p)
    {s : Shell.State (List (Action × ℕ))} (hs : s.exited = false) :
    (Line.plain p).Spec mode b ω s
      (eval (oracle ω b) ((Line.plain p).expand mode) s) := by
  have hguarded := guarded_mapRun hp
  have hcounts : ∀ a ∈ (Line.plain p).commands mode b, Counts a :=
    fun a ha => counts_of_mem_commands ha
  have hflawless := eval_flawless_iff (ω := ω) (b := b) hguarded hs
  rw [commands_map, Function.comp_id] at hflawless
  rw [Line.expand]
  constructor
  · rw [eval_exited_iff hguarded hs, (decisive_guards_map _ _ _ _).2]
    rfl
  · rw [eval_status_iff hguarded hs, (decisive_guards_map _ _ _ _).1]
    rfl
  · rw [hflawless]
    exact and_congr_right fun _ => succeed_of_counts hcounts

theorem guards_subset_commands (l : Line) : l.guards mode b ⊆ l.commands mode b := by
  induction l with
  | plain p =>
      exact List.map_subset _
        (List.Subset.trans (Prog.guards_subset_decisive b p) (Prog.decisive_subset_commands b p))
  | step name body =>
      cases mode with
      | quiet =>
          exact List.cons_subset_cons _
            (List.map_subset _ (Prog.decisive_subset_commands b body))
      | verbose => exact List.nil_subset _
  | seq p q ihp ihq =>
      exact List.append_subset.mpr ⟨List.subset_append_of_subset_left _ ihp,
        List.subset_append_of_subset_right _ ihq⟩
  | cond t p q ihp ihq =>
      rw [Line.guards, Line.commands]
      split
      · exact ihp
      · exact ihq
  | stamp => exact List.nil_subset _

theorem guards_subset_decisive (l : Line) : l.guards mode b ⊆ l.decisive mode b := by
  induction l with
  | plain p => exact List.map_subset _ (Prog.guards_subset_decisive b p)
  | step name body =>
      cases mode with
      | quiet => exact List.cons_subset_cons _ (List.subset_append_left _ _)
      | verbose => exact List.nil_subset _
  | seq p q _ ihq =>
      exact List.append_subset.mpr ⟨List.subset_append_left _ _,
        List.subset_append_of_subset_right _ ihq⟩
  | cond t p q ihp ihq =>
      rw [Line.guards, Line.decisive]
      split
      · exact ihp
      · exact ihq
  | stamp => exact List.nil_subset _

/-- The statuses of the actions decide how a line ends. -/
theorem Line.spec (mode : Mode) (b : Test → Bool) (ω : Action → ℕ) {l : Line}
    (hl : l.Guarded) {s : Shell.State (List (Action × ℕ))} (hs : s.exited = false) :
    l.Spec mode b ω s (eval (oracle ω b) (l.expand mode) s) := by
  induction l generalizing s with
  | plain p => exact spec_plain hl hs
  | step name body =>
      cases mode with
      | quiet => exact spec_step_quiet name hl hs
      | verbose => exact spec_step_verbose name hl hs
  | seq p q ihp ihq =>
      have hp := ihp hl.1 hs
      have hexpand : eval (oracle ω b) ((Line.seq p q).expand mode) s =
          if (eval (oracle ω b) (p.expand mode) s).exited then
            eval (oracle ω b) (p.expand mode) s
          else eval (oracle ω b) (q.expand mode) (eval (oracle ω b) (p.expand mode) s) := rfl
      rw [hexpand]
      by_cases hx : (eval (oracle ω b) (p.expand mode) s).exited = true
      · -- a guard of `p` has failed
        have hguards := hp.exited.mp hx
        have hdecisive : ¬ Succeed ω (p.decisive mode b) := fun h =>
          hguards (h.subset (guards_subset_decisive p))
        have hcommands : ¬ Succeed ω (p.commands mode b) := fun h =>
          hguards (h.subset (guards_subset_commands p))
        rw [if_pos hx]
        constructor
        · simp [hx, Line.guards, hguards]
        · rw [hp.status, Line.decisive]
          simp [hguards, hdecisive]
        · rw [hp.flawless, Line.commands]
          simp [hcommands]
      · have hguards : Succeed ω (p.guards mode b) := not_not.mp fun hno => hx (hp.exited.mpr hno)
        have hq := ihq hl.2 (Bool.eq_false_iff.mpr hx)
        rw [if_neg hx]
        constructor
        · rw [hq.exited, Line.guards]
          simp [hguards]
        · rw [hq.status, Line.decisive]
          simp [hguards]
        · rw [hq.flawless, hp.flawless, Line.commands, succeed_append, and_assoc]
  | cond t p q ihp ihq =>
      rw [Line.expand, eval]
      cases h : b t with
      | true =>
          have hp := ihp hl.1 hs
          constructor
          · simpa [Line.guards, oracle, h] using hp.exited
          · simpa [Line.decisive, oracle, h] using hp.status
          · simpa [Line.commands, oracle, h] using hp.flawless
      | false =>
          have hq := ihq hl.2 hs
          constructor
          · simpa [Line.guards, oracle, h] using hq.exited
          · simpa [Line.decisive, oracle, h] using hq.status
          · simpa [Line.commands, oracle, h] using hq.flawless
  | stamp =>
      constructor
      · simp [Line.expand, eval, hs, Line.guards]
      · simp [Line.expand, eval, oracle, Line.decisive]
      · rw [Line.expand, eval, oracle, flawless_append_cons]
        simp [Line.commands, Counts, Flawless]

/-! ## Recipes line by line -/

theorem runLines_cons {σ : Type*} (m : Machine Action Test σ) (l : Line) (ls : List Line)
    (x : σ) :
    runLines m mode (l :: ls) x =
      if (start m (l.expand mode) x).status = 0 then
        runLines m mode ls (start m (l.expand mode) x).store
      else ((start m (l.expand mode) x).status, (start m (l.expand mode) x).store) := rfl

theorem mem_runLines {e : Action × ℕ} (ls : List Line)
    {ran : List (Action × ℕ)} (h : e ∈ ran) :
    e ∈ (runLines (oracle ω b) mode ls ran).2 := by
  induction ls generalizing ran with
  | nil => exact h
  | cons l ls ih =>
      have hmem : e ∈ (start (oracle ω b) (l.expand mode) ran).store :=
        eval_invariant (oracle ω b) (K := fun _ => True) (I := fun ran => e ∈ ran)
          (fun _ _ _ hran => List.mem_append_left _ hran)
          (all_of_forall (fun _ => trivial) _) h
      rw [runLines_cons]
      split
      · exact ih hmem
      · exact hmem

theorem runLines_status_iff {ls : List Line} (hls : ∀ l ∈ ls, l.Guarded)
    (ran : List (Action × ℕ)) :
    (runLines (oracle ω b) mode ls ran).1 = 0 ↔
      Succeed ω (ls.flatMap fun l => l.decisive mode b) := by
  induction ls generalizing ran with
  | nil => simp [runLines]
  | cons l ls ih =>
      obtain ⟨hl, hls⟩ := List.forall_mem_cons.mp hls
      have hspec := (Line.spec mode b ω hl (s := { store := ran }) rfl).status
      rw [runLines_cons, List.flatMap_cons, succeed_append]
      by_cases h0 : (start (oracle ω b) (l.expand mode) ran).status = 0
      · rw [if_pos h0, ih hls]
        simp [hspec.mp h0]
      · rw [if_neg h0]
        have hdecisive := mt hspec.mpr h0
        simp [h0, hdecisive]

theorem runLines_flawless_iff {ls : List Line} (hls : ∀ l ∈ ls, l.Guarded)
    {ran : List (Action × ℕ)} (h : (runLines (oracle ω b) mode ls ran).1 = 0) :
    Flawless Counts (runLines (oracle ω b) mode ls ran).2 ↔
      Flawless Counts ran ∧ Succeed ω (ls.flatMap fun l => l.commands mode b) := by
  induction ls generalizing ran with
  | nil => simp [runLines]
  | cons l ls ih =>
      obtain ⟨hl, hls⟩ := List.forall_mem_cons.mp hls
      have hspec := (Line.spec mode b ω hl (s := { store := ran }) rfl).flawless
      rw [runLines_cons] at h ⊢
      by_cases h0 : (start (oracle ω b) (l.expand mode) ran).status = 0
      · rw [if_pos h0] at h ⊢
        rw [ih hls h, List.flatMap_cons, succeed_append, ← and_assoc]
        exact and_congr_left' hspec
      · rw [if_neg h0] at h
        exact absurd h h0

end Rules

end Recipe

end AmigaGcc
