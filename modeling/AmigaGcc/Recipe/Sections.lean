import AmigaGcc.Recipe.Stamp

/-!
# The steps a recipe logs

In a quiet build `L1` and `L2` of a step are two sections under the lock. A recipe
goes through the sections of its steps in their order, each step left before the
next one is entered, and leaves out the rest after a failure (`sections_runLines`).
-/

namespace AmigaGcc

namespace Recipe

open Library Shell Shell.Prog

inductive Section where
  | enter (name : String)
  | leave (name : String)
  deriving DecidableEq, Repr

def Action.locked : Action → Option Section
  | log (.enter p) => some (.enter p)
  | log (.leave p) => some (.leave p)
  | log _ | run _ | stamp => none

def sections (ran : List (Action × ℕ)) : List Section := ran.filterMap fun e => e.1.locked

/-- The sections of some steps, one after the other. -/
def brackets (names : List String) : List Section :=
  names.flatMap fun p => [.enter p, .leave p]

def Line.steps (b : Test → Bool) : Line → List String
  | plain _ | stamp => []
  | step name _ => [name]
  | seq p q => p.steps b ++ q.steps b
  | cond t p q => if b t then p.steps b else q.steps b

def Rule.steps (r : Rule) (n : Rounds) (b : Test → Bool) : List String :=
  (r.lines n).flatMap fun l => l.steps b

section Sections

variable {ω : Action → ℕ} {b : Test → Bool}

@[simp] theorem sections_nil : sections [] = [] := rfl

theorem sections_cons (a : Action) (n : ℕ) (ran : List (Action × ℕ)) :
    sections ((a, n) :: ran) = a.locked.toList ++ sections ran := by
  cases h : a.locked <;> simp [sections, h]

theorem sections_append (ran ran' : List (Action × ℕ)) :
    sections (ran ++ ran') = sections ran ++ sections ran' := List.filterMap_append

theorem brackets_append (names names' : List String) :
    brackets (names ++ names') = brackets names ++ brackets names' := List.flatMap_append

theorem sections_eval {p : Prog Action Test} (hp : p.All fun a => a.locked = none)
    (s : Shell.State (List (Action × ℕ))) :
    sections (eval (oracle ω b) p s).store = sections s.store := by
  refine eval_invariant (oracle ω b) (I := fun ran => sections ran = sections s.store)
    ?_ hp rfl
  intro a ran ha hran
  simp [oracle, sections_append, sections_cons, hran, ha]

theorem all_mapRun (p : Prog Cmd Test) : (p.map Action.run id).All fun a => a.locked = none :=
  (all_map Action.run id _ p).mpr (all_of_forall (fun _ => rfl) p)

/-- A line goes through the steps at its front, all of them if it does not leave the
shell. -/
structure Passed (b : Test → Bool) (l : Line) (s t : Shell.State (List (Action × ℕ)))
    (names : List String) : Prop where
  sections : sections t.store = sections s.store ++ brackets names
  front : names <+: l.steps b
  all : t.exited = false → names = l.steps b

theorem passed_step (name : String) (body : Prog Cmd Test)
    {s : Shell.State (List (Action × ℕ))} (hs : s.exited = false) :
    Passed b (.step name body) s (eval (oracle ω b) ((Line.step name body).expand .quiet) s)
      [name] := by
  have hall : (redirected name (body.map Action.run id)).All fun a => a.locked = none :=
    ⟨rfl, all_mapRun body⟩
  have hbody := sections_eval (ω := ω) (b := b) hall (announced ω name s)
  have hannounced : sections (announced ω name s).store = sections s.store ++ [.enter name] := by
    simp [announced, sections_append, sections_cons, Action.locked]
  refine ⟨?_, List.prefix_refl _, fun _ => rfl⟩
  rw [Line.expand, eval_wrap_quiet name _ hs, reported]
  generalize eval (oracle ω b) _ (announced ω name s) = u at hbody ⊢
  rw [hannounced] at hbody
  split <;> simp [sections_append, hbody, brackets, sections_cons, Action.locked]

theorem passed_line (l : Line) {s : Shell.State (List (Action × ℕ))} (hs : s.exited = false) :
    ∃ names, Passed b l s (eval (oracle ω b) (l.expand .quiet) s) names := by
  induction l generalizing s with
  | plain p => exact ⟨[], by simp [Line.expand, sections_eval (all_mapRun p), brackets],
      List.nil_prefix, fun _ => rfl⟩
  | step name body => exact ⟨[name], passed_step name body hs⟩
  | seq p q ihp ihq =>
      obtain ⟨names, hp⟩ := ihp hs
      rw [Line.expand, eval]
      by_cases hx : (eval (oracle ω b) (p.expand .quiet) s).exited = true
      · rw [if_pos hx]
        refine ⟨names, hp.sections, hp.front.trans (List.prefix_append _ _), fun hx' => ?_⟩
        simp [hx] at hx'
      · rw [if_neg hx]
        rw [Bool.not_eq_true] at hx
        obtain ⟨names', hq⟩ := ihq hx
        obtain rfl := hp.all hx
        refine ⟨p.steps b ++ names', ?_, ?_, fun hx' => by rw [hq.all hx', Line.steps]⟩
        · rw [hq.sections, hp.sections, brackets_append, List.append_assoc]
        · exact List.prefix_append_right_inj _ |>.mpr hq.front
  | cond t p q ihp ihq =>
      rw [Line.expand, eval]
      cases h : b t with
      | true =>
          obtain ⟨names, hp⟩ := ihp hs
          refine ⟨names, ?_, ?_, ?_⟩
          · simpa [oracle, h] using hp.sections
          · simpa [Line.steps, h] using hp.front
          · simpa [Line.steps, oracle, h] using hp.all
      | false =>
          obtain ⟨names, hq⟩ := ihq hs
          refine ⟨names, ?_, ?_, ?_⟩
          · simpa [oracle, h] using hq.sections
          · simpa [Line.steps, h] using hq.front
          · simpa [Line.steps, oracle, h] using hq.all
  | stamp =>
      refine ⟨[], ?_, List.nil_prefix, fun _ => rfl⟩
      simp [Line.expand, eval, oracle, sections_append, sections_cons, Action.locked, brackets]

/-- The lines of a recipe go through the steps at their front, all of them if they
end with status 0. -/
theorem sections_runLines {ls : List Line} (hls : ∀ l ∈ ls, l.Guarded)
    (ran : List (Action × ℕ)) :
    ∃ names, sections (runLines (oracle ω b) .quiet ls ran).2 =
        sections ran ++ brackets names ∧
      names <+: ls.flatMap (·.steps b) ∧
      ((runLines (oracle ω b) .quiet ls ran).1 = 0 → names = ls.flatMap (·.steps b)) := by
  induction ls generalizing ran with
  | nil => exact ⟨[], by simp [runLines, brackets], List.nil_prefix, fun _ => rfl⟩
  | cons l ls ih =>
      obtain ⟨hl, hls⟩ := List.forall_mem_cons.mp hls
      have hspec := Line.spec .quiet b ω hl (s := { store := ran }) rfl
      obtain ⟨names, hnames⟩ := passed_line (ω := ω) (b := b) l (s := { store := ran }) rfl
      rw [runLines_cons]
      by_cases h0 : (start (oracle ω b) (l.expand .quiet) ran).status = 0
      · rw [if_pos h0]
        have hguards := (hspec.status.mp h0).subset (guards_subset_decisive l)
        have hx : (eval (oracle ω b) (l.expand .quiet) { store := ran }).exited = false := by
          rw [Bool.eq_false_iff]
          exact fun hx => hspec.exited.mp hx hguards
        obtain rfl := hnames.all hx
        obtain ⟨names', hsections, hfront, hall⟩ :=
          ih hls (start (oracle ω b) (l.expand .quiet) ran).store
        refine ⟨l.steps b ++ names', ?_, ?_, fun h => by rw [hall h, List.flatMap_cons]⟩
        · rw [hsections, start, hnames.sections, brackets_append, List.append_assoc]
        · rw [List.flatMap_cons]
          exact List.prefix_append_right_inj _ |>.mpr hfront
      · rw [if_neg h0]
        exact ⟨names, hnames.sections, hnames.front.trans (by simp), fun h => absurd h h0⟩

end Sections

end Recipe

end AmigaGcc
