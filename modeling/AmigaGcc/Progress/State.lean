import AmigaGcc.Library.Text.Grep
import AmigaGcc.Library.Transition

/-!
# The list of running steps

In a quiet build `L1` appends the line of a step to `.state` and `L2` takes it
out again with `grep -v "$$__p"`, both under the lock `.lock`. The pattern is
the name of the step, so `grep` takes out every line the name occurs in. On top
of that each parse of the Makefile removes `.state`, unless `sdk` is set; this
includes the recursive makes of a build.

Both files are those of the directory that the shell is in. This is the one of
the Makefile for all steps but those of lha, which come after a `cd`.

`state_accurate_iff` says when the list is right: nothing must be left in it from
another make, each step must be logged in the directory of the Makefile, a step that
ends must not occur in the line of another running step, and a make without `sdk` must
not be parsed while a step is running.
-/

namespace AmigaGcc

namespace Progress

open Library Library.Text

/-- The directory a shell is in. -/
inductive Place where
  /-- the one of the Makefile -/
  | top
  | below (path : Chars)
  deriving DecidableEq

/-- The name of a step, as it is bound to `__p`, and where it is logged. The names of the
Makefile have no character that is special to `grep` but the dot. -/
structure Step where
  name : Chars
  place : Place
  dotted : Dotted name
  deriving DecidableEq

/-- The line `echo -e \\033[33m$$__p...\\033[0m` writes. -/
def Step.line (p : Step) : Chars :=
  "\x1b[33m".toList ++ (p.name ++ "...\x1b[0m".toList)

/-- The files `.state` of the directories, where there is one, and the steps that have
started and not ended, in the order of their start. -/
structure Log where
  files : Place → Option (List Chars)
  running : List Step

/-- The lines of a `.state`; a missing file counts as an empty one. -/
def Log.linesIn (s : Log) (d : Place) : List Chars := (s.files d).getD []

def Log.lines (s : Log) : List Chars := s.linesIn .top

inductive Event where
  /-- `L1` of a step -/
  | start (p : Step)
  /-- `L2` of a step -/
  | finish (p : Step)
  /-- a make reads the Makefile, with the variable `sdk` set or not -/
  | parse (sdk : Bool)

def parsed (sdk : Bool) (files : Place → Option (List Chars)) : Place → Option (List Chars) :=
  if sdk then files else Function.update files .top none

/-- The top make has read the Makefile. It has found the files that another make left. -/
def Log.initial (sdk : Bool) (left : Place → Option (List Chars)) : Log := ⟨parsed sdk left, []⟩

/-- One section under `.lock`, or one parse. -/
def Log.step (s : Log) : Event → Option Log
  | .start p =>
      some ⟨Function.update s.files p.place (some (s.linesIn p.place ++ [p.line])),
        s.running ++ [p]⟩
  | .finish p =>
      -- `grep -v "$$__p" .state >.state0; mv .state0 .state`
      if p ∈ s.running then
        some ⟨Function.update s.files p.place
            (some ((s.linesIn p.place).filter fun l => !occurs p.name l)),
          s.running.erase p⟩
      else none
  | .parse sdk => some ⟨parsed sdk s.files, s.running⟩

/-- `.state` lists the running steps, each as often as it is running. -/
def Log.Accurate (s : Log) : Prop :=
  s.lines.Perm (s.running.map Step.line)

/-- What a step must find: it is logged in the directory of the Makefile, the name of a
step that ends occurs in no line of another running step, and nothing is running when a
make without `sdk` is parsed. -/
def Log.Undisturbed (s : Log) : Event → Prop
  | .start p => p.place = .top
  | .finish p => p.place = .top ∧ ∀ q ∈ s.running.erase p, occurs p.name q.line = false
  | .parse sdk => sdk = true ∨ s.running = []

theorem Step.occurs_line (p : Step) : occurs p.name p.line = true :=
  occurs_append p.name _ _

/-- A filter that drops the first of some lines keeps the others exactly when it
accepts them all. -/
theorem filter_perm_tail_iff {α : Type*} {l t : List α} {a : α} {f : α → Bool}
    (h : l.Perm (a :: t)) (ha : f a = false) : (l.filter f).Perm t ↔ ∀ b ∈ t, f b = true := by
  have hfilter : (l.filter f).Perm (t.filter f) := by
    simpa [ha] using h.filter f
  constructor
  · intro hperm
    have hlen : (t.filter f).length = t.length := (hfilter.symm.trans hperm).length_eq
    exact List.length_filter_eq_length_iff.mp hlen
  · intro hall
    rwa [List.filter_eq_self.mpr hall] at hfilter

theorem accurate_initial_iff (sdk : Bool) (left : Place → Option (List Chars)) :
    (Log.initial sdk left).Accurate ↔ (sdk = true → (left .top).getD [] = []) := by
  cases sdk <;> simp [Log.initial, Log.Accurate, Log.lines, Log.linesIn, parsed]

section Step

variable {s t : Log} {p : Step}

theorem lines_of_start (ht : s.step (.start p) = some t) :
    t.running = s.running ++ [p] ∧
      t.lines = if p.place = .top then s.lines ++ [p.line] else s.lines := by
  obtain rfl := Option.some.inj ht
  refine ⟨rfl, ?_⟩
  by_cases hp : p.place = .top
  · simp [Log.lines, Log.linesIn, hp]
  · simp [Log.lines, Log.linesIn, hp, Function.update_of_ne (Ne.symm hp)]

theorem lines_of_finish (ht : s.step (.finish p) = some t) :
    p ∈ s.running ∧ t.running = s.running.erase p ∧
      t.lines = if p.place = .top then s.lines.filter fun l => !occurs p.name l else s.lines := by
  simp only [Log.step] at ht
  split at ht
  · next hmem =>
      obtain rfl := Option.some.inj ht
      refine ⟨hmem, rfl, ?_⟩
      by_cases hp : p.place = .top
      · simp [Log.lines, Log.linesIn, hp]
      · simp [Log.lines, Log.linesIn, hp, Function.update_of_ne (Ne.symm hp)]
  · cases ht

end Step

theorem accurate_step_iff {s t : Log} {e : Event} (hs : s.Accurate)
    (ht : s.step e = some t) : t.Accurate ↔ s.Undisturbed e := by
  have hlen : s.lines.length = s.running.length := by
    rw [hs.length_eq, List.length_map]
  cases e with
  | start p =>
      obtain ⟨hrunning, hlines⟩ := lines_of_start ht
      rw [Log.Accurate, hrunning, hlines, Log.Undisturbed]
      split
      · next hp => exact iff_of_true (by simpa using hs.append_right [p.line]) hp
      · next hp =>
          -- the step is running, and the list is as it was
          refine iff_of_false (fun hperm => ?_) hp
          have hlength := hperm.length_eq
          simp [hlen] at hlength
  | finish p =>
      obtain ⟨hmem, hrunning, hlines⟩ := lines_of_finish ht
      rw [Log.Accurate, hrunning, hlines, Log.Undisturbed]
      split
      · next hp =>
          have hrun : s.lines.Perm (p.line :: (s.running.erase p).map Step.line) :=
            hs.trans ((List.perm_cons_erase hmem).map Step.line)
          have hself : (!occurs p.name p.line) = false := by rw [p.occurs_line]; rfl
          apply (filter_perm_tail_iff hrun hself).trans
          simp [hp]
      · next hp =>
          refine iff_of_false (fun hperm => ?_) fun h => hp h.1
          have hlength := hperm.length_eq
          have hpos := List.length_pos_of_mem hmem
          rw [List.length_map, List.length_erase_of_mem hmem, hlen] at hlength
          omega
  | parse sdk =>
      obtain rfl := Option.some.inj ht
      cases sdk with
      | true => exact ⟨fun _ => Or.inl rfl, fun _ => hs⟩
      | false => simp [Log.Accurate, Log.lines, Log.linesIn, parsed, Log.Undisturbed]

/-- For any recipes side by side and every order of their sections and of the parses,
whatever another make has left, `.state` is right in every state exactly when it is at
first and no step of the run is disturbed. -/
theorem state_accurate_iff (sdk : Bool) (left : Place → Option (List Chars))
    (es : List Event) :
    Transition.Always Log.step Log.Accurate (Log.initial sdk left) es ↔
      (sdk = true → (left .top).getD [] = []) ∧
        Transition.Throughout Log.step Log.Undisturbed (Log.initial sdk left) es := by
  have hrun : (Log.initial sdk left).Accurate →
      (Transition.Always Log.step Log.Accurate (Log.initial sdk left) es ↔
        Transition.Throughout Log.step Log.Undisturbed (Log.initial sdk left) es) := fun h =>
    Transition.always_iff_throughout (I := fun _ => True) (fun _ _ _ _ _ => trivial)
      (fun _ _ _ _ hs ht => accurate_step_iff hs ht) trivial h es
  rw [← accurate_initial_iff sdk left]
  exact ⟨fun h => ⟨h.head, (hrun h.head).mp h⟩, fun h => (hrun h.1).mpr h.2⟩

def downloadKick13 : Step := ⟨"downloading vbcc_target13".toList, .top, by decide⟩

def downloadAmigaos : Step := ⟨"downloading vbcc_target".toList, .top, by decide⟩

/-- The two downloads for vbcc run side by side. When the second one ends, the
first one is still running and no longer listed. -/
theorem state_loses_download :
    ∃ t, Transition.run Log.step (Log.initial false fun _ => none)
        [.start downloadKick13, .start downloadAmigaos, .finish downloadAmigaos] = some t ∧
      t.running = [downloadKick13] ∧ t.lines = [] ∧ ¬ t.Accurate := by
  refine ⟨_, rfl, by decide, by decide, ?_⟩
  exact fun h => absurd h.length_eq (by decide)

end Progress

end AmigaGcc
