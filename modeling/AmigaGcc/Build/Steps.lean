import AmigaGcc.Build.Graph
import AmigaGcc.Library.Make.Watch
import AmigaGcc.Library.Text.Codes
import AmigaGcc.Progress.State
import AmigaGcc.Recipe.Sections

/-!
# The steps of the recipes

The recipes log their steps in `.state`. What the recipe of a target sends there is
read off its lines: `Listing.script` is made of the sections of some of its steps,
each left before the next one is entered (`script_spec`).

`grep -v` takes the line of a step out of the list, and with it every line that the
name occurs in. `meets_of_occurs` says between which recipes that can happen.
-/

namespace AmigaGcc

namespace Build

open Library Make Text Transition Shell

open Recipe hiding Log run

open Progress (Log)

open Target (rule source)

/-! ## The names of the steps -/

/-- The text with `$(name)` replaced by its value. The name that is being read comes
first. -/
def expand (value : Chars → Chars) : Option Chars → Chars → Chars
  | none, '$' :: '(' :: l => expand value (some []) l
  | none, c :: l => c :: expand value none l
  | none, [] => []
  | some name, ')' :: l => value name ++ expand value none l
  | some name, c :: l => expand value (some (name ++ [c])) l
  | some _, [] => []

/-- The variables in the names of the steps; `$(@F)` and `$(sdk)` depend on what is
made. -/
def value (subject name : Chars) : Chars :=
  if name = "@F".toList ∨ name = "sdk".toList then subject
  else if name = "NDK_ARC_NAME".toList then "NDK3.2".toList
  else if name = "ZLIB".toList then "zlib-1.2.13".toList
  else if name = "LIBPNG".toList then "libpng-1.6.39".toList
  else if name = "LIBFREETYPE".toList then "freetype-2.12.1".toList
  else if name = "LIBSDLMIXER".toList then "SDL_mixer-SDL-1.2".toList
  else if name = "LIBSDLTTF".toList then "SDL_ttf-SDL-1.2".toList
  else []

def Name.steps (n : Name) : List String := n.rule.steps (fun _ => 0) fun _ => true

namespace Listing

variable (w : Listing)

/-- The file or the SDK that the names of the steps tell. -/
def subject : Target → Chars
  | rule .ndkIncludeInlineHeader stem | rule .ndkIncludeProtoHeader stem =>
      stem.toList ++ ".h".toList
  | rule .ndkIncludeInlineVbcc stem => stem.toList ++ "_protos.h".toList
  | rule .ndkIncludeLvoFile stem => stem.toList ++ "_lib.i".toList
  | rule .makeSdk _ => w.sdk.toList
  | _ => []

def stepName (t : Target) (p : String) : Chars := expand (value (w.subject t)) none p.toList

/-- Where the recipe is when it logs a step: the one shell of `_lha_done` has changed its
directory by then. -/
def place : Target → String → Progress.Place
  | rule .lhaDone _, p => .below (if p = "clone lha" then "$(BUILD)" else "$(BUILD)/lha").toList
  | _, _ => .top

/-- A step, if `grep` reads its name as `Progress` says. -/
def label (t : Target) (p : String) : Option Progress.Step :=
  if h : Dotted (w.stepName t p) then some ⟨w.stepName t p, place t p, h⟩ else none

def event (t : Target) : Section → Option Progress.Event
  | .enter p => (w.label t p).map .start
  | .leave p => (w.label t p).map .finish

def labels : Target → List Progress.Step
  | rule n stem => n.steps.filterMap (w.label (rule n stem))
  | source _ _ => []

end Listing

/-- How the actions of a recipe end, how its tests are answered and how many rounds
its loops make. -/
structure Course where
  status : Action → ℕ
  test : Test → Bool
  rounds : Rounds

/-- The status of the recipe, and what it sends to `.state`. What a recursive make
sends is not part of it. -/
def Listing.script (w : Listing) : Target → Course → ℕ × List Progress.Event
  | rule n stem, i =>
      let (status, ran) := runLines (oracle i.status i.test) .quiet (n.rule.lines i.rounds) []
      (status, (sections ran).filterMap (w.event (rule n stem)))
  -- no rule to make the target
  | source _ _, _ => (2, [])

def passes (l : List Progress.Step) : List Progress.Event :=
  l.flatMap fun p => [.start p, .finish p]

theorem filterMap_brackets (w : Listing) (t : Target) (names : List String) :
    (brackets names).filterMap (w.event t) = passes (names.filterMap (w.label t)) := by
  induction names with
  | nil => rfl
  | cons p names ih =>
      rw [brackets] at ih
      cases h : w.label t p <;> simp [brackets, passes, Listing.event, h] at ih ⊢ <;> exact ih

theorem run_passes (l : List Progress.Step) (x : Log) :
    ∃ y, run Log.step x (passes l) = some y := by
  induction l generalizing x with
  | nil => exact ⟨x, rfl⟩
  | cons p l ih =>
      obtain ⟨y, hy⟩ : ∃ y, run Log.step x [.start p, .finish p] = some y := by
        simp [run, Log.step]
      obtain ⟨z, hz⟩ := ih y
      refine ⟨z, ?_⟩
      rw [passes, List.flatMap_cons, run_append, hy]
      exact hz

namespace Name

theorem steps_subset (n : Name) (r : Rounds) (b : Test → Bool) : n.rule.steps r b ⊆ n.steps := by
  cases n
  case lhaDone =>
    have hsteps : lhaDone.rule.steps r b = if b lhaMissing then lhaDone.steps else [] := by
      cases hb : b lhaMissing <;>
        simp [Name.rule, Name.steps, Rule.steps, Stamped.rule, Recipe.lhaDone, lhaLine,
          Line.steps, hb, buildLha, installLha, Line.chain, line]
    rw [hsteps]
    split <;> simp
  case newlibMakefile =>
    intro p hp
    have hmem : p ∈ if b (.holds "[ ! -f \"$(BUILD)/newlib/newlib/Makefile\" ]") then
        ["configure newlib"] else [] := by
      simpa [Name.rule, Rule.steps, Recipe.newlibMakefile, Line.steps, line] using hp
    split at hmem
    · exact hmem
    · cases hmem
  all_goals exact List.Subset.refl _

end Name

/-- A recipe passes some of its steps, one after the other. -/
theorem script_spec (w : Listing) (t : Target) (i : Course) :
    ∃ l, (w.script t i).2 = passes l ∧ l ⊆ w.labels t := by
  cases t with
  | source l path => exact ⟨[], rfl, List.nil_subset _⟩
  | rule n stem =>
      obtain ⟨names, hsections, hfront, -⟩ := sections_runLines (ω := i.status) (b := i.test)
        (n.rule.guarded i.rounds) []
      refine ⟨names.filterMap (w.label (rule n stem)), ?_, ?_⟩
      · simp only [Listing.script, hsections, sections_nil, List.nil_append, filterMap_brackets]
      · exact List.filterMap_subset _
          (List.Subset.trans hfront.subset (n.steps_subset i.rounds i.test))

def smooth : Course := ⟨fun _ => 0, fun _ => true, fun _ => 0⟩

theorem script_smooth (w : Listing) (n : Name) (stem : String) :
    w.script (rule n stem) smooth = (0, passes (w.labels (rule n stem))) := by
  obtain ⟨names, hsections, -, hall⟩ := sections_runLines (ω := smooth.status) (b := smooth.test)
    (n.rule.guarded smooth.rounds) []
  have hstatus : (runLines (oracle smooth.status smooth.test) .quiet
      (n.rule.lines smooth.rounds) []).1 = 0 :=
    (runLines_status_iff (n.rule.guarded smooth.rounds) []).mpr fun _ _ => rfl
  obtain rfl := hall hstatus
  simp only [Listing.script, hsections, hstatus, sections_nil, List.nil_append,
    filterMap_brackets]
  rfl

/-! ## Which steps disturb each other -/

namespace Name

/-- The rules that do not wait for the includes of the NDK. -/
def early : List Name := all.filter fun n => decide (¬ fixed.Needs n ndkIncludeNdk0)

def Meets (n m x y : Name) : Prop :=
  (fixed.Needs n x ∧ fixed.Needs m y) ∨ (fixed.Needs n y ∧ fixed.Needs m x)

instance (n m x y : Name) : Decidable (Meets n m x y) := inferInstanceAs (Decidable (_ ∨ _))

theorem mem_early {n : Name} (h : ¬ fixed.Needs n ndkIncludeNdk0) : n ∈ early :=
  List.mem_filter.mpr ⟨n.mem_all, by simpa using h⟩

theorem subject_of_early (w : Listing) {n : Name} (h : n ∈ early) (stem : String) :
    w.subject (.rule n stem) = [] := by
  cases n
  case makeSdk | ndkIncludeInlineHeader | ndkIncludeInlineVbcc | ndkIncludeLvoFile
      | ndkIncludeProtoHeader =>
    exact absurd h (by decide +kernel)
  all_goals rfl

theorem members_of_early (w : Listing) {n : Name} (h : n ∈ early) : n.members w = [""] := by
  have hplain : ∀ n ∈ early, n.header = false ∧ n ≠ makeSdks := by decide +kernel
  exact members_eq (hplain n h).1 (hplain n h).2 w

theorem meets_of_occurs {n m : Name} (hn : n ∈ early) (hm : m ∈ early) {p q : String}
    (hp : p ∈ n.steps) (hq : q ∈ m.steps)
    (hoccurs : occurs (expand (value []) none p.toList) ("\x1b[33m".toList ++
      (expand (value []) none q.toList ++ "...\x1b[0m".toList)) = true) :
    n = m ∨ fixed.Needs n m ∨ fixed.Needs m n ∨ Meets n m fd2sfd fd2pragmaBuild ∨
      Meets n m vbccTargetKick13Done vbccTargetAmigaosDone ∨
      n = vbccTargetAmigaosLha ∧ m = vbccTargetKick13Lha := by
  let texts := early.flatMap fun n => n.steps.map fun p => (n, expand (value []) none p.toList)
  have hmem : ∀ {n p}, n ∈ early → p ∈ n.steps → (n, expand (value []) none p.toList) ∈ texts :=
    fun hn hp => List.mem_flatMap.mpr ⟨_, hn, List.mem_map.mpr ⟨_, hp, rfl⟩⟩
  have hok := occurs_of_forcing texts "\x1b[33m".toList "...\x1b[0m".toList
    (fun n m => decide (n = m ∨ fixed.Needs n m ∨ fixed.Needs m n ∨
      Meets n m fd2sfd fd2pragmaBuild ∨ Meets n m vbccTargetKick13Done vbccTargetAmigaosDone ∨
      n = vbccTargetAmigaosLha ∧ m = vbccTargetKick13Lha))
    (by decide +kernel) (hmem hn hp) (hmem hm hq) hoccurs
  exact of_decide_eq_true hok

end Name

end Build

end AmigaGcc
