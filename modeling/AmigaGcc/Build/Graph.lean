import AmigaGcc.Build.Name
import AmigaGcc.Library.Make.Rebuild
import AmigaGcc.Library.Make.Schedule

/-!
# The targets of the Makefile

A rule has one target, except for the headers that `sfdc` makes, one for each
`.sfd` file, and the goals in `$(SDKS)`, one for each SDK. What `find` prints is
not known beforehand: it is the `Listing` that make works with. `graph w` are the
rules for the listing `w`, and what a target needs there is what its rule needs
(`depends_name`).
-/

namespace AmigaGcc

namespace Build

open Library Make Transition

inductive Target where
  | rule (n : Name) (stem : String)
  /-- a file that is listed and has no rule -/
  | source (l : Listed) (path : String)
  deriving DecidableEq, Repr

/-- What make finds when it reads the Makefile, and the variables it is given. -/
structure Listing where
  /-- the files below the directory of each list -/
  found : Listed → List String
  /-- the names before `_lib.sfd` of the files in `$(NDK_INCLUDE_SFD)` -/
  sfds : List String
  /-- `$(SDKS)` -/
  sdks : List String
  /-- `$(sdk)` -/
  sdk : String

namespace Name

/-- The targets of a rule. -/
def members (w : Listing) : Name → List String
  | ndkIncludeInlineHeader | ndkIncludeInlineVbcc | ndkIncludeLvoFile | ndkIncludeProtoHeader =>
      w.sfds
  | makeSdks => w.sdks
  | _ => [""]

def targets (w : Listing) (n : Name) : List Target := (n.members w).map (.rule n)

end Name

namespace Listed

/-- The file of a list that is the target of the clone, as it has been fetched when
it is found. -/
def clone : Listed → Option (String × Name)
  | binutils => some ("configure", .binutilsConfigure)
  | fd2sfd => some ("configure", .fd2sfdConfigure)
  | fd2pragma => some ("makefile", .fd2pragmaMakefile)
  | ira => some ("Makefile", .iraMakefile)
  | sfdc => some ("configure", .sfdcConfigure)
  | vasm => some ("Makefile", .vasmProject)
  | vbcc => some ("Makefile", .vbccProject)
  | vlink => some ("Makefile", .vlinkProject)
  | newlib => some ("configure", .newlibConfigure)
  | libnix => some ("Makefile.gcc6", .libnixMakefile)
  | libpthread => some ("Makefile", .arosStuffMakefile)
  | clib2 => some ("LICENSE", .clib2License)
  | libdebug => some ("configure", .libdebugConfigure)
  | libSDL12 => some ("Makefile", .libSDL12Project)
  -- `find` prints `$(PROJECTS)/gcc/./configure`, which is no target
  | gcc => none
  | gprof | vcConfig | ndkPatches | ndkInclude | ndkSfd | netinclude | libgcc => none

/-- The paths of a list; `patches/vc.config` is no pattern. -/
def paths (w : Listing) : Listed → List String
  | vcConfig => ["vc.config"]
  | ndkSfd => w.sfds.map (· ++ "_lib.sfd")
  | l => w.found l

def target (l : Listed) (path : String) : Target :=
  match l.clone with
  | some (file, n) => if path = file then .rule n "" else .source l path
  | none => .source l path

def targets (w : Listing) (l : Listed) : List Target := (l.paths w).map l.target

end Listed

namespace Target

def prereqs (w : Listing) : Target → List Target
  | rule n _ => n.prereqs.flatMap (Name.targets w) ++ n.finds.flatMap (Listed.targets w)
  | source _ _ => []

def name : Target → Option Name
  | rule n _ => some n
  | source _ _ => none

def phony : Target → Bool
  | rule n _ => n.phony
  | source _ _ => false

def made : Target → Bool
  | rule _ _ => true
  | source _ _ => false

def rank : Target → ℕ
  | rule n _ => n.ctorIdx + 1
  | source _ _ => 0

theorem clone_lt (n : Name) :
    ∀ l ∈ n.finds, ∀ c ∈ l.clone, c.2.ctorIdx < n.ctorIdx := by
  cases n <;> decide

theorem mem_prereqs_rule {w : Listing} {n : Name} (stem : String) {p : Target}
    (hp : p ∈ (rule n stem).prereqs w) :
    (∃ m ∈ n.prereqs, ∃ s ∈ m.members w, p = rule m s) ∨
      (∃ l ∈ n.finds, ∃ c ∈ l.clone, p = rule c.2 "") ∨
      ∃ l ∈ n.finds, ∃ path, p = source l path := by
  rcases List.mem_append.mp hp with hp | hp
  · obtain ⟨m, hm, hp⟩ := List.mem_flatMap.mp hp
    obtain ⟨s, hs, rfl⟩ := List.mem_map.mp hp
    exact .inl ⟨m, hm, s, hs, rfl⟩
  · obtain ⟨l, hl, hp⟩ := List.mem_flatMap.mp hp
    obtain ⟨path, -, rfl⟩ := List.mem_map.mp hp
    rw [Listed.target]
    split
    · next file m hclone =>
        split
        · exact .inr (.inl ⟨l, hl, _, hclone, rfl⟩)
        · exact .inr (.inr ⟨l, hl, path, rfl⟩)
    · exact .inr (.inr ⟨l, hl, path, rfl⟩)

theorem rank_lt (w : Listing) (t : Target) : ∀ p ∈ t.prereqs w, p.rank < t.rank := by
  intro p hp
  cases t with
  | source l path => simp [prereqs] at hp
  | rule n stem =>
      rcases mem_prereqs_rule stem hp with
        ⟨m, hm, s, -, rfl⟩ | ⟨l, hl, c, hc, rfl⟩ | ⟨l, -, path, rfl⟩
      · exact Nat.succ_lt_succ (n.prereqs_lt m hm)
      · exact Nat.succ_lt_succ (clone_lt n l hl c hc)
      · exact Nat.succ_pos _

end Target

def graph (w : Listing) : Rules Target where
  prereqs := Target.prereqs w
  phony := Target.phony
  made := Target.made
  rank := Target.rank
  rank_lt := Target.rank_lt w

/-! ## Targets and rules -/

namespace Name

/-- The rules of the headers, with a target for each `.sfd` file. -/
def header : Name → Bool
  | ndkIncludeInlineHeader | ndkIncludeInlineVbcc | ndkIncludeLvoFile | ndkIncludeProtoHeader =>
      true
  | _ => false

theorem members_eq {n : Name} (h : n.header = false) (hn : n ≠ makeSdks) (w : Listing) :
    n.members w = [""] := by
  cases n <;> first | rfl | exact absurd rfl hn | cases h

theorem members_header {n : Name} (h : n.header = true) (w : Listing) : n.members w = w.sfds := by
  cases n <;> first | rfl | cases h

/-- The rules without the headers, as they are before the NDK is unpacked. -/
def fixed : Rules Name where
  prereqs := fun n => n.prereqs.filter (!·.header)
  phony := phony
  made := fun _ => true
  rank := Name.ctorIdx
  rank_lt := fun n p hp => prereqs_lt n p (List.mem_of_mem_filter hp)

theorem mem_fixed {n m : Name} : m ∈ fixed.prereqs n ↔ m ∈ n.prereqs ∧ m.header = false := by
  simp [fixed]

theorem depends_clone (n : Name) :
    ∀ l ∈ n.finds, ∀ c ∈ l.clone, c.2.header = false ∧ fixed.Depends n c.2 := by
  have hneeds : ∀ l ∈ n.finds, ∀ c ∈ l.clone,
      c.2.header = false ∧ fixed.Needs n c.2 ∧ n ≠ c.2 := by
    cases n <;> decide +kernel
  intro l hl c hc
  obtain ⟨hheader, hneeds, hne⟩ := hneeds l hl c hc
  exact ⟨hheader, hneeds.depends (Ne.symm hne)⟩

theorem ne_sdks (n : Name) (hn : n ≠ makeAllSdk) :
    ∀ m ∈ n.prereqs, m ≠ makeSdks ∧ m ≠ makeAllSdk := by
  revert hn
  cases n <;> decide

theorem rules_of_fixed {n m : Name} (h : fixed.Depends n m) : rules.Depends n m := by
  induction h with
  | single hp => exact Relation.TransGen.single (mem_fixed.mp hp).1
  | tail _ hp ih => exact ih.tail (mem_fixed.mp hp).1

end Name

open Target (rule source)

variable {w : Listing} {n m : Name} {s s' : String}

theorem mem_prereqs_of_mem (h : m ∈ n.prereqs) (hs : s' ∈ m.members w) (s : String) :
    rule m s' ∈ (graph w).prereqs (rule n s) :=
  List.mem_append_left _ (List.mem_flatMap.mpr ⟨m, h, List.mem_map_of_mem hs⟩)

theorem depends_name (h : (graph w).Depends (rule n s) (rule m s')) : Name.rules.Depends n m := by
  have hedge : ∀ t, ∀ p ∈ (graph w).prereqs t, ∀ b ∈ p.name, ∃ a ∈ t.name,
      Name.rules.Depends a b := by
    intro t p hp b hb
    cases t with
    | source l path => simp [graph, Target.prereqs] at hp
    | rule k s =>
        rcases Target.mem_prereqs_rule s hp with
          ⟨m, hm, s, -, rfl⟩ | ⟨l, hl, c, hc, rfl⟩ | ⟨l, -, path, rfl⟩
        · obtain rfl := Option.some.inj hb
          exact ⟨k, rfl, Relation.TransGen.single hm⟩
        · obtain rfl := Option.some.inj hb
          exact ⟨k, rfl, Name.rules_of_fixed (k.depends_clone l hl c hc).2⟩
        · cases hb
  obtain ⟨k, hk, hdep⟩ := h.project hedge m rfl
  exact Option.some.inj hk ▸ hdep

/-- Before the NDK is unpacked no header stands between two rules. -/
theorem fixed_of_depends (hw : w.sfds = [])
    (h : (graph w).Depends (rule n s) (rule m s')) : Name.fixed.Depends n m := by
  have hedge : ∀ t, ∀ p ∈ (graph w).prereqs t, ∀ b ∈ p.name, ∃ a ∈ t.name,
      Name.fixed.Depends a b := by
    intro t p hp b hb
    cases t with
    | source l path => simp [graph, Target.prereqs] at hp
    | rule k s =>
        rcases Target.mem_prereqs_rule s hp with
          ⟨m, hm, s, hs, rfl⟩ | ⟨l, hl, c, hc, rfl⟩ | ⟨l, -, path, rfl⟩
        · obtain rfl := Option.some.inj hb
          have hheader : m.header = false := by
            by_contra hne
            simp [Name.members_header (by simpa using hne), hw] at hs
          exact ⟨k, rfl, Relation.TransGen.single (Name.mem_fixed.mpr ⟨hm, hheader⟩)⟩
        · obtain rfl := Option.some.inj hb
          exact ⟨k, rfl, (k.depends_clone l hl c hc).2⟩
        · cases hb
  obtain ⟨k, hk, hdep⟩ := h.project hedge m rfl
  exact Option.some.inj hk ▸ hdep

theorem members_of_mem_fixed (hn : n ≠ .makeAllSdk) (hm : m ∈ Name.fixed.prereqs n)
    (w : Listing) : m ≠ .makeAllSdk ∧ m.members w = [""] := by
  obtain ⟨hm, hheader⟩ := Name.mem_fixed.mp hm
  obtain ⟨hsdks, hall⟩ := n.ne_sdks hn m hm
  exact ⟨hall, Name.members_eq hheader hsdks w⟩

theorem members_of_fixed (hn : n ≠ .makeAllSdk) (h : Name.fixed.Depends n m) (w : Listing) :
    m ≠ .makeAllSdk ∧ m.members w = [""] := by
  induction h with
  | single hm => exact members_of_mem_fixed hn hm w
  | tail _ hm ih => exact members_of_mem_fixed ih.1 hm w

theorem depends_of_fixed (hn : n ≠ .makeAllSdk) (h : Name.fixed.Depends n m) (w : Listing)
    (s : String) : (graph w).Depends (rule n s) (rule m "") := by
  have hmem : ∀ {k m}, k ≠ .makeAllSdk → m ∈ Name.fixed.prereqs k → ∀ s,
      rule m "" ∈ (graph w).prereqs (rule k s) := by
    intro k m hk hm s
    refine mem_prereqs_of_mem (Name.mem_fixed.mp hm).1 ?_ s
    rw [(members_of_mem_fixed hk hm w).2]
    exact List.mem_singleton_self _
  induction h with
  | single hm => exact Relation.TransGen.single (hmem hn hm s)
  | tail hdep hm ih => exact ih.tail (hmem (members_of_fixed hn hdep w).1 hm "")

/-! ## Goals -/

def Target.Listed (w : Listing) : Target → Prop
  | rule n stem => stem ∈ n.members w
  | source _ _ => True

structure Goals (w : Listing) where
  targets : List Target
  listed : ∀ t ∈ targets, t.Listed w

section Goals

variable {g : Goals w}

theorem listed_prereq {t p : Target} (h : p ∈ (graph w).prereqs t) : p.Listed w := by
  cases t with
  | source l path => simp [graph, Target.prereqs] at h
  | rule n stem =>
      rcases Target.mem_prereqs_rule stem h with
        ⟨m, -, s, hs, rfl⟩ | ⟨l, hl, c, hc, rfl⟩ | ⟨l, -, path, rfl⟩
      · exact hs
      · have hclone : ∀ l : Listed, ∀ c ∈ l.clone, c.2 ≠ Name.makeSdks := by
          intro l
          cases l <;> decide
        rw [Target.Listed, Name.members_eq (n.depends_clone l hl c hc).1 (hclone l c hc)]
        exact List.mem_singleton_self _
      · trivial

theorem Goals.listed_of_wanted {t : Target}
    (h : (graph w).Wanted g.targets t) : t.Listed w := by
  obtain ⟨u, hu, hneeds⟩ := h
  exact hneeds.mem (fun _ _ _ hp => listed_prereq hp) (g.listed u hu)

theorem Goals.wanted_of_needs
    (h : (graph w).Wanted g.targets (rule n s)) (hn : n ≠ .makeAllSdk)
    (hm : m.members w = [""]) (hneeds : Name.fixed.Needs n m) :
    (graph w).Wanted g.targets (rule m "") := by
  rcases Rules.needs_iff.mp hneeds with rfl | hdep
  · have hs : s ∈ m.members w := g.listed_of_wanted h
    rw [hm, List.mem_singleton] at hs
    exact hs ▸ h
  · exact h.of_needs (depends_of_fixed hn hdep w s).needs

end Goals

def Goals.Need (g : Goals w) (n m : Name) : Prop :=
  (graph w).Wanted g.targets (rule n "") ∧ (graph w).Wanted g.targets (rule m "")

def checkout : Files Target
  | rule _ _ => none
  | source _ _ => some 0

theorem not_outdated_source (w : Listing) (t : Target) (ht : (graph w).made t = false) :
    (graph w).prereqs t = [] ∧ ¬ Outdated (graph w) checkout t := by
  cases t with
  | rule n s => cases ht
  | source l path => exact ⟨rfl, not_outdated_iff.mpr ⟨0, rfl, fun p hp => nomatch hp⟩⟩

/-- Two rules that do not wait for each other can run at the same time. -/
theorem exists_run_both {goals : List Target} (hne : n ≠ m)
    (hn : (graph w).Wanted goals (rule n s)) (hm : (graph w).Wanted goals (rule m s'))
    (hnm : ¬ (graph w).Depends (rule n s) (rule m s'))
    (hmn : ¬ (graph w).Depends (rule m s') (rule n s)) :
    ∃ es x, run (step (graph w) goals) (init checkout 0) es = some x ∧
      (∀ e ∈ es, e.Succeeds) ∧ x.phase (rule n s) = .running ∧
      x.phase (rule m s') = .running := by
  have hanti : ∀ t ∈ [rule n s, rule m s'], ∀ u ∈ [rule n s, rule m s'],
      ¬ (graph w).Depends t u := by
    simp only [List.forall_mem_cons, List.not_mem_nil, false_imp_iff, implies_true, and_true]
    exact ⟨⟨Rules.not_depends_self _, hnm⟩, hmn, Rules.not_depends_self _⟩
  obtain ⟨es, x, hrun, hok, hrunning, -⟩ := exists_run_running checkout 0
    (by simp [hne]) (by simpa using ⟨hn, hm⟩) hanti (by simp [checkout]) (not_outdated_source w)
  exact ⟨es, x, hrun, hok, hrunning _ (by simp), hrunning _ (by simp)⟩

end Build

end AmigaGcc
