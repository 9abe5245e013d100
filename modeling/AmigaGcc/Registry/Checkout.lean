import AmigaGcc.Library.Shell.Basic
import AmigaGcc.Registry.Branch

/-!
# Requests and checkouts

`make branch mod=M branch=B` writes the registry and then checks out `B` in
`projects/M`, if that is there. Here is the whole recipe, `recipe`; what it does to
`.repos` is `branch` (`store_repos`).

The commands of git come last and nothing heeds their statuses, so that the recipe
always succeeds. It does what it should when `git checkout` switches to the branch
(`allOrNothing_iff_sound`); that it succeeds is not enough, since it also takes the name
of a commit or a path. As long as every request is of this kind, and none takes away or
doubles the row of another module, the registry and the clones agree.
-/

namespace AmigaGcc

namespace Registry

open Library Library.Text Shell Shell.Prog

namespace Checkout

/-- A clone below `projects`: its branches, the one that is checked out (none, when it is
a commit) and the ones with an upstream. -/
structure Repository where
  branches : List Chars
  head : Option Chars
  tracked : List Chars
  deriving DecidableEq

structure Store where
  repos : List Chars
  /-- `.repos.bak` -/
  bak : Option (List Chars)
  /-- `$$url` -/
  url : Chars
  projects : Chars → Option Repository

/-- What `git checkout B` does. -/
inductive Outcome where
  /-- `B` is a branch, here or in `origin`. -/
  | switched
  /-- `B` is a tag or another commit, and no branch is checked out then. -/
  | detached
  /-- `B` is a path, whose files are restored, or an option. -/
  | stayed
  /-- It fails, with the status `n + 1`. -/
  | failed (n : ℕ)
  deriving DecidableEq, Repr

namespace Outcome

def status : Outcome → ℕ
  | .failed n => n + 1
  | _ => 0

/-- What is checked out then. -/
def head (B : Chars) : Outcome → Option Chars → Option Chars
  | .switched, _ => some B
  | .detached, _ => none
  | .stayed, h | .failed _, h => h

end Outcome

structure Attempt extends Request where
  fetch : ℕ
  checkout : Outcome
  setUpstream : ℕ

inductive Cmd where
  | echo
  /-- `url=$$(grep ..)` -/
  | lookup
  /-- `mv .repos .repos.bak` -/
  | backup
  /-- `grep -v $(mod) .repos.bak > .repos` -/
  | others
  /-- `echo .. >> .repos` -/
  | append
  | pushd
  | fetch
  | checkout
  | setUpstream
  | popd
  deriving DecidableEq, Repr

inductive Test where
  /-- `[ "" != "$(branch)" ] && [ "1" == "$$(grep -c $(mod) .repos)" ]` -/
  | one
  /-- `[ -d projects/$(mod) ]` -/
  | cloned
  deriving DecidableEq, Repr

/-- The commands for a module that has a clone. -/
def git : Prog Cmd Test :=
  chain [cmd .pushd, cmd .fetch, cmd .checkout, cmd .setUpstream, cmd .popd]

/-- The recipe of `branch`. -/
def recipe : Prog Cmd Test :=
  cond .one
    (chain [cmd .echo, cmd .lookup, cmd .backup, cmd .others, cmd .append,
      cond .cloned git skip])
    (cmd .echo)

/-- A command of git in the clone of a module: it does its work if it succeeds. -/
def Store.within (s : Store) (m : Chars) (status : ℕ) (f : Repository → Repository) :
    ℕ × Store :=
  (status,
    { s with projects := fun i => if i = m ∧ status = 0 then (s.projects i).map f
                                  else s.projects i })

def machine (g : Grep) (a : Attempt) : Machine Cmd Test Store where
  exec
    | .echo, s | .pushd, s | .popd, s => (0, s)
    | .lookup, s => (0, { s with url := capture (column g a.mod 2 s.repos) })
    | .backup, s => (0, { s with repos := [], bak := some s.repos })
    | .others, s =>
        let rest := (s.bak.getD []).filter fun l => !g.sel a.mod l
        (if rest = [] then 1 else 0, { s with repos := rest })
    | .append, s => (0, { s with repos := s.repos ++ [newRow a.mod s.url a.branch] })
    | .fetch, s =>
        s.within a.mod a.fetch fun r => { r with branches := r.branches.insert a.branch }
    | .checkout, s =>
        s.within a.mod a.checkout.status fun r =>
          { r with head := a.checkout.head a.branch r.head }
    | .setUpstream, s =>
        s.within a.mod a.setUpstream fun r => { r with tracked := r.tracked.insert a.branch }
  test
    | .one, s => a.branch ≠ [] ∧ s.repos.countP (g.sel a.mod) = 1
    | .cloned, s => (s.projects a.mod).isSome

/-- A run of the recipe. When the shell reads something else in the words, it ends in a
way of which nothing is known. -/
def request (g : Grep) (other : Attempt → Store → Shell.State Store) (a : Attempt)
    (s : Store) : Shell.State Store :=
  if a.Bare then start (machine g a) recipe s else other a s

/-! ## What a request leaves -/

section Request

variable (g : Grep) (a : Attempt) (s : Store)

def rewritten : Store :=
  { s with
    repos := branch g s.repos a.toRequest
    bak := some s.repos
    url := capture (column g a.mod 2 s.repos) }

variable {g a s} {other : Attempt → Store → Shell.State Store}

theorem request_of_one (hbare : a.Bare) (h : s.repos.countP (g.sel a.mod) = 1) :
    request g other a s =
      eval (machine g a) (cond .cloned git skip) { store := rewritten g a s, status := 0 } := by
  have hone : (machine g a).test .one s = true := decide_eq_true ⟨a.branch_word.1, h⟩
  have hrewritten : rewritten g a s =
      { s with
        repos := (s.repos.filter fun l => !g.sel a.mod l) ++
          [newRow a.mod (capture (column g a.mod 2 s.repos)) a.branch]
        bak := some s.repos
        url := capture (column g a.mod 2 s.repos) } := by
    rw [rewritten, branch, if_pos ⟨a.branch_word.1, h⟩]
  rw [request, if_pos hbare, start, recipe, eval, if_pos hone, hrewritten]
  rfl

theorem request_of_not_one (hbare : a.Bare) (h : s.repos.countP (g.sel a.mod) ≠ 1) :
    request g other a s = { store := s } := by
  have hone : (machine g a).test .one s = false := decide_eq_false fun hone => h hone.2
  rw [request, if_pos hbare, start, recipe, eval, if_neg (by simp [hone])]
  rfl

theorem head_of_failed {o : Outcome} (h : o.status ≠ 0) (B : Chars) (b : Option Chars) :
    o.head B b = b := by
  cases o with
  | failed n => rfl
  | switched | detached | stayed => exact absurd rfl h

theorem eval_git (t : Store) :
    (eval (machine g a) git { store := t }).status = 0 ∧
      (eval (machine g a) git { store := t }).store.repos = t.repos ∧
      ∀ i, ((eval (machine g a) git { store := t }).store.projects i).map Repository.head =
        (t.projects i).map fun r =>
          if i = a.mod then a.checkout.head a.branch r.head else r.head := by
  refine ⟨rfl, rfl, fun i => ?_⟩
  by_cases hi : i = a.mod
  · by_cases hc : a.checkout.status = 0
    · by_cases hf : a.fetch = 0 <;> by_cases hu : a.setUpstream = 0 <;>
        simp [git, eval, machine, Store.within, hi, hf, hc, hu, Function.comp_def]
    · have hstay := head_of_failed hc a.branch
      by_cases hf : a.fetch = 0 <;> by_cases hu : a.setUpstream = 0 <;>
        simp [git, eval, machine, Store.within, hi, hf, hc, hu, hstay, Function.comp_def]
  · simp [git, eval, machine, Store.within, hi]

/-- A request for a module whose row is found. -/
theorem request_spec (hbare : a.Bare) (h : s.repos.countP (g.sel a.mod) = 1) :
    (request g other a s).status = 0 ∧
      (request g other a s).store.repos = branch g s.repos a.toRequest ∧
      ∀ i, ((request g other a s).store.projects i).map Repository.head =
        (s.projects i).map fun r =>
          if i = a.mod then a.checkout.head a.branch r.head else r.head := by
  rw [request_of_one hbare h, eval]
  split
  · exact eval_git (rewritten g a s)
  · next hno =>
      have hnone : s.projects a.mod = none := by simpa [machine, rewritten] using hno
      refine ⟨rfl, rfl, fun i => ?_⟩
      by_cases hi : i = a.mod
      · subst hi
        simp [eval, rewritten, hnone]
      · simp [eval, rewritten, hi]

theorem store_repos (hbare : a.Bare) :
    (request g other a s).store.repos = branch g s.repos a.toRequest := by
  by_cases h : s.repos.countP (g.sel a.mod) = 1
  · exact (request_spec hbare h).2.1
  · rw [request_of_not_one hbare h, branch_eq_self g h]

end Request

/-! ## What is recorded -/

section Recorded

variable {g : Grep} {repos : List Chars} {r : Request}

/-- The URL in the row that is found, for the new row. -/
def foundUrl (g : Grep) (repos : List Chars) (r : Request) : Chars :=
  capture (column g r.mod 2 repos)

/-- The row that is found has a URL, and the pattern finds the new row again. -/
def Recordable (g : Grep) (repos : List Chars) (r : Request) : Prop :=
  foundUrl g repos r ≠ [] ∧ g.sel r.mod (newRow r.mod (foundUrl g repos r) r.branch) = true

theorem blank_of_mem_foundUrl (h : repos.countP (g.sel r.mod) = 1) {c : Char}
    (hc : c ∈ foundUrl g repos r) : blank c = false := by
  obtain ⟨l, hl⟩ := List.length_eq_one_iff.mp (List.countP_eq_length_filter.symm.trans h)
  have hmem : c ∈ column g r.mod 2 repos := (List.rdropWhile_prefix _ _).subset hc
  rw [column, hl] at hmem
  simp only [unlines, List.map_cons, List.map_nil, List.flatMap_cons, List.flatMap_nil,
    List.append_nil, List.mem_append, List.mem_singleton] at hmem
  rcases hmem with hcut | rfl
  · exact blank_of_mem_cut hcut
  · rfl

theorem filter_branch (h : repos.countP (g.sel r.mod) = 1) :
    (branch g repos r).filter (g.sel r.mod) =
      if g.sel r.mod (newRow r.mod (foundUrl g repos r) r.branch) then
        [newRow r.mod (foundUrl g repos r) r.branch]
      else [] := by
  have hnone : (repos.filter fun l => !g.sel r.mod l).filter (g.sel r.mod) = [] := by
    rw [List.filter_filter]
    simp
  rw [branch, if_pos ⟨r.branch_word.1, h⟩, List.filter_append, hnone, List.nil_append]
  rw [List.filter_singleton, Bool.cond_eq_ite]
  rfl

/-- The third field of the new row is the branch, if there is a URL in front of it. -/
theorem cut_three_newRow (h : repos.countP (g.sel r.mod) = 1) :
    cut 3 (squeeze (newRow r.mod (foundUrl g repos r) r.branch)) =
      if foundUrl g repos r = [] then [] else r.branch := by
  split
  · next hu =>
      have hgap : Gap [' ', ' '] := by decide
      have hrow : newRow r.mod [] r.branch = r.mod ++ ([' ', ' '] ++ (r.branch ++ [])) := by
        simp [newRow]
      have hspace : ∀ t ∈ [r.mod, r.branch], ' ' ∉ t := by
        intro t ht
        simp only [List.mem_cons, List.not_mem_nil, or_false] at ht
        rcases ht with rfl | rfl
        · exact r.mod_word.field.not_mem
        · exact r.branch_word.field.not_mem
      have hsplit := List.splitOn_intercalate ' ' hspace (List.cons_ne_nil _ _)
      have hline : [' '].intercalate [r.mod, r.branch] = r.mod ++ ' ' :: r.branch := by
        simp [List.intercalate]
      rw [hline] at hsplit
      rw [hu, hrow, squeeze, squeezeAfter_field_append r.mod_word.field,
        squeezeAfter_gap_append hgap, squeezeAfter_field_append r.branch_word.field,
        squeezeAfter, List.append_nil, cut, if_pos (by simp), hsplit]
      rfl
  · next hu =>
      have hfield : Field (foundUrl g repos r) := ⟨hu, fun c hc => blank_of_mem_foundUrl h hc⟩
      rw [newRow, squeeze_row r.mod_word.field hfield r.branch_word.field]
      exact cut_fields r.mod_word.field.not_mem hfield.not_mem r.branch_word.field.not_mem 3

theorem recorded_iff (h : repos.countP (g.sel r.mod) = 1) :
    repoBranch g r.mod (branch g repos r) = r.branch ↔ Recordable g repos r := by
  rw [repoBranch, column, filter_branch h, Recordable]
  split
  · next hsel =>
      rw [List.map_cons, List.map_nil, cut_three_newRow h]
      split
      · next hu =>
          have hempty : (capture (unlines [[]])).erase '\n' = [] := rfl
          rw [hempty]
          exact ⟨fun hb => absurd hb.symm r.branch_word.1, fun hr => absurd hu hr.1⟩
      · next hu =>
          have hnewline : '\n' ∉ r.branch := r.branch_word.not_mem (by decide)
          have hreturn : '\r' ∉ r.branch := r.branch_word.not_mem (by decide)
          rw [capture_line hnewline, List.erase_of_not_mem hnewline,
            List.erase_of_not_mem hreturn]
          exact ⟨fun _ => ⟨hu, hsel⟩, fun _ => rfl⟩
  · next hsel =>
      exact ⟨fun hb => absurd hb.symm r.branch_word.1, fun hr => absurd hr.2 hsel⟩

end Recorded

/-! ## One request -/

/-- A request succeeds with the branch recorded and checked out, or it fails and leaves
the registry alone. -/
structure AllOrNothing (g : Grep) (other : Attempt → Store → Shell.State Store) (s : Store)
    (a : Attempt) : Prop where
  done : (request g other a s).status = 0 →
    repoBranch g a.mod (request g other a s).store.repos = a.branch ∧
      ∀ r ∈ (request g other a s).store.projects a.mod, r.head = some a.branch
  undone : (request g other a s).status ≠ 0 → (request g other a s).store.repos = s.repos

/-- The branch can be recorded, and `git checkout` switches to it in the clone, or leaves
it checked out there. -/
def Sound (g : Grep) (s : Store) (a : Attempt) : Prop :=
  Recordable g s.repos a.toRequest ∧
    ∀ r ∈ s.projects a.mod,
      a.checkout = .switched ∨ a.checkout ≠ .detached ∧ r.head = some a.branch

section Sound

variable {g : Grep} {other : Attempt → Store → Shell.State Store} {s : Store} {a : Attempt}

theorem head_eq_iff (o : Outcome) (B : Chars) (b : Option Chars) :
    o.head B b = some B ↔ o = .switched ∨ o ≠ .detached ∧ b = some B := by
  cases o <;> simp [Outcome.head]

theorem checkedOut_iff (hbare : a.Bare) (h : s.repos.countP (g.sel a.mod) = 1) :
    (∀ r ∈ (request g other a s).store.projects a.mod, r.head = some a.branch) ↔
      ∀ r ∈ s.projects a.mod,
        a.checkout = .switched ∨ a.checkout ≠ .detached ∧ r.head = some a.branch := by
  obtain ⟨-, -, hheads⟩ : (request g other a s).status = 0 ∧ _ := request_spec hbare h
  have hall : ∀ o : Option Repository, (∀ r ∈ o, r.head = some a.branch) ↔
      ∀ b ∈ o.map Repository.head, b = some a.branch := fun o => by cases o <;> simp
  rw [hall, hheads a.mod]
  cases s.projects a.mod with
  | none => simp
  | some r => simp [head_eq_iff]

theorem allOrNothing_iff_sound (hbare : a.Bare) (h : s.repos.countP (g.sel a.mod) = 1) :
    AllOrNothing g other s a ↔ Sound g s a := by
  obtain ⟨hstatus, hrepos, -⟩ : (request g other a s).status = 0 ∧ _ := request_spec hbare h
  have hchecked := @checkedOut_iff g other s a hbare h
  have hrecorded := recorded_iff h
  rw [Sound, ← hchecked, ← hrecorded, ← hrepos]
  exact ⟨fun hall => hall.done hstatus, fun hboth =>
    ⟨fun _ => hboth, fun hne => absurd hstatus hne⟩⟩

end Sound

/-! ## Many requests -/

/-- The store, with the modules that were the subject of a request. -/
structure Desk where
  store : Store
  requested : List Chars

def Desk.next (g : Grep) (other : Attempt → Store → Shell.State Store) (d : Desk)
    (a : Attempt) : Option Desk :=
  some ⟨(request g other a d.store).store,
    if d.store.repos.countP (g.sel a.mod) = 1 then a.mod :: d.requested else d.requested⟩

/-- For every module that was the subject of a request and has a clone, the branch
recorded is the one checked out. -/
def Desk.Consistent (g : Grep) (d : Desk) : Prop :=
  ∀ m ∈ d.requested, ∀ r ∈ d.store.projects m, r.head = some (repoBranch g m d.store.repos)

/-- A request of bare words that, if it finds a row, is sound and leaves the rows of the
modules requested before alone: it takes none of them out, and the row it adds is not one
of theirs. Without a slash, no other name is the path of the same clone. -/
def Desk.Steady (g : Grep) (d : Desk) (a : Attempt) : Prop :=
  a.Bare ∧ '/' ∉ a.mod ∧ (d.store.repos.countP (g.sel a.mod) = 1 → Sound g d.store a ∧
    ∀ m ∈ d.requested, m ≠ a.mod →
      (∀ l ∈ d.store.repos, g.sel a.mod l = true → g.sel m l = false) ∧
        g.sel m (newRow a.mod (foundUrl g d.store.repos a.toRequest) a.branch) = false)

section Steady

variable {g : Grep} {other : Attempt → Store → Shell.State Store} {d : Desk} {a : Attempt}

/-- Modules whose rows are left alone are looked up as before. -/
theorem filter_branch_of_steady {m : Chars} (h : d.store.repos.countP (g.sel a.mod) = 1)
    (hold : ∀ l ∈ d.store.repos, g.sel a.mod l = true → g.sel m l = false)
    (hnew : g.sel m (newRow a.mod (foundUrl g d.store.repos a.toRequest) a.branch) = false) :
    (branch g d.store.repos a.toRequest).filter (g.sel m) = d.store.repos.filter (g.sel m) := by
  rw [branch, if_pos ⟨a.branch_word.1, h⟩, List.filter_append, List.filter_filter,
    List.filter_cons_of_neg (by simpa [foundUrl] using hnew), List.filter_nil, List.append_nil]
  apply List.filter_congr
  intro l hl
  cases hsel : g.sel a.mod l with
  | true => simp [hold l hl hsel]
  | false => simp

theorem consistent_next {d' : Desk} (h : d.Consistent g) (hsteady : d.Steady g a)
    (hnext : d.next g other a = some d') : d'.Consistent g := by
  obtain rfl := Option.some.inj hnext
  obtain ⟨hbare, -, hsteady⟩ := hsteady
  by_cases hone : d.store.repos.countP (g.sel a.mod) = 1
  · obtain ⟨hsound, hothers⟩ := hsteady hone
    obtain ⟨hstatus, hrepos, hheads⟩ : (request g other a d.store).status = 0 ∧ _ :=
      request_spec hbare hone
    have hdone := ((allOrNothing_iff_sound hbare hone).mpr hsound).done hstatus
    intro m hm r hr
    rw [if_pos hone] at hm
    by_cases hma : m = a.mod
    · subst hma
      exact (hdone.2 r hr).trans (congrArg some hdone.1.symm)
    · obtain ⟨hold, hnew⟩ := hothers m ((List.mem_cons.mp hm).resolve_left hma) hma
      have hhead := hheads m
      rw [Option.mem_def.mp hr, Option.map_some] at hhead
      obtain ⟨r', hr', hsame⟩ := Option.map_eq_some_iff.mp hhead.symm
      rw [if_neg hma] at hsame
      have hbefore := h m ((List.mem_cons.mp hm).resolve_left hma) r' hr'
      simp only [hrepos, repoBranch, column, filter_branch_of_steady hone hold hnew]
      exact hsame.symm.trans hbefore
  · intro m hm r hr
    rw [if_neg hone] at hm
    simp only [request_of_not_one hbare hone] at hr ⊢
    exact h m hm r hr

end Steady

/-- A request of bare words with one matching row does all or nothing exactly when it is
sound. In a run whose requests are sound and leave the other modules alone, the registry
and the clones agree in every state. -/
theorem branch_all_or_nothing (g : Grep) (other : Attempt → Store → Shell.State Store) :
    (∀ s a, a.Bare → s.repos.countP (g.sel a.mod) = 1 →
      (AllOrNothing g other s a ↔ Sound g s a)) ∧
      ∀ s attempts, Transition.Throughout (Desk.next g other) (Desk.Steady g) ⟨s, []⟩ attempts →
        Transition.Always (Desk.next g other) (Desk.Consistent g) ⟨s, []⟩ attempts := by
  constructor
  · intro s a hbare h
    exact allOrNothing_iff_sound hbare h
  · intro s attempts h
    have hstart : Desk.Consistent g ⟨s, []⟩ := fun m hm => absurd hm List.not_mem_nil
    exact Transition.always_of_throughout (fun d a d' hd ha => consistent_next hd ha) hstart h

/-! ## A request for `gcc` -/

/-- The row of `gcc`, with a clone in which `amiga6` is checked out. -/
def gccStore : Store where
  repos := ["gcc                https://github.com/bebbo/gcc\t\t\t\tamiga6\r".toList]
  bak := none
  url := []
  projects m :=
    if m = "gcc".toList then some ⟨["amiga6".toList], some "amiga6".toList, []⟩ else none

/-- `make branch mod=gcc branch=dev`, where the branch is found or not. -/
def gccAttempt (found : Bool) : Attempt where
  toRequest := gccRequest
  fetch := if found then 0 else 128
  checkout := if found then .switched else .failed 0
  setUpstream := if found then 0 else 128

/-- Nothing is known of what the shell makes of other words. -/
def elsewhere (_ : Attempt) (s : Store) : Shell.State Store := { store := s }

theorem gcc_found : gccStore.repos.countP (Grep.plain.sel "gcc".toList) = 1 := by
  simp only [gccStore]
  repeat rw [toList_eq rfl]
  decide

theorem gcc_bare (found : Bool) : (gccAttempt found).Bare := gccRequest_clear.1

theorem gcc_recordable (found : Bool) :
    Recordable Grep.plain gccStore.repos (gccAttempt found).toRequest := by
  simp only [gccStore, gccAttempt, gccRequest, Recordable, foundUrl]
  repeat rw [toList_eq rfl]
  decide

theorem branch_all_or_nothing_gcc :
    (AllOrNothing Grep.plain elsewhere gccStore (gccAttempt true) ↔
        Sound Grep.plain gccStore (gccAttempt true)) ∧
      Transition.Always (Desk.next Grep.plain elsewhere) (Desk.Consistent Grep.plain)
        ⟨gccStore, []⟩ [gccAttempt true] := by
  refine ⟨(branch_all_or_nothing Grep.plain elsewhere).1 gccStore (gccAttempt true)
      (gcc_bare true) gcc_found,
    (branch_all_or_nothing Grep.plain elsewhere).2 gccStore [gccAttempt true] ?_⟩
  refine (Transition.throughout_cons_some rfl _ _).mpr
    ⟨⟨gcc_bare true, by decide,
      fun _ => ⟨⟨gcc_recordable true, fun _ _ => Or.inl rfl⟩, ?_⟩⟩, trivial⟩
  intro m hm
  cases hm

/-- There is no branch `dev`: the registry says `dev`, the clone stays at `amiga6`, and
the recipe succeeds. -/
theorem branch_records_failed_checkout :
    gccStore.repos.countP (Grep.plain.sel "gcc".toList) = 1 ∧
      ¬ AllOrNothing Grep.plain elsewhere gccStore (gccAttempt false) := by
  refine ⟨gcc_found, fun h => ?_⟩
  have hsound := (allOrNothing_iff_sound (gcc_bare false) gcc_found).mp h
  rcases hsound.2 ⟨["amiga6".toList], some "amiga6".toList, []⟩ rfl with hc | ⟨-, hhead⟩
  · exact absurd hc (by decide)
  · exact absurd hhead (by decide)

end Checkout

end Registry

end AmigaGcc
