import Mathlib.Data.List.Perm.Basic
import AmigaGcc.Library.Text.Fields
import AmigaGcc.Library.Transition

/-!
# The module registry

`.repos` has one row for each module: its name, its URL and its branch. The
Makefile finds the row of a module with `grep`, both to look up its fields and
in `make branch`, which takes the row out and appends a new one.

A pattern selects a row wherever it occurs in it, in the name, the URL or the
branch. `Intact` says that each module name occurs in its own row only, which
makes all lookups right, and `branch_kept_iff` says which requests keep it so.

make pastes the words of a request into the text that the shell reads. `branch` is
what the recipe does with words that arrive as they are (`Bare`); of other words the
shell makes something else, and nothing is assumed of what the recipe does then.
-/

namespace AmigaGcc

namespace Registry

open Library Library.Text

/-- `default-repos`, with the carriage returns its lines end with. -/
def defaultRepos : List Chars :=
  ["amiga-netinclude   https://github.com/bebbo/amiga-netinclude\tmaster\r",
    "binutils           https://github.com/bebbo/binutils-gdb\t\tamiga\r",
    "clib2              https://github.com/bebbo/clib2\t\t\t\tmaster\r",
    "fd2pragma          https://github.com/bebbo/fd2pragma\t\t\tmaster\r",
    "fd2sfd             https://github.com/adtools/fd2sfd\t\t\tmaster\r",
    "gcc                https://github.com/bebbo/gcc\t\t\t\tamiga6\r",
    "ira                https://github.com/bebbo/ira\t\t\t\t    master\r",
    "ixemul             https://github.com/bebbo/ixemul\t\t\t\tmaster\r",
    "lha                https://github.com/jca02266/lha\t\t\t\tmaster\r",
    "libdebug           https://github.com/bebbo/libdebug\t\t\tmaster\r",
    "libnix             https://github.com/bebbo/libnix\t\t\t\tmaster\r",
    "libSDL12           https://github.com/AmigaPorts/libSDL12\t\tmaster\r",
    "newlib-cygwin      https://github.com/bebbo/newlib-cygwin\t\tamiga\r",
    "sfdc               https://github.com/bebbo/sfdc\t\t\t\tmaster\r",
    "vasm               https://github.com/mheyer32/vasm\t\t\t    master\r",
    "vbcc               https://github.com/bebbo/vbcc\t\t\t\tmaster\r",
    "vlink              https://github.com/bebbo/vlink\t\t\tmaster\r",
    "aros-stuff         https://github.com/bebbo/aros-stuff\t\t\tmaster\r"].map
      String.toList

/-! ## Lookups -/

/-- `grep m .repos | sed -e 's/[[:blank:]]\+/ /g' | cut -d' ' -f n` -/
def column (g : Grep) (m : Chars) (n : ℕ) (repos : List Chars) : Chars :=
  unlines ((repos.filter (g.sel m)).map fun l => cut n (squeeze l))

def getUrl (g : Grep) (m : Chars) (repos : List Chars) : Chars :=
  makeShell (column g m 2 repos)

def getBranch (g : Grep) (m : Chars) (repos : List Chars) : Chars :=
  makeShell (column g m 3 repos)

/-- `$$url` of `update-repos`. -/
def repoUrl (g : Grep) (m : Chars) (repos : List Chars) : Chars :=
  capture (column g m 2 repos)

/-- `$$bra` of `update-repos` and of `v`: `${bra/$'\n'}` and `${bra/$'\r'}` take
out the first of these characters. -/
def repoBranch (g : Grep) (m : Chars) (repos : List Chars) : Chars :=
  ((capture (column g m 3 repos)).erase '\n').erase '\r'

def name (l : Chars) : Chars := cut 1 (squeeze l)

def url (l : Chars) : Chars := cut 2 (squeeze l)

/-- The branch in a row, without the carriage return of the line. -/
def branchOf (l : Chars) : Chars := (cut 3 (squeeze l)).erase '\r'

/-- `$(modules)` -/
def modules (repos : List Chars) : List Chars := repos.map name

/-! ## The recipe -/

/-- `make branch mod=M branch=B` for two words. -/
structure Request where
  mod : Chars
  branch : Chars
  mod_word : Word mod
  branch_word : Word branch

/-- Characters that the shell reads as something else, in a word or in double quotes;
make reads `$` before that. -/
def readAgain : Chars :=
  ['|', '&', ';', '<', '>', '(', ')', '$', '`', '\\', '"', '\'', '*', '?', '[']

/-- A word that commands get as it is: not quoted, expanded or cut, no comment, and no
list in braces. -/
def plain (w : Chars) : Bool :=
  w.all (fun c => !readAgain.contains c) && !(['#', '~'].contains (w.headD ' ')) &&
    !(w.contains '{' && w.contains '}')

/-- The shell hands out both words as they are, and grep does not take `mod` as an
option. -/
def Request.Bare (r : Request) : Prop :=
  (plain r.mod && r.mod.headD ' ' != '-' && plain r.branch) = true

instance (r : Request) : Decidable r.Bare := inferInstanceAs (Decidable (_ = true))

/-- The row `echo "$(mod) $$url $(branch)"` writes. -/
def newRow (mod url branch : Chars) : Chars := mod ++ ' ' :: (url ++ ' ' :: branch)

/-- The recipe of `branch`, as far as it concerns `.repos`, for the words that the
commands get. -/
def branch (g : Grep) (repos : List Chars) (r : Request) : List Chars :=
  if r.branch ≠ [] ∧ repos.countP (g.sel r.mod) = 1 then
    (repos.filter fun l => !g.sel r.mod l) ++
      [newRow r.mod (capture (column g r.mod 2 repos)) r.branch]
  else repos

/-- `.repos` after a request. When the shell reads something else in its words, the recipe
leaves what `other` says, which may be anything. -/
def next (g : Grep) (other : List Chars → Request → List Chars) (repos : List Chars)
    (r : Request) : List Chars :=
  if r.Bare then branch g repos r else other repos r

def step (g : Grep) (other : List Chars → Request → List Chars) (repos : List Chars)
    (r : Request) : Option (List Chars) :=
  some (next g other repos r)

def entries (repos : List Chars) : List (Chars × Chars) :=
  repos.map fun l => (name l, url l)

/-- Every lookup of a module yields what is written in its own row. -/
def Faithful (g : Grep) (repos : List Chars) : Prop :=
  ∀ l ∈ repos,
    getUrl g (name l) repos = url l ∧ getBranch g (name l) repos = branchOf l ∧
      repoUrl g (name l) repos = url l ∧ repoBranch g (name l) repos = branchOf l

/-- What a request must leave: the modules and URLs of `default-repos`, right
lookups, the rows of all other modules as they were, and everything as it was
when `mod` is not a module. -/
structure Kept (g : Grep) (other : List Chars → Request → List Chars) (repos : List Chars)
    (r : Request) : Prop where
  entries : (entries (next g other repos r)).Perm (entries defaultRepos)
  lookups : Faithful g (next g other repos r)
  others : ∀ m, m ≠ r.mod →
    ((next g other repos r).filter fun l => name l = m) = repos.filter fun l => name l = m
  unknown : r.mod ∉ modules repos → next g other repos r = repos

/-- A request that is safe: when `mod` selects one row, `mod` is a module, and no
other module name is part of the new branch name. -/
def Clear (g : Grep) (repos : List Chars) (r : Request) : Prop :=
  repos.countP (g.sel r.mod) = 1 →
    r.mod ∈ modules repos ∧ ∀ m ∈ modules repos, m ≠ r.mod → ¬ m <:+: r.branch

/-! ## Rows -/

/-- A row of three words, with or without a carriage return at its end. -/
structure Spelled (l : Chars) : Prop where
  name_word : Word (name l)
  url_word : Word (url l)
  branch_word : Word (branchOf l)
  tail : cut 3 (squeeze l) = branchOf l ∨ cut 3 (squeeze l) = branchOf l ++ ['\r']
  name_isInfix : name l <:+: l
  url_isInfix : url l <:+: l

instance (l : Chars) : Decidable (Spelled l) :=
  decidable_of_iff
    (Word (name l) ∧ Word (url l) ∧ Word (branchOf l) ∧
      (cut 3 (squeeze l) = branchOf l ∨ cut 3 (squeeze l) = branchOf l ++ ['\r']) ∧
      name l <:+: l ∧ url l <:+: l)
    ⟨fun ⟨h₁, h₂, h₃, h₄, h₅, h₆⟩ => ⟨h₁, h₂, h₃, h₄, h₅, h₆⟩,
      fun ⟨h₁, h₂, h₃, h₄, h₅, h₆⟩ => ⟨h₁, h₂, h₃, h₄, h₅, h₆⟩⟩

theorem cut_newRow {m u b : Chars} (hm : Word m) (hu : Word u) (hb : Word b) (n : ℕ) :
    cut n (squeeze (newRow m u b)) = [m, u, b].getD (n - 1) [] := by
  rw [newRow, squeeze_words hm hu hb, cut_words hm hu hb]

theorem name_newRow {m u b : Chars} (hm : Word m) (hu : Word u) (hb : Word b) :
    name (newRow m u b) = m := cut_newRow hm hu hb 1

theorem url_newRow {m u b : Chars} (hm : Word m) (hu : Word u) (hb : Word b) :
    url (newRow m u b) = u := cut_newRow hm hu hb 2

theorem branchOf_newRow {m u b : Chars} (hm : Word m) (hu : Word u) (hb : Word b) :
    branchOf (newRow m u b) = b := by
  rw [branchOf, cut_newRow hm hu hb]
  exact List.erase_of_not_mem (hb.not_mem (by decide))

theorem infix_newRow_iff {p m u b : Chars} (hp : ' ' ∉ p) :
    p <:+: newRow m u b ↔ p <:+: m ∨ p <:+: u ∨ p <:+: b := by
  rw [newRow, infix_append_cons_iff hp, infix_append_cons_iff hp]

theorem spelled_newRow {m u b : Chars} (hm : Word m) (hu : Word u) (hb : Word b) :
    Spelled (newRow m u b) := by
  constructor
  · rwa [name_newRow hm hu hb]
  · rwa [url_newRow hm hu hb]
  · rwa [branchOf_newRow hm hu hb]
  · exact Or.inl ((cut_newRow hm hu hb 3).trans (branchOf_newRow hm hu hb).symm)
  · rw [name_newRow hm hu hb, infix_newRow_iff (hm.not_mem (by decide))]
    exact Or.inl (List.infix_refl m)
  · rw [url_newRow hm hu hb, infix_newRow_iff (hu.not_mem (by decide))]
    exact Or.inr (Or.inl (List.infix_refl u))

/-! ## An intact registry -/

/-- Each row is spelled as it should be, and the name of each module occurs in
the row of no other one. -/
structure Intact (repos : List Chars) : Prop where
  spelled : ∀ l ∈ repos, Spelled l
  literal : ∀ l ∈ repos, Literal (name l)
  nodup : (modules repos).Nodup
  apart : ∀ l ∈ repos, ∀ k ∈ repos, name l <:+: k → name l = name k

theorem names_apart : ∀ l ∈ defaultRepos, ∀ k ∈ defaultRepos,
    occurs (name l) k = true → name l = name k := by
  simp only [defaultRepos, List.map_cons, List.map_nil]
  repeat rw [toList_eq rfl]
  decide +kernel

theorem rows_spelled :
    (∀ l ∈ defaultRepos, Spelled l ∧ Literal (name l)) ∧ (modules defaultRepos).Nodup := by
  simp only [defaultRepos, List.map_cons, List.map_nil]
  repeat rw [toList_eq rfl]
  decide

theorem intact_defaultRepos : Intact defaultRepos := by
  obtain ⟨hrows, hnodup⟩ := rows_spelled
  refine ⟨fun l hl => (hrows l hl).1, fun l hl => (hrows l hl).2, hnodup, ?_⟩
  intro l hl k hk hinfix
  exact names_apart l hl k hk ((occurs_iff_isInfix (hrows l hl).2 k).mpr hinfix)

theorem filter_key_eq {α κ : Type*} [DecidableEq κ] {f : α → κ} {l : List α} {a : α}
    (h : (l.map f).Nodup) (ha : a ∈ l) : (l.filter fun b => f b = f a) = [a] := by
  induction l with
  | nil => cases ha
  | cons b l ih =>
      rw [List.map_cons, List.nodup_cons] at h
      obtain ⟨hb, hl⟩ := h
      rcases List.mem_cons.mp ha with rfl | ha
      · have hnone : (l.filter fun b => f b = f a) = [] := by
          refine List.filter_eq_nil_iff.mpr fun c hc hfc => hb ?_
          rw [← of_decide_eq_true hfc]
          exact List.mem_map_of_mem hc
        rw [List.filter_cons_of_pos (by simp), hnone]
      · have hne : f b ≠ f a := fun he => hb (he ▸ List.mem_map_of_mem ha)
        rw [List.filter_cons_of_neg (by simpa using hne), ih hl ha]

section Intact

variable (g : Grep) {repos : List Chars}

theorem Intact.sel_name (h : Intact repos) {l k : Chars} (hl : l ∈ repos) (hk : k ∈ repos) :
    g.sel (name l) k = decide (name k = name l) := by
  rw [Bool.eq_iff_iff, g.sel_iff_isInfix (h.literal l hl), decide_eq_true_iff]
  constructor
  · exact fun hinfix => (h.apart l hl k hk hinfix).symm
  · exact fun he => he ▸ (h.spelled k hk).name_isInfix

theorem Intact.filter_sel (h : Intact repos) {l : Chars} (hl : l ∈ repos) :
    repos.filter (g.sel (name l)) = [l] := by
  rw [List.filter_congr fun k hk => h.sel_name g hl hk]
  exact filter_key_eq h.nodup hl

theorem Intact.filter_not_sel (h : Intact repos) {l : Chars} (hl : l ∈ repos) :
    (repos.filter fun k => !g.sel (name l) k) = repos.filter fun k => name k ≠ name l := by
  apply List.filter_congr
  intro k hk
  rw [h.sel_name g hl hk]
  simp

theorem Intact.faithful (h : Intact repos) : Faithful g repos := by
  intro l hl
  have hrow := h.spelled l hl
  have hcolumn : ∀ n, column g (name l) n repos = unlines [cut n (squeeze l)] := fun n => by
    rw [column, h.filter_sel g hl]
    rfl
  have hnewline : '\n' ∉ cut 3 (squeeze l) := by
    have hbranch : '\n' ∉ branchOf l := hrow.branch_word.not_mem (by decide)
    rcases hrow.tail with ht | ht
    · rwa [ht]
    · rw [ht]
      simpa using hbranch
  refine ⟨?_, ?_, ?_, ?_⟩
  · rw [getUrl, hcolumn]
    exact makeShell_word hrow.url_word (Or.inl rfl)
  · rw [getBranch, hcolumn]
    exact makeShell_word hrow.branch_word hrow.tail
  · rw [repoUrl, hcolumn]
    exact capture_line (hrow.url_word.not_mem (by decide))
  · rw [repoBranch, hcolumn, capture_line hnewline, List.erase_of_not_mem hnewline]
    rfl

/-- The row of a module and the rows that stay make up the registry. -/
theorem Intact.perm_cons (h : Intact repos) {l : Chars} (hl : l ∈ repos) :
    repos.Perm (l :: repos.filter fun k => !g.sel (name l) k) := by
  have hsplit := List.filter_append_perm (g.sel (name l)) repos
  rw [h.filter_sel g hl] at hsplit
  exact hsplit.symm

theorem Intact.branch_eq (h : Intact repos) {l : Chars} (hl : l ∈ repos) {r : Request}
    (hr : name l = r.mod) :
    branch g repos r =
      (repos.filter fun k => !g.sel r.mod k) ++ [newRow r.mod (url l) r.branch] := by
  have hfilter : repos.filter (g.sel r.mod) = [l] := hr ▸ h.filter_sel g hl
  have hcount : repos.countP (g.sel r.mod) = 1 := by
    rw [List.countP_eq_length_filter, hfilter]
    rfl
  have hurl : capture (column g r.mod 2 repos) = url l := by
    rw [column, hfilter]
    exact capture_line ((h.spelled l hl).url_word.not_mem (by decide))
  rw [branch, if_pos ⟨r.branch_word.1, hcount⟩, hurl]

end Intact

/-! ## One request -/

section Request

variable (g : Grep) {repos : List Chars} {r : Request}

theorem branch_eq_self (h : repos.countP (g.sel r.mod) ≠ 1) : branch g repos r = repos :=
  if_neg fun hif => h hif.2

/-- A request that takes out a row and names no module shows up as a new
module. -/
theorem mem_modules_of_unchanged (h : Intact repos)
    (hcount : repos.countP (g.sel r.mod) = 1) (hself : branch g repos r = repos) :
    r.mod ∈ modules repos := by
  obtain ⟨s, hs⟩ := List.length_eq_one_iff.mp (List.countP_eq_length_filter.symm.trans hcount)
  have hmem : s ∈ repos := List.mem_of_mem_filter (hs ▸ List.mem_singleton_self s)
  have hurl : Word (url s) := (h.spelled s hmem).url_word
  have hcapture : capture (column g r.mod 2 repos) = url s := by
    rw [column, hs]
    exact capture_line (hurl.not_mem (by decide))
  have hnew : newRow r.mod (url s) r.branch ∈ repos := by
    rw [← hself, branch, if_pos ⟨r.branch_word.1, hcount⟩, hcapture]
    simp
  have hname := List.mem_map_of_mem (f := name) hnew
  rwa [name_newRow r.mod_word hurl r.branch_word] at hname

/-- A request for a module keeps the names and URLs. -/
theorem entries_branch_perm (h : Intact repos) {l : Chars} (hl : l ∈ repos)
    (hr : name l = r.mod) : (entries (branch g repos r)).Perm (entries repos) := by
  have hurl := (h.spelled l hl).url_word
  have hperm := (h.perm_cons g hl).map fun k => (name k, url k)
  rw [h.branch_eq g hl hr, entries, List.map_append, List.map_singleton,
    name_newRow r.mod_word hurl r.branch_word, url_newRow r.mod_word hurl r.branch_word]
  rw [hr, List.map_cons, hr] at hperm
  exact List.perm_append_comm.trans hperm.symm

theorem rows_branch_eq (h : Intact repos) {l : Chars} (hl : l ∈ repos)
    (hr : name l = r.mod) {m : Chars} (hm : m ≠ r.mod) :
    ((branch g repos r).filter fun k => name k = m) = repos.filter fun k => name k = m := by
  have hurl := (h.spelled l hl).url_word
  have hother : (repos.filter fun k => !g.sel r.mod k) = repos.filter fun k => name k ≠ r.mod :=
    hr ▸ h.filter_not_sel g hl
  rw [h.branch_eq g hl hr, List.filter_append, hother, List.filter_filter,
    List.filter_cons_of_neg (by
      rw [name_newRow r.mod_word hurl r.branch_word]
      simpa using hm.symm), List.filter_nil, List.append_nil]
  apply List.filter_congr
  intro k _
  by_cases hk : name k = m
  · simp [hk, hm]
  · simp [hk]

theorem mem_branch (h : Intact repos) {l : Chars} (hl : l ∈ repos) (hr : name l = r.mod)
    {k : Chars} (hk : k ∈ branch g repos r) :
    (k ∈ repos ∧ name k ≠ r.mod) ∨ k = newRow r.mod (url l) r.branch := by
  have hother : (repos.filter fun k => !g.sel r.mod k) = repos.filter fun k => name k ≠ r.mod :=
    hr ▸ h.filter_not_sel g hl
  rw [h.branch_eq g hl hr, hother, List.mem_append, List.mem_singleton, List.mem_filter] at hk
  exact hk.imp_left fun hin => ⟨hin.1, of_decide_eq_true hin.2⟩

theorem intact_branch (h : Intact repos) {l : Chars} (hl : l ∈ repos)
    (hr : name l = r.mod)
    (hclear : ∀ m ∈ modules repos, m ≠ r.mod → ¬ m <:+: r.branch) :
    Intact (branch g repos r) := by
  have hurl := (h.spelled l hl).url_word
  have hname := name_newRow r.mod_word hurl r.branch_word
  have hmem := fun k hk => mem_branch g (k := k) h hl hr hk
  constructor
  · intro k hk
    rcases hmem k hk with ⟨hin, -⟩ | rfl
    · exact h.spelled k hin
    · exact spelled_newRow r.mod_word hurl r.branch_word
  · intro k hk
    rcases hmem k hk with ⟨hin, -⟩ | rfl
    · exact h.literal k hin
    · rw [hname, ← hr]
      exact h.literal l hl
  · have hperm := (entries_branch_perm g h hl hr).map Prod.fst
    simp only [entries, List.map_map] at hperm
    exact hperm.nodup_iff.mpr h.nodup
  · intro k hk j hj hinfix
    rcases hmem k hk with ⟨hkin, hkne⟩ | rfl
    · rcases hmem j hj with ⟨hjin, -⟩ | rfl
      · exact h.apart k hkin j hjin hinfix
      · -- the name of another module in the new row: in `mod`, the URL or the branch
        have hblank : ' ' ∉ name k := (h.spelled k hkin).name_word.not_mem (by decide)
        have hrow := h.spelled l hl
        rcases (infix_newRow_iff hblank).mp hinfix with hin | hin | hin
        · exact absurd ((h.apart k hkin l hl ((hr ▸ hin).trans hrow.name_isInfix)).trans hr) hkne
        · exact absurd ((h.apart k hkin l hl (hin.trans hrow.url_isInfix)).trans hr) hkne
        · exact absurd hin (hclear _ (List.mem_map_of_mem hkin) hkne)
    · rcases hmem j hj with ⟨hjin, -⟩ | rfl
      · rw [hname, ← hr] at hinfix ⊢
        exact h.apart l hl j hjin hinfix
      · rfl

/-- The lookups of a module whose name is part of the new branch of another one
find two rows. -/
theorem not_faithful_branch (h : Intact repos) {l k : Chars} (hl : l ∈ repos)
    (hk : k ∈ repos) (hr : name l = r.mod) (hne : name k ≠ r.mod)
    (hin : name k <:+: r.branch) : ¬ Faithful g (branch g repos r) := by
  intro hfaithful
  have hurl := (h.spelled l hl).url_word
  have hkurl := (h.spelled k hk).url_word
  have hblank : ' ' ∉ name k := (h.spelled k hk).name_word.not_mem (by decide)
  have hnot : g.sel r.mod k = false := by
    rw [← hr, h.sel_name g hl hk, hr]
    exact decide_eq_false hne
  have hnew : g.sel (name k) (newRow r.mod (url l) r.branch) = true := by
    rw [g.sel_iff_isInfix (h.literal k hk), infix_newRow_iff hblank]
    exact Or.inr (Or.inr hin)
  have hsel : (branch g repos r).filter (g.sel (name k)) =
      [k, newRow r.mod (url l) r.branch] := by
    rw [h.branch_eq g hl hr, List.filter_append, List.filter_filter, ← List.filter_filter,
      List.filter_comm, h.filter_sel g hk, List.filter_cons_of_pos hnew]
    simp [hnot]
  have hmem : k ∈ branch g repos r :=
    List.mem_of_mem_filter (hsel ▸ List.mem_cons_self)
  have hlookup := (hfaithful k hmem).1
  have hcut : cut 2 (squeeze (newRow r.mod (url l) r.branch)) = url l :=
    url_newRow r.mod_word hurl r.branch_word
  rw [getUrl, column, hsel, List.map_cons, List.map_singleton, hcut] at hlookup
  have hlen := congrArg List.length ((makeShell_two_words hkurl hurl).symm.trans hlookup)
  simp [url] at hlen

theorem next_of_bare (other : List Chars → Request → List Chars) (hbare : r.Bare) :
    next g other repos r = branch g repos r := if_pos hbare

theorem kept_iff_clear (other : List Chars → Request → List Chars) (h : Intact repos)
    (hentries : (entries repos).Perm (entries defaultRepos)) (hbare : r.Bare) :
    Kept g other repos r ↔ Clear g repos r := by
  have hnext : next g other repos r = branch g repos r := next_of_bare g other hbare
  by_cases hcount : repos.countP (g.sel r.mod) = 1
  · constructor
    · intro hkept _
      have hmod : r.mod ∈ modules repos := by
        by_contra hno
        exact hno (mem_modules_of_unchanged g h hcount (hnext ▸ hkept.unknown hno))
      refine ⟨hmod, fun m hm hne hin => ?_⟩
      obtain ⟨l, hl, hr⟩ := List.mem_map.mp hmod
      obtain ⟨k, hk, rfl⟩ := List.mem_map.mp hm
      exact not_faithful_branch g h hl hk hr hne hin (hnext ▸ hkept.lookups)
    · intro hclear
      obtain ⟨hmod, hfree⟩ := hclear hcount
      obtain ⟨l, hl, hr⟩ := List.mem_map.mp hmod
      refine ⟨?_, ?_, fun m hm => ?_, fun hno => absurd hmod hno⟩
      · rw [hnext]
        exact (entries_branch_perm g h hl hr).trans hentries
      · rw [hnext]
        exact (intact_branch g h hl hr hfree).faithful g
      · rw [hnext]
        exact rows_branch_eq g h hl hr hm
  · have hself := hnext.trans (branch_eq_self g hcount)
    refine ⟨fun _ hc => absurd hc hcount, fun _ => ⟨?_, ?_, ?_, fun _ => hself⟩⟩
    · rwa [hself]
    · rw [hself]
      exact h.faithful g
    · intro m _
      rw [hself]

/-- A clear request leaves an intact registry with the same entries. -/
theorem intact_step (h : Intact repos)
    (hentries : (entries repos).Perm (entries defaultRepos)) (hclear : Clear g repos r) :
    Intact (branch g repos r) ∧
      (entries (branch g repos r)).Perm (entries defaultRepos) := by
  by_cases hcount : repos.countP (g.sel r.mod) = 1
  · obtain ⟨hmod, hfree⟩ := hclear hcount
    obtain ⟨l, hl, hr⟩ := List.mem_map.mp hmod
    exact ⟨intact_branch g h hl hr hfree, (entries_branch_perm g h hl hr).trans hentries⟩
  · rw [branch_eq_self g hcount]
    exact ⟨h, hentries⟩

end Request

theorem newlib_selects : defaultRepos.countP (occurs "newlib".toList) = 1 ∧
    "newlib".toList ∉ modules defaultRepos := by
  simp only [defaultRepos, List.map_cons, List.map_nil]
  repeat rw [toList_eq rfl]
  decide

/-- `make branch mod=newlib branch=x` -/
def newlibRequest : Request := ⟨"newlib".toList, "x".toList, by decide, by decide⟩

/-- `make branch mod=gcc branch=dev` -/
def gccRequest : Request := ⟨"gcc".toList, "dev".toList, by decide, by decide⟩

theorem gccRequest_clear :
    gccRequest.Bare ∧ Clear Grep.plain defaultRepos gccRequest := by
  have hmods : gccRequest.mod ∈ modules defaultRepos ∧
      ∀ l ∈ defaultRepos, occurs (name l) gccRequest.branch = false := by
    simp only [defaultRepos, gccRequest, List.map_cons, List.map_nil]
    repeat rw [toList_eq rfl]
    decide
  refine ⟨by decide, fun _ => ⟨hmods.1, fun m hm _ hin => ?_⟩⟩
  obtain ⟨l, hl, rfl⟩ := List.mem_map.mp hm
  have hoccurs := (occurs_iff_isInfix (intact_defaultRepos.literal l hl) _).mpr hin
  rw [hmods.2 l hl] at hoccurs
  cases hoccurs

end Registry

end AmigaGcc
