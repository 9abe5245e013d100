import Mathlib.Data.List.Nodup
import AmigaGcc.Registry.Branch

/-!
# Requests for different modules

Each request moves the row of its module to the end and spells it anew, so that the
order of requests shows in the order of the rows. It does not show in what is looked
up: `requests_commute` says that two sequences with the same requests for each module
leave registries that are read as the same map.

For this no module name may occur in the row of another module, and no name may start
with a dash: grep takes such a name as an option.
-/

namespace AmigaGcc

namespace Registry

open Library Library.Text

/-- A row of the registry: three words with blanks between them, and maybe a carriage
return at the end. -/
structure Row where
  name : Chars
  gap : Chars
  url : Chars
  gap' : Chars
  branch : Chars
  tail : Chars
  name_word : Word name
  url_word : Word url
  branch_word : Word branch
  gap_blank : Gap gap
  gap'_blank : Gap gap'
  tail_eq : tail = [] ∨ tail = ['\r']

def Row.text (r : Row) : Chars :=
  r.name ++ (r.gap ++ (r.url ++ (r.gap' ++ (r.branch ++ r.tail))))

namespace Row

variable (r : Row)

theorem cut_text (n : ℕ) :
    cut n (squeeze r.text) = [r.name, r.url, r.branch ++ r.tail].getD (n - 1) [] := by
  have htail : squeezeAfter false r.tail = r.tail := by
    rcases r.tail_eq with ht | ht
    · rw [ht]
      rfl
    · rw [ht]
      rfl
  have hbranch : ' ' ∉ r.branch ++ r.tail := by
    have hword : ' ' ∉ r.branch := r.branch_word.not_mem (by decide)
    rcases r.tail_eq with ht | ht
    · simpa [ht] using hword
    · simpa [ht] using hword
  rw [text, squeeze_fields r.name_word.field r.url_word.field r.branch_word.field r.gap_blank
    r.gap'_blank, htail]
  exact cut_fields (r.name_word.not_mem (by decide)) (r.url_word.not_mem (by decide)) hbranch n

@[simp] theorem name_text : Registry.name r.text = r.name := r.cut_text 1

@[simp] theorem url_text : Registry.url r.text = r.url := r.cut_text 2

@[simp] theorem branchOf_text : branchOf r.text = r.branch := by
  have hreturn : '\r' ∉ r.branch := r.branch_word.not_mem (by decide)
  have hcut : cut 3 (squeeze r.text) = r.branch ++ r.tail := r.cut_text 3
  rw [branchOf, hcut, List.erase_append_right _ hreturn]
  rcases r.tail_eq with ht | ht
  · simp [ht]
  · simp [ht]

theorem spelled_text : Spelled r.text := by
  have hname : r.name <:+: r.text := (List.prefix_append r.name _).isInfix
  have hurl : r.url <:+: r.text := ⟨r.name ++ r.gap, r.gap' ++ (r.branch ++ r.tail), by simp [text]⟩
  constructor
  · exact r.name_text.symm ▸ r.name_word
  · exact r.url_text.symm ▸ r.url_word
  · exact r.branchOf_text.symm ▸ r.branch_word
  · have hcut : cut 3 (squeeze r.text) = r.branch ++ r.tail := r.cut_text 3
    rw [hcut, branchOf_text]
    rcases r.tail_eq with ht | ht
    · exact Or.inl (by simp [ht])
    · exact Or.inr (by simp [ht])
  · exact r.name_text.symm ▸ hname
  · exact r.url_text.symm ▸ hurl

end Row

/-- One row for each module; letters, digits and dashes stand for themselves in a
pattern, and the name of a module occurs in its own row only. -/
structure Registered (rows : List Row) : Prop where
  literal : ∀ row ∈ rows, Literal row.name
  nodup : (rows.map Row.name).Nodup
  apart : ∀ row ∈ rows, ∀ row' ∈ rows, row.name <:+: row'.text → row.name = row'.name

/-- Requests for modules that are there, for branches without the name of another
module in them. -/
structure Requested (rows : List Row) (requests : List Request) : Prop where
  known : ∀ r ∈ requests, r.mod ∈ rows.map Row.name
  clear : ∀ r ∈ requests, ∀ m ∈ rows.map Row.name, m ≠ r.mod → ¬ m <:+: r.branch

def after (g : Grep) (rows : List Row) (requests : List Request) : List Chars :=
  requests.foldl (branch g) (rows.map Row.text)

/-- The branch last requested for the module of a row, or the one in the row. -/
def lastBranch (requests : List Request) (row : Row) : Chars :=
  (((requests.filter fun r => r.mod = row.name).getLast?).map Request.branch).getD row.branch

/-- The registry is read as the map of the modules to their URLs and the branches last
requested. -/
structure Reads (g : Grep) (rows : List Row) (requests : List Request)
    (repos : List Chars) : Prop where
  modules : (modules repos).Perm (rows.map Row.name)
  once : ∀ row ∈ rows, (Registry.modules repos).count row.name = 1
  url : ∀ row ∈ rows, getUrl g row.name repos = row.url
  branch : ∀ row ∈ rows, getBranch g row.name repos = lastBranch requests row

/-- What requests keep: each row says what it should. -/
structure Settled (rows : List Row) (requests : List Request) (repos : List Chars) : Prop where
  intact : Intact repos
  modules : (modules repos).Perm (rows.map Row.name)
  rows : ∀ l ∈ repos, ∀ row ∈ rows, name l = row.name →
    Registry.url l = row.url ∧ branchOf l = lastBranch requests row

section Steps

variable (g : Grep) {rows : List Row}

theorem settled_nil (h : Registered rows) : Settled rows [] (rows.map Row.text) := by
  have hmodules : modules (rows.map Row.text) = rows.map Row.name := by
    simp [modules]
  refine ⟨⟨?_, ?_, ?_, ?_⟩, by rw [hmodules], ?_⟩
  · intro l hl
    obtain ⟨row, -, rfl⟩ := List.mem_map.mp hl
    exact row.spelled_text
  · intro l hl
    obtain ⟨row, hrow, rfl⟩ := List.mem_map.mp hl
    rw [row.name_text]
    exact h.literal row hrow
  · rw [hmodules]
    exact h.nodup
  · intro l hl k hk hinfix
    obtain ⟨row, hrow, rfl⟩ := List.mem_map.mp hl
    obtain ⟨row', hrow', rfl⟩ := List.mem_map.mp hk
    rw [row.name_text] at hinfix ⊢
    rw [row'.name_text]
    exact h.apart row hrow row' hrow' hinfix
  · intro l hl row hrow hname
    obtain ⟨row', hrow', rfl⟩ := List.mem_map.mp hl
    rw [row'.name_text] at hname
    obtain rfl := List.inj_on_of_nodup_map h.nodup hrow' hrow hname
    exact ⟨row'.url_text, row'.branchOf_text⟩

theorem lastBranch_append_of_ne {requests : List Request} {r : Request} {row : Row}
    (h : row.name ≠ r.mod) : lastBranch (requests ++ [r]) row = lastBranch requests row := by
  rw [lastBranch, lastBranch, List.filter_append, List.filter_cons_of_neg (by simpa using h.symm),
    List.filter_nil, List.append_nil]

theorem lastBranch_append_of_eq {requests : List Request} {r : Request} {row : Row}
    (h : row.name = r.mod) : lastBranch (requests ++ [r]) row = r.branch := by
  rw [lastBranch, List.filter_append, List.filter_cons_of_pos (by simp [h]), List.filter_nil,
    List.getLast?_append]
  rfl

/-- One more request changes the row of its module, and no other. -/
theorem settled_append {requests : List Request} {repos : List Chars} {r : Request}
    (h : Settled rows requests repos) (hknown : r.mod ∈ rows.map Row.name)
    (hclear : ∀ m ∈ rows.map Row.name, m ≠ r.mod → ¬ m <:+: r.branch) :
    Settled rows (requests ++ [r]) (branch g repos r) := by
  obtain ⟨l, hl, hr⟩ := List.mem_map.mp (h.modules.symm.subset hknown)
  have hurl := (h.intact.spelled l hl).url_word
  refine ⟨?_, ?_, ?_⟩
  · exact intact_branch g h.intact hl hr fun m hm => hclear m (h.modules.subset hm)
  · have hperm := (entries_branch_perm g h.intact hl hr).map Prod.fst
    simp only [entries, List.map_map] at hperm
    exact hperm.trans h.modules
  · intro k hk row hrow hname
    rcases mem_branch g h.intact hl hr hk with ⟨hkin, hkne⟩ | rfl
    · rw [lastBranch_append_of_ne (hname ▸ hkne)]
      exact h.rows k hkin row hrow hname
    · rw [name_newRow r.mod_word hurl r.branch_word] at hname
      rw [url_newRow r.mod_word hurl r.branch_word, branchOf_newRow r.mod_word hurl r.branch_word,
        lastBranch_append_of_eq hname.symm]
      exact ⟨(h.rows l hl row hrow (hr.trans hname)).1, rfl⟩

theorem settled_after (h : Registered rows) {requests : List Request}
    (hrequests : Requested rows requests) : Settled rows requests (after g rows requests) := by
  induction requests using List.reverseRecOn with
  | nil => exact settled_nil h
  | append_singleton requests r ih =>
      have hmem : r ∈ requests ++ [r] := List.mem_append_right _ (List.mem_singleton_self r)
      have hbefore : Requested rows requests :=
        ⟨fun q hq => hrequests.known q (List.mem_append_left _ hq),
          fun q hq => hrequests.clear q (List.mem_append_left _ hq)⟩
      rw [after, List.foldl_append]
      exact settled_append g (ih hbefore) (hrequests.known r hmem) (hrequests.clear r hmem)

theorem reads_of_settled (h : Registered rows) {requests : List Request} {repos : List Chars}
    (hsettled : Settled rows requests repos) : Reads g rows requests repos := by
  have hrow : ∀ row ∈ rows, ∃ l ∈ repos, name l = row.name := fun row hrow =>
    List.mem_map.mp (hsettled.modules.symm.subset (List.mem_map_of_mem hrow))
  refine ⟨hsettled.modules, fun row hin => ?_, fun row hin => ?_, fun row hin => ?_⟩
  · rw [hsettled.modules.count_eq]
    exact List.count_eq_one_of_mem h.nodup (List.mem_map_of_mem hin)
  · obtain ⟨l, hl, hname⟩ := hrow row hin
    have hlookup := (hsettled.intact.faithful g l hl).1
    rw [hname] at hlookup
    exact hlookup.trans (hsettled.rows l hl row hin hname).1
  · obtain ⟨l, hl, hname⟩ := hrow row hin
    have hlookup := (hsettled.intact.faithful g l hl).2.1
    rw [hname] at hlookup
    exact hlookup.trans (hsettled.rows l hl row hin hname).2

end Steps

/-- Two sequences with the same requests for each module, in the same order, leave
registries that are read as the same map. -/
theorem requests_commute (g : Grep) {rows : List Row} (h : Registered rows)
    {requests requests' : List Request} (hrequests : Requested rows requests)
    (hrequests' : Requested rows requests')
    (hsame : ∀ m, requests.filter (fun r => r.mod = m) = requests'.filter fun r => r.mod = m) :
    Reads g rows requests (after g rows requests) ∧
      Reads g rows requests (after g rows requests') := by
  have hlast : ∀ row, lastBranch requests' row = lastBranch requests row := fun row => by
    rw [lastBranch, lastBranch, hsame row.name]
  have hreads := reads_of_settled g h (settled_after g h hrequests')
  refine ⟨reads_of_settled g h (settled_after g h hrequests),
    hreads.modules, hreads.once, hreads.url, fun row hrow => ?_⟩
  rw [hreads.branch row hrow, hlast row]

/-! ## Two small registries -/

def twoRows : List Row :=
  [⟨"ira".toList, "\t".toList, "https://x/ira".toList, "\t\t".toList, "amiga6".toList, ['\r'],
      by decide, by decide, by decide, by decide, by decide, Or.inr rfl⟩,
    ⟨"lha".toList, [' '], "https://x/lha".toList, [' '], "master".toList, [],
      by decide, by decide, by decide, by decide, by decide, Or.inl rfl⟩]

def iraRequest : Request := ⟨"ira".toList, "amiga13".toList, by decide, by decide⟩

def lhaRequest : Request := ⟨"lha".toList, "next".toList, by decide, by decide⟩

theorem requests_commute_twoRows :
    Reads Grep.plain twoRows [iraRequest, lhaRequest]
        (after Grep.plain twoRows [iraRequest, lhaRequest]) ∧
      Reads Grep.plain twoRows [iraRequest, lhaRequest]
        (after Grep.plain twoRows [lhaRequest, iraRequest]) := by
  have hsame : ∀ m, [iraRequest, lhaRequest].filter (fun r => r.mod = m) =
      [lhaRequest, iraRequest].filter fun r => r.mod = m := by
    intro m
    by_cases hira : iraRequest.mod = m
    · have hlha : lhaRequest.mod ≠ m := hira ▸ by decide
      simp [hira, hlha]
    · simp [List.filter_cons, hira]
  exact requests_commute Grep.plain ⟨by decide, by decide, by decide⟩
    ⟨by decide, by decide⟩ ⟨by decide, by decide⟩ hsame

/-- The row of a module whose name is an option of grep. -/
def dashRow : Row :=
  ⟨"-i".toList, [' '], "https://x/i".toList, [' '], "master".toList, [],
    by decide, by decide, by decide, by decide, by decide, Or.inl rfl⟩

/-- `grep -i .repos` looks for `.repos` in its standard input, which is empty. -/
def grepIgnoreCase : Grep where
  sel p l := if p = "-i".toList then false else occurs p l
  sel_dotted p l hp := by
    have hne : p ≠ "-i".toList := by
      rintro rfl
      exact hp.1 rfl
    exact if_neg hne

def dashRequest : Request := ⟨"-i".toList, "next".toList, by decide, by decide⟩

/-- A module whose name starts with a dash keeps its branch, and the lookup of its URL
finds nothing. -/
theorem dash_is_option :
    dashRow.name.all (fun c => c.isAlphanum || c == '-') = true ∧
      Requested [dashRow] [dashRequest] ∧
      ¬ Reads grepIgnoreCase [dashRow] [dashRequest]
        (after grepIgnoreCase [dashRow] [dashRequest]) := by
  refine ⟨by decide, ⟨by decide, by decide⟩, fun h => ?_⟩
  have hurl := h.url dashRow (List.mem_singleton_self dashRow)
  exact absurd hurl (by decide)

end Registry

end AmigaGcc
