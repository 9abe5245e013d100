import AmigaGcc.Library.Text.Ere
import AmigaGcc.Library.Text.Lexeme

/-!
# `__stdargs` in the headers of an SDK

The directive `stdargs` edits a header with two substitutions: `remove` takes one
`__stdargs ` out of a line, the last one, and `add` puts one at the start of a line
that looks like a prototype. The second looks for blanks, at most one `*` and blanks in
front of the name, so that it misses `char **f(..)` and `int*f(..)`.
-/

namespace AmigaGcc

namespace Sdk

namespace Stdargs

open Library.Text Library.Text.Ere

def keyword : Chars := "__stdargs".toList

def mark : Chars := keyword ++ [' ']

/-- `(.*)__stdargs (.*)` -/
def present : Ere := cat (group any) (cat (text mark) (group any))

/-- `\1\2` -/
def without : List Chars → Chars
  | [before, after] => before ++ after
  | _ => []

/-- `s/(.*)__stdargs (.*)/\1\2/g` -/
def remove (l : Chars) : Chars := subst present without l

/-- `([a-zA-Z0-9_]*[[:blank:]]*.*[[:blank:]]+\*?[[:blank:]]*)([a-zA-Z0-9_]+)[[:blank:]]*\(` -/
def prototype : Ere :=
  cat
    (group (cat (many word)
      (cat (many blank) (cat any (cat (plus blank) (cat (opt '*') (many blank)))))))
    (cat (group (plus word)) (cat (many blank) (text ['('])))

/-- `__stdargs \1\2(` -/
def front : List Chars → Chars
  | [type, name] => mark ++ (type ++ (name ++ ['(']))
  | _ => []

/-- `s/..(..)(..)../__stdargs \1\2(/g`, the second substitution. -/
def add (l : Chars) : Chars := subst prototype front l

/-- What the directive makes of a line. -/
def stdargs (l : Chars) : Chars := add (remove l)

/-! ## Taking one out -/

theorem space_not_mem_keyword : ' ' ∉ keyword := by decide

theorem mark_append (l : Chars) : mark ++ l = keyword ++ ' ' :: l := by
  rw [mark, List.append_assoc, List.singleton_append]

theorem mark_ne_nil : mark ≠ [] := by decide

theorem matches_present {t : Chars} {gs : List Chars} :
    present.Matches t gs ↔ ∃ a b, t = a ++ (mark ++ b) ∧ gs = [a, b] := by
  constructor
  · rintro ⟨a, _, _, _, ⟨_, ⟨-, rfl⟩, rfl⟩, ⟨_, _, b, _, ⟨rfl, rfl⟩, ⟨_, ⟨-, rfl⟩, rfl⟩, rfl, rfl⟩,
      rfl, rfl⟩
    exact ⟨a, b, rfl, rfl⟩
  · rintro ⟨a, b, rfl, rfl⟩
    have hany : ∀ t : Chars, any.Matches t [] := fun t => ⟨fun _ _ => rfl, rfl⟩
    exact ⟨a, [a], _, [b], ⟨[], hany a, rfl⟩,
      ⟨mark, [], b, [b], ⟨rfl, rfl⟩, ⟨[], hany b, rfl⟩, rfl, rfl⟩, rfl, rfl⟩

theorem solid_present : present.Solid := by
  intro gs h
  obtain ⟨a, b, hnil, -⟩ := matches_present.mp h
  simp [mark] at hnil

theorem remove_eq_self {l : Chars} (h : ¬ mark <:+: l) : remove l = l := by
  have hquiet : present.Quiet l [] := by
    intro x y hl _
    apply longest_eq_none_iff.mpr
    rintro t gs r hr hm
    obtain ⟨a, b, rfl, -⟩ := matches_present.mp hm
    apply h
    rw [hl, ← List.append_nil y, ← hr]
    exact ⟨x ++ a, b ++ r, by simp⟩
  have hsubst := subst_of_quiet (f := without) hquiet
  have hnil : subst present without [] = [] := rfl
  rwa [List.append_nil, hnil, List.append_nil] at hsubst

theorem remove_eq {a b : Chars} (h : ¬ mark <:+: b) : remove (a ++ (mark ++ b)) = a ++ b := by
  have hab : present.Matches (a ++ (mark ++ b)) [a, b] := matches_present.mpr ⟨a, b, rfl, rfl⟩
  obtain ⟨m, hm⟩ := exists_longest hab (List.append_nil _)
  obtain ⟨hmatch, hline⟩ := matches_of_longest hm
  obtain ⟨a', b', ht, hgs⟩ := matches_present.mp hmatch
  have hrank := not_rank_lt_of_longest hm hab (List.append_nil _)
  have hlength := congrArg List.length hline
  rw [List.length_append] at hlength
  rw [rank_lt_iff, not_or, not_and] at hrank
  have hwhole : m.matched.length = (a ++ (mark ++ b)).length := by omega
  have hrest : m.rest = [] := List.eq_nil_of_length_eq_zero (by omega)
  have ha : a.length ≤ a'.length := by
    have hgroups := hrank.2 hwhole
    rw [hgs] at hgroups
    exact Nat.le_of_not_lt fun hlt => hgroups (List.cons_lt_cons_iff.mpr (Or.inl hlt))
  rw [hrest, List.append_nil, ht, mark_append, mark_append] at hline
  have hsubst : remove (a ++ (mark ++ b)) = without m.groups ++ subst present without m.rest :=
    subst_of_longest solid_present hm
  rw [hsubst, hgs, hrest]
  rcases occurrence_cases space_not_mem_keyword hline with ⟨rfl, rfl⟩ | ⟨w, rfl, -⟩ | ⟨w, -, hb⟩
  · exact List.append_nil _
  · rw [List.length_append, List.length_append] at ha
    have hpos : 0 < keyword.length := by decide
    omega
  · exact absurd ⟨w, b', by rw [hb, List.append_assoc, mark_append]⟩ h

theorem remove_cases (l : Chars) :
    (¬ mark <:+: l ∧ remove l = l) ∨
      ∃ a b, l = a ++ (mark ++ b) ∧ ¬ mark <:+: b ∧ remove l = a ++ b := by
  by_cases h : mark <:+: l
  · obtain ⟨a, b, rfl, hb⟩ := exists_last mark_ne_nil h
    exact Or.inr ⟨a, b, rfl, hb, remove_eq hb⟩
  · exact Or.inl ⟨h, remove_eq_self h⟩

/-! ## Putting one in -/

/-- What the second substitution finds in front of a name: the text ends with a blank,
or with a single `*` behind a blank. -/
def Reached (f : Chars) : Prop :=
  ∃ u c, blank c = true ∧ (f = u ++ [c] ∨ f = u ++ [c, '*'])

theorem Reached.append {f : Chars} (h : Reached f) (x : Chars) : Reached (x ++ f) := by
  obtain ⟨u, c, hc, rfl | rfl⟩ := h
  · exact ⟨x ++ u, c, hc, Or.inl (List.append_assoc x u _).symm⟩
  · exact ⟨x ++ u, c, hc, Or.inr (List.append_assoc x u _).symm⟩

theorem Reached.getLast? {f : Chars} (h : Reached f) : ∀ c ∈ f.getLast?, word c = false := by
  obtain ⟨u, c, hc, rfl | rfl⟩ := h
  · simpa using word_eq_false_of_blank hc
  · intro d hd
    obtain rfl : '*' = d := by simpa using hd
    rfl

/-- A text that ends with a name and blanks. -/
structure Declares (u f n g : Chars) : Prop where
  eq : u = f ++ (n ++ g)
  name : n ≠ [] ∧ ∀ c ∈ n, word c = true
  gap : ∀ c ∈ g, blank c = true

theorem matches_prototype {t : Chars} {gs : List Chars} :
    prototype.Matches t gs ↔ ∃ u f n g, Declares u f n g ∧ Reached f ∧
      t = u ++ ['('] ∧ gs = [f, n] := by
  constructor
  · rintro ⟨f, _, _, _, ⟨_, hf, rfl⟩, ⟨n, _, _, _, ⟨_, hn, rfl⟩, ⟨g, _, _, _, ⟨hg, rfl⟩,
      ⟨rfl, rfl⟩, rfl, rfl⟩, rfl, rfl⟩, rfl, rfl⟩
    obtain ⟨t₁, _, _, _, ⟨-, rfl⟩, ⟨t₂, _, _, _, ⟨-, rfl⟩, ⟨t₃, _, _, _, ⟨-, rfl⟩,
      ⟨t₄, _, _, _, hgap, ⟨t₅, w, t₆, _, hstar, ⟨hblank, rfl⟩, rfl, rfl⟩, rfl, rfl⟩,
        rfl, rfl⟩, rfl, rfl⟩, rfl, rfl⟩ := hf
    rw [matches_plus] at hn hgap
    obtain ⟨hn, rfl⟩ := hn
    obtain ⟨⟨hne, hall⟩, rfl⟩ := hgap
    obtain rfl : w = [] := by rcases hstar with ⟨-, rfl⟩ | ⟨-, rfl⟩ <;> rfl
    have hreached : Reached (t₄ ++ (t₅ ++ t₆)) := by
      rcases List.eq_nil_or_concat t₆ with rfl | ⟨v, c, rfl⟩
      · obtain ⟨v, c, rfl⟩ := (List.eq_nil_or_concat t₄).resolve_left hne
        have hc : blank c = true := hall c (by simp)
        rcases hstar with ⟨rfl, -⟩ | ⟨rfl, -⟩
        · exact ⟨v, c, hc, Or.inr (by simp)⟩
        · exact ⟨v, c, hc, Or.inl (by simp)⟩
      · exact ⟨t₄ ++ (t₅ ++ v), c, hblank c (by simp), Or.inl (by simp)⟩
    refine ⟨_, _, n, g, ⟨rfl, hn, hg⟩, (((hreached.append t₃).append t₂).append t₁), ?_, rfl⟩
    simp
  · rintro ⟨_, f, n, g, ⟨rfl, hn, hg⟩, hreached, rfl, rfl⟩
    have hf : (cat (many word) (cat (many blank) (cat any (cat (plus blank)
        (cat (opt '*') (many blank)))))).Matches f [] := by
      obtain ⟨u, c, hc, hf⟩ := hreached
      have hany : any.Matches u [] := ⟨fun _ _ => rfl, rfl⟩
      have hgap : (plus blank).Matches [c] [] := matches_plus.mpr ⟨by simp [hc], rfl⟩
      have hnone : ∀ p, (many p).Matches [] [] := fun p => ⟨nofun, rfl⟩
      rcases hf with rfl | rfl
      · exact ⟨[], [], _, [], hnone _, ⟨[], [], _, [], hnone _, ⟨u, [], _, [], hany,
          ⟨[c], [], _, [], hgap, ⟨[], [], [], [], Or.inr ⟨rfl, rfl⟩, hnone _, rfl, rfl⟩,
            rfl, rfl⟩, rfl, rfl⟩, rfl, rfl⟩, rfl, rfl⟩
      · exact ⟨[], [], _, [], hnone _, ⟨[], [], _, [], hnone _, ⟨u, [], _, [], hany,
          ⟨[c], [], _, [], hgap, ⟨['*'], [], [], [], Or.inl ⟨rfl, rfl⟩, hnone _, rfl, rfl⟩,
            rfl, rfl⟩, rfl, rfl⟩, rfl, rfl⟩, rfl, rfl⟩
    refine ⟨f, [f], _, [n], ⟨[], hf, rfl⟩, ⟨n, [n], _, [], ⟨[], matches_plus.mpr ⟨hn, rfl⟩, rfl⟩,
      ⟨g, [], ['('], [], ⟨hg, rfl⟩, ⟨rfl, rfl⟩, rfl, rfl⟩, rfl, rfl⟩, ?_, rfl⟩
    simp

theorem solid_prototype : prototype.Solid := by
  intro gs h
  obtain ⟨u, f, n, g, -, -, hnil, -⟩ := matches_prototype.mp h
  simp at hnil

theorem Declares.unique {u f n g f' n' g' : Chars} (h : Declares u f n g)
    (h' : Declares u f' n' g') (hf : ∀ c ∈ f.getLast?, word c = false)
    (hf' : ∀ c ∈ f'.getLast?, word c = false) : f = f' ∧ n = n' ∧ g = g' := by
  have hlast : ∀ {f n g : Chars}, Declares u f n g → ∀ c ∈ (f ++ n).getLast?, blank c = false := by
    intro f n g h c hc
    obtain ⟨n, d, rfl⟩ := (List.eq_nil_or_concat n).resolve_left h.name.1
    have hd := h.name.2 d (by simp)
    obtain rfl : d = c := by simpa using hc
    cases hb : blank d with
    | false => rfl
    | true => rw [word_eq_false_of_blank hb] at hd; cases hd
  have hline : (f ++ n) ++ g = (f' ++ n') ++ g' := by
    rw [List.append_assoc, List.append_assoc, ← h.eq, ← h'.eq]
  obtain ⟨hfn, hg⟩ := append_inj_of_getLast? hline h.gap h'.gap (hlast h) (hlast h')
  obtain ⟨hf, hn⟩ := append_inj_of_getLast? hfn h.name.2 h'.name.2 hf hf'
  exact ⟨hf, hn, hg⟩

theorem exists_paren {l : Chars} (h : l.count '(' = 1) :
    ∃ u k, l = u ++ '(' :: k ∧ '(' ∉ u ∧ '(' ∉ k := by
  have hpos : 0 < l.count '(' := h ▸ Nat.one_pos
  obtain ⟨u, k, rfl, hu⟩ := List.eq_append_cons_of_mem (List.count_pos_iff.mp hpos)
  rw [List.count_append, List.count_cons_self, List.count_eq_zero_of_not_mem hu] at h
  have hk : k.count '(' = 0 := by omega
  exact ⟨u, k, rfl, hu, List.count_eq_zero.mp hk⟩

section Add

variable {u k : Chars}

/-- A match in a line with one parenthesis ends there. -/
theorem longest_prototype {y : Chars} {m : Parse} (hy : '(' ∉ y) (hk : '(' ∉ k)
    (h : prototype.longest (y ++ '(' :: k) = some m) :
    ∃ f n g, Declares y f n g ∧ Reached f ∧ m.groups = [f, n] ∧ m.rest = k := by
  obtain ⟨hm, hl⟩ := matches_of_longest h
  obtain ⟨v, f, n, g, hd, hf, ht, hgs⟩ := matches_prototype.mp hm
  rw [ht, List.append_assoc, List.singleton_append] at hl
  have hcount := congrArg (List.count '(') hl
  rw [List.count_append, List.count_append, List.count_cons_self, List.count_cons_self,
    List.count_eq_zero_of_not_mem hy, List.count_eq_zero_of_not_mem hk] at hcount
  have hv : v.count '(' = 0 := by omega
  rcases append_cons_cases hl with ⟨rfl, -, hrest⟩ | hmem | hmem
  · exact ⟨f, n, g, hd, hf, hgs, hrest⟩
  · exact absurd hmem (List.count_eq_zero.mp hv)
  · exact absurd hmem hy

theorem add_eq_self_of_not_mem (h : '(' ∉ k) : add k = k := by
  have hquiet : prototype.Quiet k [] := by
    intro x y hxy _
    apply longest_eq_none_iff.mpr
    intro t gs r hr hm
    obtain ⟨v, f, n, g, -, -, rfl, -⟩ := matches_prototype.mp hm
    apply h
    rw [hxy, ← List.append_nil y, ← hr]
    simp
  have hsubst := subst_of_quiet (f := front) hquiet
  have hnil : subst prototype front [] = [] := rfl
  rwa [List.append_nil, hnil, List.append_nil] at hsubst

/-- A line whose name stands behind blanks or a `*` is marked in front. -/
theorem add_eq {f n g : Chars} (hd : Declares u f n g) (hf : Reached f) (hu : '(' ∉ u)
    (hk : '(' ∉ k) : add (u ++ '(' :: k) = mark ++ (f ++ (n ++ '(' :: k)) := by
  have hmatch : prototype.Matches (u ++ ['(']) [f, n] :=
    matches_prototype.mpr ⟨u, f, n, g, hd, hf, rfl, rfl⟩
  have hline : (u ++ ['(']) ++ k = u ++ '(' :: k := by simp
  obtain ⟨m, hm⟩ := exists_longest hmatch hline
  obtain ⟨f', n', g', hd', hf', hgs, hrest⟩ := longest_prototype hu hk hm
  obtain ⟨rfl, rfl, rfl⟩ := hd.unique hd' hf.getLast? hf'.getLast?
  have hsubst : add (u ++ '(' :: k) = front m.groups ++ subst prototype front m.rest :=
    subst_of_longest solid_prototype hm
  have htail := add_eq_self_of_not_mem hk
  rw [add] at htail
  rw [hsubst, hgs, hrest, htail, front]
  simp

theorem add_eq_self (h : ∀ f n g, Declares u f n g → ¬ Reached f) (hu : '(' ∉ u)
    (hk : '(' ∉ k) : add (u ++ '(' :: k) = u ++ '(' :: k := by
  have hnone : ∀ x y, u = x ++ y → prototype.longest (y ++ '(' :: k) = none := by
    intro x y hxy
    cases hm : prototype.longest (y ++ '(' :: k) with
    | none => rfl
    | some m =>
        have hy : '(' ∉ y := fun hmem => hu (hxy ▸ List.mem_append_right x hmem)
        obtain ⟨f, n, g, hd, hf, -⟩ := longest_prototype hy hk hm
        have hd' : Declares u (x ++ f) n g :=
          ⟨by rw [hxy, hd.eq, List.append_assoc], hd.name, hd.gap⟩
        exact absurd (hf.append x) (h _ _ _ hd')
  have hquiet : prototype.Quiet u ('(' :: k) := fun x y hxy _ => hnone x y hxy
  have hparen := hnone u [] (List.append_nil u).symm
  rw [List.nil_append] at hparen
  have htail := add_eq_self_of_not_mem hk
  rw [add] at htail
  rw [add, subst_of_quiet hquiet, subst_cons_of_none hparen, htail]

end Add

theorem add_cases {l : Chars} (h : l.count '(' = 1) :
    add l = l ∨ ∃ u k f n g, l = u ++ '(' :: k ∧ Declares u f n g ∧ Reached f ∧
      add l = mark ++ (f ++ (n ++ '(' :: k)) := by
  obtain ⟨u, k, rfl, hu, hk⟩ := exists_paren h
  by_cases hd : ∃ f n g, Declares u f n g ∧ Reached f
  · obtain ⟨f, n, g, hd, hf⟩ := hd
    exact Or.inr ⟨u, k, f, n, g, rfl, hd, hf, add_eq hd hf hu hk⟩
  · left
    apply add_eq_self _ hu hk
    intro f n g hd' hf
    exact hd ⟨f, n, g, hd', hf⟩

/-! ## Lexemes -/

theorem lexemes_mark_append (l : Chars) : lexemes (mark ++ l) = keyword :: lexemes l := by
  have hboundary : Boundary mark l := by
    intro c hc d _
    obtain rfl : ' ' = c := by simpa [mark] using hc
    exact Or.inl rfl
  rw [lexemes_append hboundary]
  rfl

theorem lexemes_close {u f n g : Chars} (h : Declares u f n g) (k : Chars) :
    lexemes (f ++ (n ++ '(' :: k)) = lexemes (u ++ '(' :: k) := by
  have hopen : Boundary (f ++ n) ('(' :: k) := by
    intro c _ d hd
    obtain rfl : '(' = d := Option.some.inj hd
    exact Or.inr rfl
  have hgap : Boundary (f ++ n) (g ++ '(' :: k) := by
    cases hg : g with
    | nil => exact hopen
    | cons d g' =>
        intro c _ e he
        obtain rfl : d = e := Option.some.inj he
        exact Or.inr (word_eq_false_of_blank (h.gap d (hg ▸ List.mem_cons_self)))
  have hline : u ++ '(' :: k = (f ++ n) ++ (g ++ '(' :: k) := by simp [h.eq]
  rw [hline, ← List.append_assoc, lexemes_append hopen, lexemes_append hgap,
    lexemes_gap_append h.gap]

theorem unblank_eq_of_lexemes {l l' : Chars} (h : lexemes l = lexemes l') :
    unblank l = unblank l' := by
  rw [← flatten_lexemes, ← flatten_lexemes, h]

/-- The keyword is a lexeme where it has no word character in front of it. -/
theorem keyword_mem_lexemes {a : Chars} (ha : ∀ c ∈ a.getLast?, word c = false) (b : Chars) :
    keyword ∈ lexemes (a ++ (mark ++ b)) := by
  have hboundary : Boundary a (mark ++ b) := fun c hc _ _ => Or.inl (ha c hc)
  rw [lexemes_append hboundary, lexemes_mark_append]
  exact List.mem_append_right _ List.mem_cons_self

theorem count_paren_remove (l : Chars) : (remove l).count '(' = l.count '(' := by
  rcases remove_cases l with ⟨-, hsame⟩ | ⟨a, b, rfl, -, hremove⟩
  · rw [hsame]
  · have hmark : mark.count '(' = 0 := by decide
    rw [hremove, List.count_append, List.count_append, List.count_append, hmark, Nat.zero_add]

/-- `__stdargs ` does not occur across a place behind a character that no identifier
has, or in front of a parenthesis. -/
theorem infix_mark_cases {a b : Chars} (h : mark <:+: a ++ b)
    (hcut : (∀ x ∈ a.getLast?, word x = false) ∨ ∀ y ∈ b.head?, y = '(') :
    mark <:+: a ∨ mark <:+: b := by
  apply infix_append_cases h
  intro x hx y hy hxy
  rcases hcut with hword | hparen
  · have hmem : x ∈ keyword := by
      rcases List.infix_concat_iff.mp hxy with ⟨t, ht⟩ | hin
      · have hcut : (t ++ [x]) ++ [y] = keyword ++ [' '] := by simpa using ht
        rw [← List.append_inj_left' hcut rfl]
        simp
      · exact hin.subset List.mem_cons_self
    have hall : ∀ c ∈ keyword, word c = true := forall_mem_of_all rfl
    exact absurd (hword x hx) (by rw [hall x hmem]; decide)
  · obtain rfl := hparen y hy
    exact absurd (hxy.subset (List.mem_cons_of_mem x List.mem_cons_self)) (by decide)

/-! ## Prototypes -/

/-- `TYPE NAME(ARGS);`, with or without a `__stdargs ` of its own in front of NAME.
There may be blanks in front of the parenthesis. -/
structure Prototype where
  /-- the type in front of the `__stdargs ` -/
  before : Chars
  given : Chars
  after : Chars
  name : Chars
  gap : Chars
  args : Chars
  type_chars : ∀ c ∈ before ++ after, word c = true ∨ blank c = true ∨ c = '*'
  type_end : ∀ c ∈ (before ++ after).getLast?, word c = false
  given_eq : given = [] ∨ given = mark
  given_apart : given = mark → ∀ c ∈ before.getLast?, word c = false
  name_word : name ≠ [] ∧ ∀ c ∈ name, word c = true
  gap_blank : ∀ c ∈ gap, blank c = true
  args_flat : '(' ∉ args ∧ ')' ∉ args

namespace Prototype

variable (p : Prototype)

/-- What follows the `__stdargs `. -/
def tail : Chars := p.after ++ (p.name ++ (p.gap ++ '(' :: (p.args ++ [')', ';'])))

def line : Chars := p.before ++ (p.given ++ p.tail)

/-- The line without its `__stdargs `. -/
def bare : Chars := p.before ++ p.tail

/-- Type, name and blanks, without the `__stdargs `. -/
def head : Chars := p.before ++ (p.after ++ (p.name ++ p.gap))

def rest : Chars := p.args ++ [')', ';']

/-- The line without its `__stdargs ` and without blanks in front of the parenthesis. -/
def closed : Chars := (p.before ++ p.after) ++ (p.name ++ '(' :: p.rest)

theorem bare_eq : p.bare = p.head ++ '(' :: p.rest := by simp [bare, tail, head, rest]

theorem declares : Declares p.head (p.before ++ p.after) p.name p.gap :=
  ⟨by simp [head], p.name_word, p.gap_blank⟩

theorem paren_not_mem_head : '(' ∉ p.head := by
  have htype : '(' ∉ p.before ++ p.after := fun h => absurd (p.type_chars _ h) (by decide)
  have hname : '(' ∉ p.name := fun h => absurd (p.name_word.2 _ h) (by decide)
  have hgap : '(' ∉ p.gap := fun h => absurd (p.gap_blank _ h) (by decide)
  rw [p.declares.eq]
  exact List.not_mem_append htype (List.not_mem_append hname hgap)

theorem paren_not_mem_front : '(' ∉ (p.before ++ p.after) ++ p.name := by
  intro hmem
  apply p.paren_not_mem_head
  rw [p.declares.eq, ← List.append_assoc]
  exact List.mem_append_left _ hmem

theorem paren_not_mem_rest : '(' ∉ p.rest := List.not_mem_append p.args_flat.1 (by decide)

theorem count_paren_bare : p.bare.count '(' = 1 := by
  rw [bare_eq, List.count_append, List.count_cons_self,
    List.count_eq_zero_of_not_mem p.paren_not_mem_head,
    List.count_eq_zero_of_not_mem p.paren_not_mem_rest]

theorem count_paren_closed : p.closed.count '(' = 1 := by
  rw [closed, ← List.append_assoc, List.count_append, List.count_cons_self,
    List.count_eq_zero_of_not_mem p.paren_not_mem_front,
    List.count_eq_zero_of_not_mem p.paren_not_mem_rest]

theorem lexemes_closed : lexemes p.closed = lexemes p.bare := by
  rw [closed, lexemes_close p.declares, p.bare_eq]

theorem count_paren_line : p.line.count '(' = 1 := by
  have hgiven : p.given.count '(' = 0 := by
    rcases p.given_eq with h | h <;> rw [h] <;> decide
  rw [← p.count_paren_bare, line, bare, List.count_append, List.count_append, List.count_append,
    hgiven, Nat.zero_add]

end Prototype

/-- The directive yields the prototype with one `__stdargs`, in front, and does nothing
when it is applied again. -/
structure Converted (p : Prototype) : Prop where
  front : lexemes (stdargs p.line) = keyword :: lexemes p.bare
  once : (lexemes (stdargs p.line)).count keyword = 1
  again : stdargs (stdargs p.line) = stdargs p.line

/-- The name stands behind a blank, or behind a single `*` that stands behind a blank,
and there is no other `__stdargs`. -/
structure Plain (p : Prototype) : Prop where
  reached : Reached (p.before ++ p.after)
  unmarked : ¬ mark <:+: p.bare
  unnamed : keyword ∉ lexemes p.bare

section Plain

variable {p : Prototype}

theorem Plain.remove_line (h : Plain p) : remove p.line = p.bare := by
  rcases p.given_eq with hgiven | hgiven
  · have hline : p.line = p.bare := by rw [Prototype.line, hgiven, List.nil_append, Prototype.bare]
    rw [hline, remove_eq_self h.unmarked]
  · have htail : ¬ mark <:+: p.tail := fun hi => h.unmarked (hi.trans List.infix_append_right)
    rw [Prototype.line, hgiven, remove_eq htail, Prototype.bare]

theorem add_bare (h : Reached (p.before ++ p.after)) : add p.bare = mark ++ p.closed := by
  rw [p.bare_eq, add_eq p.declares h p.paren_not_mem_head p.paren_not_mem_rest, Prototype.closed]

/-- Another `__stdargs ` of the line with `__stdargs ` in front was there before. -/
theorem infix_bare_of_infix_closed (h : mark <:+: p.closed) : mark <:+: p.bare := by
  rw [Prototype.closed, ← List.append_assoc] at h
  have hcut : ∀ y ∈ ('(' :: p.rest).head?, y = '(' := fun y hy => (Option.some.inj hy).symm
  rcases infix_mark_cases h (Or.inr hcut) with hfront | hback
  · refine hfront.trans ⟨[], p.gap ++ '(' :: p.rest, ?_⟩
    simp [p.bare_eq, p.declares.eq]
  · exact hback.trans ⟨p.head, [], by simp [p.bare_eq]⟩

theorem converted_of_plain (h : Plain p) : Converted p := by
  have hline : stdargs p.line = mark ++ p.closed := by
    rw [stdargs, h.remove_line, add_bare h.reached]
  have hfront : lexemes (stdargs p.line) = keyword :: lexemes p.bare := by
    rw [hline, lexemes_mark_append, p.lexemes_closed]
  refine ⟨hfront, ?_, ?_⟩
  · rw [hfront, List.count_cons_self, List.count_eq_zero_of_not_mem h.unnamed]
  · have hdeclares : Declares ((p.before ++ p.after) ++ p.name) (p.before ++ p.after) p.name [] :=
      ⟨by simp, p.name_word, nofun⟩
    have hremove : remove (mark ++ p.closed) = p.closed := by
      rw [← List.nil_append (mark ++ _),
        remove_eq fun hi => h.unmarked (infix_bare_of_infix_closed hi), List.nil_append]
    have hadd : add p.closed = mark ++ p.closed := by
      rw [Prototype.closed, ← List.append_assoc,
        add_eq hdeclares h.reached p.paren_not_mem_front p.paren_not_mem_rest]
      simp
    rw [hline, stdargs, hremove, hadd]

end Plain

section Converted

variable {p : Prototype}

/-- Where a second `__stdargs ` is left in a line, the line changes again, or it starts
with `__stdargs` twice. -/
theorem keyword_mem_of_again {y : Chars} (hy : y.count '(' = 1) (h : mark <:+: y)
    (hagain : stdargs (mark ++ y) = mark ++ y) : keyword ∈ lexemes y := by
  obtain ⟨a, b, rfl, hb⟩ := exists_last mark_ne_nil h
  have hremove : remove (mark ++ (a ++ (mark ++ b))) = mark ++ (a ++ b) := by
    rw [← List.append_assoc mark, remove_eq hb, List.append_assoc]
  have hcount : (mark ++ (a ++ b)).count '(' = 1 := by
    rw [← hy]
    simp only [List.count_append]
    omega
  rw [stdargs, hremove] at hagain
  rcases add_cases hcount with hsame | ⟨u, k, f, n, g, hline, hd, -, hadd⟩
  · rw [hsame] at hagain
    have hlength := congrArg List.length hagain
    have hmark : mark.length = 10 := rfl
    simp only [List.length_append, hmark] at hlength
    omega
  · have hy : f ++ (n ++ '(' :: k) = a ++ (mark ++ b) :=
      List.append_cancel_left (hadd.symm.trans hagain)
    rw [← hy, lexemes_close hd, ← hline, lexemes_mark_append]
    exact List.mem_cons_self

theorem length_unblank_remove (l : Chars) :
    (unblank (remove l)).length + (if mark <:+: l then 9 else 0) = (unblank l).length := by
  rcases remove_cases l with ⟨hnone, hsame⟩ | ⟨a, b, rfl, -, hremove⟩
  · rw [if_neg hnone, hsame, Nat.add_zero]
  · have hmark : (unblank mark).length = 9 := rfl
    have hin : mark <:+: a ++ (mark ++ b) := ⟨a, b, List.append_assoc a mark b⟩
    rw [if_pos hin, hremove, unblank_append, unblank_append, unblank_append, List.length_append,
      List.length_append, List.length_append, hmark]
    omega

theorem length_unblank_line : (unblank p.line).length =
    (unblank p.bare).length + (unblank p.given).length := by
  rw [Prototype.line, Prototype.bare, unblank_append, unblank_append, unblank_append,
    List.length_append, List.length_append, List.length_append]
  omega

theorem remove_line_of_lexemes (h : lexemes (remove p.line) = lexemes p.bare)
    (hnone : keyword ∉ lexemes p.bare) :
    remove p.line = p.bare ∧ (p.given = [] → ¬ mark <:+: p.bare) ∧
      (p.given = mark → ¬ mark <:+: p.tail) := by
  have hlength := length_unblank_remove p.line
  rw [unblank_eq_of_lexemes h, length_unblank_line] at hlength
  rcases p.given_eq with hgiven | hgiven
  · have hline : p.line = p.bare := by rw [Prototype.line, hgiven, List.nil_append, Prototype.bare]
    have hbare : ¬ mark <:+: p.bare := by
      intro hin
      rw [hline, if_pos hin, hgiven] at hlength
      simp [unblank] at hlength
    refine ⟨?_, fun _ => hbare, fun hmark => ?_⟩
    · rw [hline, remove_eq_self hbare]
    · exact absurd (hgiven.symm.trans hmark).symm mark_ne_nil
  · have hline : p.line = p.before ++ (mark ++ p.tail) := by rw [Prototype.line, hgiven]
    rcases remove_cases p.line with ⟨hnot, -⟩ | ⟨a, b, hab, hb, hremove⟩
    · exact absurd ⟨p.before, p.tail, by rw [hline, List.append_assoc]⟩ hnot
    · have hsame : p.before ++ (keyword ++ ' ' :: p.tail) = a ++ (keyword ++ ' ' :: b) := by
        rw [← mark_append, ← mark_append, ← hline, hab]
      rcases occurrence_cases space_not_mem_keyword hsame with ⟨rfl, rfl⟩ | ⟨w, rfl, -⟩ | ⟨w, -, hw⟩
      · refine ⟨hremove, fun hnil => absurd (hgiven.symm.trans hnil) mark_ne_nil, fun _ => hb⟩
      · rw [← mark_append, List.append_assoc, List.append_assoc] at hremove
        rw [← h, hremove] at hnone
        exact absurd (keyword_mem_lexemes (p.given_apart hgiven) (w ++ b)) hnone
      · exact absurd ⟨w, p.tail, by rw [hw, List.append_assoc, mark_append]⟩ hb

/-- The second substitution has put its `__stdargs ` in. -/
theorem add_ne_self_of_converted (h : Converted p) : add (remove p.line) ≠ remove p.line := by
  intro hsame
  have hfront := congrArg (fun ws : List Chars => ws.flatten.length) h.front
  simp only [List.flatten_cons, flatten_lexemes, List.length_append, stdargs, hsame] at hfront
  have hkeyword : keyword.length = 9 := rfl
  have hlength := length_unblank_remove p.line
  rw [length_unblank_line] at hlength
  rcases p.given_eq with hgiven | hgiven
  · have hnil : (unblank p.given).length = 0 := by rw [hgiven]; rfl
    omega
  · have hmark : (unblank p.given).length = 9 := by rw [hgiven]; rfl
    have hin : mark <:+: p.line := ⟨p.before, p.tail, by
      rw [Prototype.line, hgiven, List.append_assoc]⟩
    rw [if_pos hin] at hlength
    omega

theorem plain_of_converted (h : Converted p) : Plain p := by
  have hnone : keyword ∉ lexemes p.bare := by
    have hcount := h.once
    rw [h.front, List.count_cons_self] at hcount
    have hzero : (lexemes p.bare).count keyword = 0 := by omega
    exact List.count_eq_zero.mp hzero
  have hadd := add_ne_self_of_converted h
  have hcount : (remove p.line).count '(' = 1 := (count_paren_remove _).trans p.count_paren_line
  obtain ⟨u, k, f, n, g, hline, hd, -, hput⟩ := (add_cases hcount).resolve_left hadd
  have hlexemes : lexemes (remove p.line) = lexemes p.bare := by
    have hfront := h.front
    rw [stdargs, hput, lexemes_mark_append, lexemes_close hd, ← hline] at hfront
    exact (List.cons.inj hfront).2
  obtain ⟨hremove, hbare, htail⟩ := remove_line_of_lexemes hlexemes hnone
  have hreached : Reached (p.before ++ p.after) := by
    by_contra hno
    apply hadd
    rw [hremove, p.bare_eq]
    apply add_eq_self _ p.paren_not_mem_head p.paren_not_mem_rest
    intro f' n' g' hd' hf'
    obtain ⟨rfl, -, -⟩ := hd'.unique p.declares hf'.getLast? p.type_end
    exact hno hf'
  refine ⟨hreached, ?_, hnone⟩
  rcases p.given_eq with hgiven | hgiven
  · exact hbare hgiven
  · intro hin
    rcases infix_mark_cases hin (Or.inl (p.given_apart hgiven)) with hbefore | htail'
    · have hclosed : mark <:+: p.closed :=
        hbefore.trans ⟨[], p.after ++ (p.name ++ '(' :: p.rest), by simp [Prototype.closed]⟩
      have hagain := h.again
      rw [stdargs.eq_def p.line, hremove, add_bare hreached] at hagain
      have hmem := keyword_mem_of_again p.count_paren_closed hclosed hagain
      rw [p.lexemes_closed] at hmem
      exact hnone hmem
    · exact htail hgiven htail'

end Converted

/-- The directive does what it should for a prototype if and only if the prototype is
plain. -/
theorem stdargs_converts_iff (p : Prototype) : Converted p ↔ Plain p :=
  ⟨plain_of_converted, converted_of_plain⟩

/-- `char **f(void);` -/
def doublePointer : Prototype where
  before := "char **".toList
  given := []
  after := []
  name := ['f']
  gap := []
  args := "void".toList
  type_chars := forall_mem_of_all rfl
  type_end := by rintro _ ⟨⟩; rfl
  given_eq := Or.inl rfl
  given_apart := fun h => absurd h.symm mark_ne_nil
  name_word := ⟨by decide, forall_mem_of_all rfl⟩
  gap_blank := nofun
  args_flat := by decide

/-- Two `*` in a row are not found, and the function goes without `__stdargs`. -/
theorem stdargs_misses_doublePointer : ¬ Converted doublePointer := by
  intro h
  obtain ⟨u, c, hc, hu | hu⟩ := (plain_of_converted h).reached
  · have hlast := congrArg List.getLast? hu
    rw [List.getLast?_concat] at hlast
    obtain rfl : '*' = c := Option.some.inj hlast
    cases hc
  · have hlast := congrArg (fun l : Chars => l.dropLast.getLast?) hu
    have hdrop : (u ++ [c, '*']).dropLast = u ++ [c] := by
      rw [List.dropLast_append_of_ne_nil (List.cons_ne_nil c _)]
      rfl
    simp only [hdrop, List.getLast?_concat] at hlast
    obtain rfl : '*' = c := Option.some.inj hlast
    cases hc

end Stdargs

end Sdk

end AmigaGcc
