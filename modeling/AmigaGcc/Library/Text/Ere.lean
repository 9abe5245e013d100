import Mathlib.Data.List.Infix
import Mathlib.Data.List.Lex
import Mathlib.Data.List.MinMax
import AmigaGcc.Library.Text.Fields

/-!
# Substitution by an extended regular expression

What `sed -E 's/e/../g'` makes of a line. `Matches e t gs` says which texts an
expression matches and what its groups take of them; `parses` lists the matches at
the start of a line and `longest` is the one that is taken, by the rule of POSIX: the
longest match, and among these the one whose groups are longest, from left to right.
`subst` replaces from left to right, each time behind the last match.

Repetitions are of single characters, and there are no anchors, so that a match does
not depend on what is around it. The rules for `subst` are for expressions that do
not match the empty text (`Solid`).
-/

namespace Library

namespace Text

inductive Ere where
  /-- A bracket expression, or the dot. -/
  | one (p : Char → Bool)
  /-- A text that stands for itself. -/
  | text (t : Chars)
  /-- `p*` -/
  | many (p : Char → Bool)
  | cat (e f : Ere)
  | alt (e f : Ere)
  /-- `(e)` -/
  | group (e : Ere)

namespace Ere

/-- `p+` -/
def plus (p : Char → Bool) : Ere := cat (one p) (many p)

/-- `c?` -/
def opt (c : Char) : Ere := alt (text [c]) (text [])

/-- `.*` -/
def any : Ere := many fun _ => true

/-- The expression matches the text, and these are its groups. -/
def Matches : Ere → Chars → List Chars → Prop
  | one p, t, gs => (∃ c, p c = true ∧ t = [c]) ∧ gs = []
  | text s, t, gs => t = s ∧ gs = []
  | many p, t, gs => (∀ c ∈ t, p c = true) ∧ gs = []
  | cat e f, t, gs => ∃ t₁ g₁ t₂ g₂, e.Matches t₁ g₁ ∧ f.Matches t₂ g₂ ∧
      t = t₁ ++ t₂ ∧ gs = g₁ ++ g₂
  | alt e f, t, gs => e.Matches t gs ∨ f.Matches t gs
  | group e, t, gs => ∃ g, e.Matches t g ∧ gs = t :: g

structure Parse where
  matched : Chars
  groups : List Chars
  rest : Chars

def parses : Ere → Chars → List Parse
  | one _, [] => []
  | one p, c :: l => if p c then [⟨[c], [], l⟩] else []
  | text t, l => if t <+: l then [⟨t, [], l.drop t.length⟩] else []
  | many p, l => (l.takeWhile p).inits.map fun t => ⟨t, [], l.drop t.length⟩
  | cat e f, l => (e.parses l).flatMap fun m => (f.parses m.rest).map fun n =>
      ⟨m.matched ++ n.matched, m.groups ++ n.groups, n.rest⟩
  | alt e f, l => e.parses l ++ f.parses l
  | group e, l => (e.parses l).map fun m => { m with groups := m.matched :: m.groups }

/-- What is compared: the length of the match, and those of its groups. -/
def rank (t : Chars) (gs : List Chars) : List ℕ := t.length :: gs.map List.length

def longest (e : Ere) (l : Chars) : Option Parse :=
  (e.parses l).argmax fun m => rank m.matched m.groups

/-- The rest of a line, when the first `k` characters belong to the last match. -/
def substFrom (e : Ere) (f : List Chars → Chars) : ℕ → Chars → Chars
  | _, [] => []
  | k + 1, _ :: l => substFrom e f k l
  | 0, c :: l =>
      match e.longest (c :: l) with
      | none => c :: substFrom e f 0 l
      | some m => f m.groups ++ substFrom e f (m.matched.length - 1) l

/-- `s/e/f/g` -/
def subst (e : Ere) (f : List Chars → Chars) (l : Chars) : Chars := substFrom e f 0 l

/-! ## Matches at the start of a line -/

theorem matches_plus {p : Char → Bool} {t : Chars} {gs : List Chars} :
    (plus p).Matches t gs ↔ (t ≠ [] ∧ ∀ c ∈ t, p c = true) ∧ gs = [] := by
  constructor
  · rintro ⟨t₁, g₁, t₂, g₂, ⟨⟨c, hc, rfl⟩, rfl⟩, ⟨hall, rfl⟩, rfl, rfl⟩
    exact ⟨⟨List.cons_ne_nil c t₂, List.forall_mem_cons.mpr ⟨hc, hall⟩⟩, rfl⟩
  · rintro ⟨⟨hne, hall⟩, rfl⟩
    cases t with
    | nil => exact absurd rfl hne
    | cons c t =>
        obtain ⟨hc, ht⟩ := List.forall_mem_cons.mp hall
        exact ⟨[c], [], t, [], ⟨⟨c, hc, rfl⟩, rfl⟩, ⟨ht, rfl⟩, rfl, rfl⟩

theorem prefix_takeWhile_iff {p : Char → Bool} {t l : Chars} :
    t <+: l.takeWhile p ↔ t <+: l ∧ ∀ c ∈ t, p c = true := by
  constructor
  · intro h
    exact ⟨h.trans (List.takeWhile_prefix p), fun c hc => List.mem_takeWhile_imp (h.subset hc)⟩
  · rintro ⟨⟨r, rfl⟩, hall⟩
    rw [List.takeWhile_append_of_pos hall]
    exact List.prefix_append t _

theorem mem_parses {e : Ere} {l : Chars} {m : Parse} :
    m ∈ e.parses l ↔ e.Matches m.matched m.groups ∧ m.matched ++ m.rest = l := by
  induction e generalizing l m with
  | one p =>
      obtain ⟨t, gs, r⟩ := m
      cases l with
      | nil =>
          simp only [parses, List.not_mem_nil, Matches, false_iff, not_and, List.append_eq_nil_iff]
          rintro ⟨⟨c, -, rfl⟩, -⟩ hnil
          cases hnil
      | cons c l =>
          simp only [parses, Matches]
          constructor
          · intro h
            split at h
            · next hc =>
                cases List.mem_singleton.mp h
                exact ⟨⟨⟨c, hc, rfl⟩, rfl⟩, rfl⟩
            · cases h
          · rintro ⟨⟨⟨d, hd, rfl⟩, rfl⟩, hl⟩
            cases hl
            rw [if_pos hd]
            exact List.mem_singleton_self _
  | text s =>
      obtain ⟨t, gs, r⟩ := m
      simp only [parses, Matches]
      constructor
      · intro h
        split at h
        · next hs =>
            cases List.mem_singleton.mp h
            exact ⟨⟨rfl, rfl⟩, (List.prefix_iff_eq_append.mp hs)⟩
        · cases h
      · rintro ⟨⟨rfl, rfl⟩, rfl⟩
        rw [if_pos (List.prefix_append t r), List.drop_left]
        exact List.mem_singleton_self _
  | many p =>
      obtain ⟨t, gs, r⟩ := m
      simp only [parses, Matches, List.mem_map, List.mem_inits, prefix_takeWhile_iff]
      constructor
      · rintro ⟨u, ⟨hu, hall⟩, h⟩
        cases h
        exact ⟨⟨hall, rfl⟩, List.prefix_iff_eq_append.mp hu⟩
      · rintro ⟨⟨hall, rfl⟩, rfl⟩
        exact ⟨t, ⟨List.prefix_append t r, hall⟩, by rw [List.drop_left]⟩
  | cat e f he hf =>
      obtain ⟨t, gs, r⟩ := m
      simp only [parses, Matches, List.mem_flatMap, List.mem_map]
      constructor
      · rintro ⟨m, hm, n, hn, h⟩
        cases h
        obtain ⟨hme, hml⟩ := he.mp hm
        obtain ⟨hne, hnl⟩ := hf.mp hn
        refine ⟨⟨_, _, _, _, hme, hne, rfl, rfl⟩, ?_⟩
        rw [List.append_assoc, hnl, hml]
      · rintro ⟨⟨t₁, g₁, t₂, g₂, h₁, h₂, rfl, rfl⟩, rfl⟩
        refine ⟨⟨t₁, g₁, t₂ ++ r⟩, he.mpr ⟨h₁, ?_⟩, ⟨t₂, g₂, r⟩, hf.mpr ⟨h₂, rfl⟩, rfl⟩
        rw [List.append_assoc]
  | alt e f he hf =>
      rw [parses, List.mem_append, he, hf, Matches, or_and_right]
  | group e he =>
      obtain ⟨t, gs, r⟩ := m
      simp only [parses, Matches, List.mem_map]
      constructor
      · rintro ⟨m, hm, h⟩
        cases h
        obtain ⟨hme, hml⟩ := he.mp hm
        exact ⟨⟨m.groups, hme, rfl⟩, hml⟩
      · rintro ⟨⟨g, hg, rfl⟩, hl⟩
        exact ⟨⟨t, g, r⟩, he.mpr ⟨hg, hl⟩, rfl⟩

section Longest

variable {e : Ere} {l : Chars} {m : Parse}

theorem matches_of_longest (h : e.longest l = some m) :
    e.Matches m.matched m.groups ∧ m.matched ++ m.rest = l :=
  mem_parses.mp (List.argmax_mem h)

theorem not_rank_lt_of_longest (h : e.longest l = some m) {t r : Chars} {gs : List Chars}
    (ht : e.Matches t gs) (hl : t ++ r = l) : ¬ rank m.matched m.groups < rank t gs := by
  have hmem : (⟨t, gs, r⟩ : Parse) ∈ e.parses l := mem_parses.mpr ⟨ht, hl⟩
  exact List.not_lt_of_mem_argmax hmem h

/-- A longer match ranks higher, and of two matches of one length the one with the
longer groups. -/
theorem rank_lt_iff {t t' : Chars} {gs gs' : List Chars} :
    rank t gs < rank t' gs' ↔ t.length < t'.length ∨
      (t.length = t'.length ∧ gs.map List.length < gs'.map List.length) :=
  List.cons_lt_cons_iff

theorem longest_eq_none_iff :
    e.longest l = none ↔ ∀ t gs r, t ++ r = l → ¬ e.Matches t gs := by
  rw [longest, List.argmax_eq_none, List.eq_nil_iff_forall_not_mem]
  constructor
  · intro h t gs r hl ht
    exact h ⟨t, gs, r⟩ (mem_parses.mpr ⟨ht, hl⟩)
  · intro h m hm
    obtain ⟨ht, hl⟩ := mem_parses.mp hm
    exact h _ _ _ hl ht

theorem exists_longest {t r : Chars} {gs : List Chars} (ht : e.Matches t gs)
    (hl : t ++ r = l) : ∃ m, e.longest l = some m := by
  apply Option.ne_none_iff_exists'.mp
  intro hnone
  exact longest_eq_none_iff.mp hnone t gs r hl ht

end Longest

/-! ## Substitution -/

def Solid (e : Ere) : Prop := ∀ gs, ¬ e.Matches [] gs

section Subst

variable {e : Ere} {f : List Chars → Chars}

theorem substFrom_eq_drop (k : ℕ) (l : Chars) : substFrom e f k l = subst e f (l.drop k) := by
  induction k generalizing l with
  | zero => rfl
  | succ k ih =>
      cases l with
      | nil => simp [substFrom, subst]
      | cons c l => rw [substFrom, ih, List.drop_succ_cons]

theorem subst_cons_of_none {c : Char} {l : Chars} (h : e.longest (c :: l) = none) :
    subst e f (c :: l) = c :: subst e f l := by
  rw [subst, substFrom, h]
  rfl

theorem subst_of_longest (hsolid : e.Solid) {l : Chars} {m : Parse}
    (h : e.longest l = some m) : subst e f l = f m.groups ++ subst e f m.rest := by
  obtain ⟨hm, hl⟩ := matches_of_longest h
  obtain ⟨t, gs, r⟩ := m
  cases t with
  | nil => exact absurd hm (hsolid gs)
  | cons c t =>
      obtain rfl : c :: (t ++ r) = l := hl
      rw [subst, substFrom, h]
      simp only [List.length_cons, Nat.add_sub_cancel]
      rw [substFrom_eq_drop, List.drop_left]

/-- No match starts in the first part of a line. -/
def Quiet (e : Ere) (u r : Chars) : Prop :=
  ∀ x y, u = x ++ y → y ≠ [] → e.longest (y ++ r) = none

theorem subst_of_quiet {u r : Chars} (h : e.Quiet u r) :
    subst e f (u ++ r) = u ++ subst e f r := by
  induction u with
  | nil => rfl
  | cons c u ih =>
      have hhere : e.longest (c :: (u ++ r)) = none := h [] (c :: u) rfl (List.cons_ne_nil c u)
      have hthere : e.Quiet u r := fun x y hu hy => h (c :: x) y (by rw [hu, List.cons_append]) hy
      rw [List.cons_append, subst_cons_of_none hhere, ih hthere, List.cons_append]

/-- Either no match starts in the first part of a line, or the first of those is taken. -/
theorem subst_append (hsolid : e.Solid) (u r : Chars) :
    e.Quiet u r ∨ ∃ x y m, u = x ++ y ∧ y ≠ [] ∧ e.longest (y ++ r) = some m ∧
      subst e f (u ++ r) = x ++ (f m.groups ++ subst e f m.rest) := by
  induction u with
  | nil =>
      left
      intro x y hu hy
      exact absurd (List.append_eq_nil_iff.mp hu.symm).2 hy
  | cons c u ih =>
      cases hhere : e.longest (c :: (u ++ r)) with
      | some m =>
          refine Or.inr ⟨[], c :: u, m, rfl, List.cons_ne_nil c u, hhere, ?_⟩
          exact subst_of_longest hsolid hhere
      | none =>
          rcases ih with hquiet | ⟨x, y, m, rfl, hy, hm, hsubst⟩
          · left
            intro x y hu hy
            cases x with
            | nil =>
                obtain rfl : c :: u = y := hu
                exact hhere
            | cons d x =>
                obtain ⟨rfl, rfl⟩ := List.cons.inj hu
                exact hquiet x y rfl hy
          · refine Or.inr ⟨c :: x, y, m, rfl, hy, hm, ?_⟩
            rw [List.cons_append, subst_cons_of_none hhere, hsubst, List.cons_append]

end Subst

/-! ## A text replaced -/

section Literal

variable {t : Chars} {f : List Chars → Chars}

theorem solid_text (ht : t ≠ []) : (text t).Solid := fun _ h => ht h.1.symm

theorem longest_text (l : Chars) :
    (text t).longest l = if t <+: l then some ⟨t, [], l.drop t.length⟩ else none := by
  rw [longest, parses]
  split <;> rfl

theorem longest_text_eq_none {l : Chars} (h : ¬ t <+: l) : (text t).longest l = none := by
  rw [longest_text, if_neg h]

theorem subst_text_append (ht : t ≠ []) (r : Chars) :
    subst (text t) f (t ++ r) = f [] ++ subst (text t) f r := by
  have h : (text t).longest (t ++ r) = some ⟨t, [], r⟩ := by
    rw [longest_text, if_pos (List.prefix_append t r), List.drop_left]
  exact subst_of_longest (solid_text ht) h

theorem subst_text_eq_self {l : Chars} (h : ¬ t <:+: l) : subst (text t) f l = l := by
  have hquiet : (text t).Quiet l [] := by
    intro x y hl _
    rw [List.append_nil]
    apply longest_text_eq_none
    rintro ⟨r, rfl⟩
    exact h ⟨x, r, by rw [hl, List.append_assoc]⟩
  have hsubst := subst_of_quiet (f := f) hquiet
  have hnil : subst (text t) f [] = [] := rfl
  rwa [hnil, List.append_nil] at hsubst

theorem prefix_append_cons_iff (ht : t ≠ []) {c : Char} (hc : c ∉ t) (a b : Chars) :
    t <+: a ++ c :: b ↔ t <+: a := by
  constructor
  · intro h
    rcases List.prefix_or_prefix_of_prefix h (List.prefix_append a (c :: b)) with hta | ⟨u, rfl⟩
    · exact hta
    · cases u with
      | nil => exact (List.append_nil a).symm ▸ List.prefix_refl a
      | cons d u =>
          have hd := (List.cons_prefix_cons.mp ((List.prefix_append_right_inj a).mp h)).1
          exact absurd (List.mem_append_right a (hd ▸ List.mem_cons_self)) hc
  · exact fun h => h.trans (List.prefix_append a (c :: b))

/-- A character that is not in the text separates what is replaced. -/
theorem subst_text_sep (ht : t ≠ []) {c : Char} (hc : c ∉ t) (a b : Chars) :
    subst (text t) f (a ++ c :: b) = subst (text t) f a ++ c :: subst (text t) f b := by
  induction hn : a.length using Nat.strongRecOn generalizing a with
  | ind n ih =>
      by_cases h : t <+: a
      · obtain ⟨r, rfl⟩ := h
        have hlt : r.length < n := by
          have hpos := List.length_pos_of_ne_nil ht
          rw [List.length_append] at hn
          omega
        rw [List.append_assoc, subst_text_append ht, subst_text_append ht, ih _ hlt r rfl,
          List.append_assoc]
      · have hnone := longest_text_eq_none fun hp => h ((prefix_append_cons_iff ht hc a b).mp hp)
        cases a with
        | nil => exact subst_cons_of_none hnone
        | cons d a =>
            rw [List.cons_append] at hnone ⊢
            have hlt : a.length < n := hn ▸ Nat.lt_succ_self a.length
            rw [subst_cons_of_none hnone, subst_cons_of_none (longest_text_eq_none h),
              ih _ hlt a rfl, List.cons_append]

end Literal

end Ere

end Text

end Library
