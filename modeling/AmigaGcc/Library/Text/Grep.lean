import Mathlib.Data.List.Infix
import Mathlib.Tactic.TypeStar

/-!
# Lines selected by a basic regular expression

`grep` reads its pattern as a basic regular expression and selects a line when
the pattern matches anywhere in it. `occurs` is that for the patterns made of
ordinary characters and dots, where a dot stands for any character; without dots
it is the infix relation. A `Grep` is any matcher that agrees with `occurs` on
these patterns, so that what is proved of every `Grep` does not depend on the
rest of the regular expression language.

`printRange` is the range of lines between two patterns of `sed`; `intervals` says
which lines these are.
-/

namespace Library

namespace Text

/-- A line without its newline, or a part of one. -/
abbrev Chars := List Char

/-- Evaluation looks at the characters of the text only. -/
theorem forall_mem_of_all {p : Char → Prop} [DecidablePred p] {l : Chars}
    (h : l.all (fun c => decide (p c)) = true) : ∀ c ∈ l, p c := fun c hc =>
  of_decide_eq_true (List.all_eq_true.mp h c hc)

/-- The characters with a meaning in a basic regular expression, and the
newline, which no line contains. -/
def specials : Chars := ['.', '*', '[', '\\', '^', '$', '\n']

/-- A pattern of characters that stand for themselves, which is no option. -/
def Literal (p : Chars) : Prop := p.head? ≠ some '-' ∧ ∀ c ∈ p, c ∉ specials

instance (p : Chars) : Decidable (Literal p) :=
  decidable_of_iff (p.head? ≠ some '-' ∧ p.all (· ∉ specials) = true) (by simp [Literal])

/-- A pattern of characters that stand for themselves, and dots, which is no
option. -/
def Dotted (p : Chars) : Prop := p.head? ≠ some '-' ∧ ∀ c ∈ p, c = '.' ∨ c ∉ specials

instance (p : Chars) : Decidable (Dotted p) :=
  decidable_of_iff (p.head? ≠ some '-' ∧ p.all (fun c => c = '.' ∨ c ∉ specials) = true)
    (by simp [Dotted])

theorem Literal.dotted {p : Chars} (h : Literal p) : Dotted p :=
  ⟨h.1, fun c hc => Or.inr (h.2 c hc)⟩

def matchesHere : Chars → Chars → Bool
  | [], _ => true
  | _ :: _, [] => false
  | c :: p, d :: l => (c == '.' || c == d) && matchesHere p l

def occurs (p : Chars) : Chars → Bool
  | [] => matchesHere p []
  | d :: l => matchesHere p (d :: l) || occurs p l

theorem matchesHere_append (p l : Chars) : matchesHere p (p ++ l) = true := by
  induction p with
  | nil => rfl
  | cons c p ih => simp [matchesHere, ih]

theorem occurs_of_matchesHere {p l : Chars} (h : matchesHere p l = true) :
    occurs p l = true := by
  cases l with
  | nil => exact h
  | cons d l => simp [occurs, h]

theorem occurs_append (p a b : Chars) : occurs p (a ++ (p ++ b)) = true := by
  induction a with
  | nil => exact occurs_of_matchesHere (matchesHere_append p b)
  | cons c a ih => simp [occurs, ih]

theorem matchesHere_iff_prefix {p : Chars} (h : ∀ c ∈ p, c ∉ specials) (l : Chars) :
    matchesHere p l = true ↔ p <+: l := by
  induction p generalizing l with
  | nil => simp [matchesHere]
  | cons c p ih =>
      have hc : c ≠ '.' := by
        rintro rfl
        exact h '.' List.mem_cons_self (by decide)
      have hp : ∀ d ∈ p, d ∉ specials := fun d hd => h d (List.mem_cons_of_mem c hd)
      cases l with
      | nil => simp [matchesHere]
      | cons d l => simp [matchesHere, hc, ih hp, List.cons_prefix_cons]

theorem occurs_iff_isInfix {p : Chars} (h : Literal p) (l : Chars) :
    occurs p l = true ↔ p <:+: l := by
  induction l with
  | nil =>
      rw [occurs, matchesHere_iff_prefix h.2, List.prefix_nil, List.infix_nil]
  | cons d l ih =>
      rw [occurs, Bool.or_eq_true, matchesHere_iff_prefix h.2, ih, List.infix_cons_iff]

/-- A matcher for basic regular expressions: `sel p l` says that `grep p`
selects the line `l`. -/
structure Grep where
  sel : Chars → Chars → Bool
  sel_dotted : ∀ p l, Dotted p → sel p l = occurs p l

/-- The matcher that knows ordinary characters and dots only. -/
def Grep.plain : Grep := ⟨occurs, fun _ _ _ => rfl⟩

theorem Grep.sel_iff_isInfix (g : Grep) {p : Chars} (h : Literal p) (l : Chars) :
    g.sel p l = true ↔ p <:+: l := by
  rw [g.sel_dotted p l h.dotted, occurs_iff_isInfix h]

/-! ## Ranges of lines -/

section Range

variable {α : Type*} (a b : α → Bool)

/-- `sed -n '/a/,/b/p'`: the end of a range is looked for behind the line that starts it,
and another range may follow. -/
def printRange : Bool → List α → List α
  | _, [] => []
  | false, l :: ls => if a l then l :: printRange true ls else printRange false ls
  | true, l :: ls => l :: printRange (!b l) ls

/-- The lines up to the first that `b` selects. -/
def through : List α → List α
  | [] => []
  | l :: ls => if b l then [l] else l :: through ls

/-- The lines behind it. -/
def past : List α → List α
  | [] => []
  | l :: ls => if b l then ls else past ls

theorem length_past_le (ls : List α) : (past b ls).length ≤ ls.length := by
  induction ls with
  | nil => exact Nat.le_refl _
  | cons l ls ih =>
      rw [past, List.length_cons]
      split
      · exact Nat.le_succ _
      · exact Nat.le_succ_of_le ih

theorem through_append_past (ls : List α) : through b ls ++ past b ls = ls := by
  induction ls with
  | nil => rfl
  | cons l ls ih =>
      rw [through, past]
      split
      · rfl
      · rw [List.cons_append, ih]

/-- From a line that `a` selects to the next that `b` selects, over and over. -/
def intervals : List α → List (List α)
  | [] => []
  | l :: ls => if a l then (l :: through b ls) :: intervals (past b ls) else intervals ls
termination_by ls => ls.length
decreasing_by
  · exact Nat.lt_succ_of_le (length_past_le b ls)
  · exact Nat.lt_succ_self _

theorem printRange_true (ls : List α) :
    printRange a b true ls = through b ls ++ printRange a b false (past b ls) := by
  induction ls with
  | nil => rfl
  | cons l ls ih =>
      rw [printRange, through, past]
      cases b l with
      | true => rfl
      | false => exact congrArg (l :: ·) ih

theorem printRange_eq_intervals (ls : List α) :
    printRange a b false ls = (intervals a b ls).flatten := by
  fun_induction intervals a b ls with
  | case1 => rfl
  | case2 l ls hl ih =>
      rw [printRange, if_pos hl, printRange_true, ih, List.flatten_cons, List.cons_append]
  | case3 l ls hl ih => rw [printRange, if_neg hl, ih]

variable {a b}

theorem through_append_cons {u w : List α} {l : α} (hu : ∀ x ∈ u, b x = false)
    (hl : b l = true) : through b (u ++ l :: w) = u ++ [l] ∧ past b (u ++ l :: w) = w := by
  induction u with
  | nil => simp [through, past, hl]
  | cons x u ih =>
      obtain ⟨hx, hu⟩ := List.forall_mem_cons.mp hu
      simp [through, past, hx, ih hu]

theorem through_eq_self {ls : List α} (h : ∀ l ∈ ls, b l = false) : through b ls = ls := by
  induction ls with
  | nil => rfl
  | cons l ls ih =>
      obtain ⟨hl, hls⟩ := List.forall_mem_cons.mp h
      rw [through, hl, if_neg Bool.false_ne_true, ih hls]

theorem intervals_eq_nil {ls : List α} (h : ∀ l ∈ ls, a l = false) : intervals a b ls = [] := by
  induction ls with
  | nil => rw [intervals]
  | cons l ls ih =>
      obtain ⟨hl, hls⟩ := List.forall_mem_cons.mp h
      rw [intervals, hl, if_neg Bool.false_ne_true, ih hls]

/-- One range, when no line behind it starts another. -/
theorem intervals_append_cons {u w : List α} {g : α} (hu : ∀ l ∈ u, a l = false)
    (hg : a g = true) (hw : ∀ l ∈ past b w, a l = false) :
    intervals a b (u ++ g :: w) = [g :: through b w] := by
  induction u with
  | nil => rw [List.nil_append, intervals, if_pos hg, intervals_eq_nil hw]
  | cons l u ih =>
      obtain ⟨hl, hu⟩ := List.forall_mem_cons.mp hu
      rw [List.cons_append, intervals, hl, if_neg Bool.false_ne_true, ih hu]

end Range

end Text

end Library
